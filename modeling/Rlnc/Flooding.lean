import Rlnc.Mesh
import Rlnc.Metrics
import Rlnc.Progress

/-!
Flooding with the full-block strategy. A node that receives the block decodes it and
sends it on once, so that the run is a flood along the links of the mesh
(`Flooded`): it reaches every node, at a time that is proportional to its distance from
the proposer (`breadth_first`), and sends the block `degree` times for each node
(`redundancy_tax`).
-/
namespace Rlnc.Flooding
open Rlnc.Panics Rlnc.Wire Rlnc.Packing Rlnc.Draws Rlnc.Blocks Rlnc.Strategies Rlnc.Topology Rlnc.Engine Rlnc.Events Rlnc.Metrics
open Rlnc.Progress Rlnc.Walks Rlnc.Mesh
set_option linter.unusedSectionVars false

/-! ### Who forwards -/

section
variable {σ NodeState Packet : Type} (S : Strategy σ NodeState Packet) [EventHeap]

/-- Whether the node of this event forwards. -/
def forwards_at (self : Simulation σ NodeState Packet) (event : Event Packet) : Rust Bool := do
  let decode_time ← index self.decode_times event.to_node
  if decode_time.isSome then
    return false
  let state ← index self.states event.to_node
  let (state,received) ← S.receive self.mechanism.strategy state event.packet
  match received with
  | .error _ => return false
  | .ok rank_increased =>
    self.should_forward S event.to_node rank_increased (S.can_decode self.mechanism.strategy state)

/-- The nodes that forward at the first events, in their order. -/
def forwarders : Nat → Simulation σ NodeState Packet → Rust (List Nat)
  | 0, _ => .ok []
  | count + 1, self =>
    match EventHeap.pop self.event_queue with
    | none => .ok []
    | some (event,rest) => do
      let forwards ← forwards_at S { self with event_queue := rest } event
      let self ← Simulation.process S { self with event_queue := rest } event
      let others ← forwarders count self
      return if forwards then event.to_node :: others else others

/-- The time at which a node decoded. -/
def visited (sim : Simulation σ NodeState Packet) (v : Nat) : Option Duration := sim.decode_times[v]?.join

/-- The number of nodes that have decoded. -/
def decoded (sim : Simulation σ NodeState Packet) : Nat := (sim.decode_times.filterMap id).length

variable {S} [LawfulEventHeap] {sim sim' : Simulation σ NodeState Packet} {event : Event Packet}

theorem forwards_at_skipped {time : Duration} (known : sim.decode_times[event.to_node]? = some (some time)) :
    forwards_at S sim event = .ok false := by
  simp only [forwards_at,index_of known,ok_bind,Option.isSome_some,if_true,pure_eq]

theorem forwards_at_refused {state state' : NodeState} {e : String} (waits : sim.decode_times[event.to_node]? = some none)
    (found : sim.states[event.to_node]? = some state)
    (received : S.receive sim.mechanism.strategy state event.packet = .ok (state',.error e)) :
    forwards_at S sim event = .ok false := by
  simp only [forwards_at,index_of waits,ok_bind,Option.isSome_none,Bool.false_eq_true,if_false,index_of found,received,pure_eq]

theorem forwards_at_taken {state state' : NodeState} {useful : Bool} (waits : sim.decode_times[event.to_node]? = some none)
    (found : sim.states[event.to_node]? = some state)
    (received : S.receive sim.mechanism.strategy state event.packet = .ok (state',.ok useful)) :
    forwards_at S sim event =
      sim.should_forward S event.to_node useful (S.can_decode sim.mechanism.strategy state') := by
  simp only [forwards_at,index_of waits,ok_bind,Option.isSome_none,Bool.false_eq_true,if_false,index_of found,received]

/-- A node that forwards after decoding is visited when it forwards, and no other node is. -/
theorem forwards_visited (after : ∀ self, S.forward_condition self = .AfterDecode) (handled : Handled S sim event sim') :
    ∃ forwards, forwards_at S sim event = .ok forwards ∧ (forwards = true → visited sim event.to_node = none) ∧
      visited sim' = if forwards then Function.update (visited sim) event.to_node (some event.time) else visited sim := by
  cases handled with
  | skipped time known same => exact ⟨false,forwards_at_skipped known,by simp,by rw [same]; rfl⟩
  | refused state state' e waits found received changed =>
    exact ⟨false,forwards_at_refused waits found received,by simp,by rw [changed]; rfl⟩
  | taken state state' useful forwards links waits found received changes =>
    refine ⟨forwards,(forwards_at_taken waits found received).trans changes.asked,fun _ => by rw [visited,waits]; rfl,?_⟩
    · have asked := changes.asked
      simp only [Simulation.should_forward,after,Except.ok.injEq] at asked
      have times := changes.decode_times
      rw [asked] at times
      obtain ⟨inside,_⟩ := List.getElem?_eq_some_iff.mp waits
      funext v
      rw [visited,times]
      cases forwards with
      | false => rfl
      | true =>
        by_cases same : v = event.to_node
        · subst same
          simp [inside]
        · simp [visited,List.getElem?_set_ne (Ne.symm same),Function.update_of_ne same]

/-- Nodes that forward after decoding forward once, when they decode. -/
theorem forwarders_visited (after : ∀ self, S.forward_condition self = .AfterDecode) {count : Nat}
    (ran : sim.process_events S count = .ok sim') :
    ∃ nodes, forwarders S count sim = .ok nodes ∧
      ∀ v, nodes.count v + (visited sim v).isSome.toNat = (visited sim' v).isSome.toNat := by
  induction count generalizing sim with
  | zero =>
    obtain rfl : sim = sim' := Except.ok.inj ran
    exact ⟨[],rfl,by simp⟩
  | succ count ih =>
    cases popped : EventHeap.pop sim.event_queue with
    | none =>
      simp only [Simulation.process_events,popped] at ran
      obtain rfl : sim = sim' := Except.ok.inj ran
      exact ⟨[],by simp only [forwarders,popped],by simp⟩
    | some next =>
      obtain ⟨event,rest⟩ := next
      simp only [Simulation.process_events,popped,bind_ok] at ran
      obtain ⟨between,processed,ran⟩ := ran
      obtain ⟨nodes,others,counted⟩ := ih ran
      obtain ⟨forwards,asked,fresh,visits⟩ := forwards_visited after (process_ok processed)
      have fresh' : forwards = true → visited sim event.to_node = none := fresh
      have visits' : visited between =
        if forwards then Function.update (visited sim) event.to_node (some event.time) else visited sim := visits
      refine ⟨if forwards then event.to_node :: nodes else nodes,
        by simp only [forwarders,popped,asked,processed,others,ok_bind,pure_eq],fun v => ?_⟩
      rw [← counted v,visits']
      cases forwards with
      | false => rfl
      | true =>
        by_cases same : v = event.to_node
        · subst same
          simp [fresh' rfl]
        · simp [List.count_cons_of_ne (Ne.symm same),Function.update_of_ne same]

/-- One more node has decoded. -/
theorem decoded_set {v : Nat} (waits : sim.decode_times[v]? = some none) (time : Duration)
    (times : sim'.decode_times = sim.decode_times.set v (some time)) : decoded sim' = decoded sim + 1 := by
  have counts : ∀ xs : List (Option Duration), (xs.filterMap id).length = (xs.map (fun x => x.isSome.toNat)).sum := by
    intro xs
    induction xs with
    | nil => rfl
    | cons x xs ih =>
      rw [List.map_cons,List.sum_cons,← ih]
      cases x <;> simp [Nat.add_comm]
  have changed := sum_map_set (fun x => x.isSome.toNat) (y := some time) waits
  rw [decoded,decoded,times,counts,counts]
  simpa using changed

end

/-! ### Full blocks -/

section
variable [FixedCodec UInt64] [BytesCodec] [EventHeap] {mechanism : PropagationMechanism Unit} {topo : Topology}
  {block : Block} {sim sim' : Simulation Unit BaselineNodeState Bytes}

/-- The messages on their way: when they come, and where. -/
def on_their_way (sim : Simulation Unit BaselineNodeState Bytes) : Set (Nat × Nat) :=
  {message | ∃ event ∈ sim.event_queue, message = (event.time,event.to_node)}

/-- The invariant of the loop: a flood along the links, in which a node has the block and has
    paid for sending it exactly if it was visited. -/
structure Flooded (mechanism : PropagationMechanism Unit) (topo : Topology) (block : Block)
    (sim : Simulation Unit BaselineNodeState Bytes) : Prop where
  flow : Flow mechanism.num_nodes (fun p => p = block.serialize) sim
  states : sim.states.length = mechanism.num_nodes
  times : sim.decode_times.length = mechanism.num_nodes
  params : sim.mechanism = mechanism
  placed : sim.topo = topo
  waiting : ∀ (v : Nat) (state : BaselineNodeState), sim.decode_times[v]? = some none → sim.states[v]? = some state →
    state = ⟨none⟩
  flood : Flood (Link topo.neighbors) 0 (mechanism.transmission_delay block.serialize.length) (visited sim)
    (on_their_way sim)
  upload : ∀ (v x : Nat), sim.upload[v]? = some x →
    x = if (visited sim v).isSome then mechanism.mesh_degree * block.serialize.length else 0
  total : sim.total_packets = decoded sim * mechanism.mesh_degree
  useful : sim.useful_packets + 1 = decoded sim

/-- The links of a node that sends the same packet to all its peers. -/
theorem bytes_links (peers : List Nat) (packet : Bytes) (params : PropagationMechanism Unit) :
    bytes baseline params (peers.zip (List.replicate peers.length packet)) = peers.length * packet.length := by
  induction peers with
  | nil => simp [bytes]
  | cons peer peers ih =>
    simp only [bytes,List.length_cons,List.replicate_succ,List.zip_cons_cons,List.map_cons,List.sum_cons] at ih ⊢
    rw [ih,Nat.succ_mul,Nat.add_comm]
    rfl

theorem mem_links {peers : List Nat} {packet : Bytes} {link : Nat × Bytes} :
    link ∈ peers.zip (List.replicate peers.length packet) ↔ link.1 ∈ peers ∧ link.2 = packet := by
  induction peers with
  | nil => simp
  | cons peer peers ih =>
    rw [List.length_cons,List.replicate_succ,List.zip_cons_cons,List.mem_cons,ih,List.mem_cons,Prod.ext_iff]
    tauto

variable [LawfulEventHeap]

/-- A packet that is sent along the links of a node is a message along each of its edges. -/
theorem on_their_way_posted {node : Nat} {time : Duration} {peers : List Nat} (listed : topo.neighbors[node]? = some peers)
    (posted : Posted baseline node time (peers.zip (List.replicate peers.length block.serialize)) sim sim')
    (params : sim.mechanism = mechanism) (message : Nat × Nat) :
    message ∈ on_their_way sim' ↔ message ∈ on_their_way sim ∨
      message.1 = time + mechanism.transmission_delay block.serialize.length ∧ Link topo.neighbors node message.2 := by
  have link : ∀ v, Link topo.neighbors node v ↔ v ∈ peers := by
    intro v
    constructor
    · rintro ⟨peers',listed',member⟩
      rwa [Option.some.inj (listed.symm.trans listed')]
    · exact fun member => ⟨peers,listed,member⟩
  rw [link]
  constructor
  · rintro ⟨event,member,rfl⟩
    rcases List.mem_append.mp (posted.queue.mem_iff.mp member) with new | old
    · obtain ⟨⟨peer,packet⟩,sent,rfl⟩ := List.mem_map.mp new
      obtain ⟨peered,same⟩ := mem_links.mp sent
      have packed : packet = block.serialize := same
      refine .inr ⟨?_,peered⟩
      simp only [arrival,packed,params]
      rfl
    · exact .inl ⟨event,old,rfl⟩
  · rintro (⟨event,member,rfl⟩ | ⟨later,member⟩)
    · exact ⟨event,posted.queue.mem_iff.mpr (List.mem_append_right _ member),rfl⟩
    · refine ⟨arrival baseline sim.mechanism time (message.2,block.serialize),
        posted.queue.mem_iff.mpr (List.mem_append_left _ (List.mem_map_of_mem (mem_links.mpr ⟨member,rfl⟩))),?_⟩
      rw [params]
      exact Prod.ext later rfl

/-- The loop takes one of the earliest messages; the others stay on their way. -/
theorem on_their_way_popped {event : Event Bytes} {rest : List (Event Bytes)}
    (popped : EventHeap.pop sim.event_queue = some (event,rest)) :
    (event.time,event.to_node) ∈ on_their_way sim ∧ (∀ message ∈ on_their_way sim, event.time ≤ message.1) ∧
      (∀ message ∈ on_their_way sim, message = (event.time,event.to_node) ∨
        message ∈ on_their_way { sim with event_queue := rest }) ∧
      on_their_way { sim with event_queue := rest } ⊆ on_their_way sim := by
  have queue : ∀ e, e ∈ sim.event_queue ↔ e = event ∨ e ∈ rest := fun e =>
    (LawfulEventHeap.pop_perm popped).mem_iff.symm.trans List.mem_cons
  refine ⟨⟨event,(queue event).mpr (.inl rfl),rfl⟩,?_,?_,?_⟩
  · rintro _ ⟨e,member,rfl⟩
    rcases (queue e).mp member with rfl | other
    · exact le_rfl
    · exact LawfulEventHeap.pop_earliest popped e other
  · rintro _ ⟨e,member,rfl⟩
    rcases (queue e).mp member with rfl | other
    · exact .inl rfl
    · exact .inr ⟨e,other,rfl⟩
  · rintro _ ⟨e,member,rfl⟩
    exact ⟨e,(queue e).mpr (.inr member),rfl⟩

/-- A node that takes the block is visited, and sends it on to its peers. -/
theorem Flooded.taken (flooded : Flooded mechanism topo block sim) {event : Event Bytes} {rest : List (Event Bytes)}
    (popped : EventHeap.pop sim.event_queue = some (event,rest))
    (flow : Flow mechanism.num_nodes (fun p => p = block.serialize) sim')
    (waits : sim.decode_times[event.to_node]? = some none)
    (times : sim'.decode_times = sim.decode_times.set event.to_node (some event.time))
    (params : sim'.mechanism = sim.mechanism) (placed : sim'.topo = sim.topo) {state : BaselineNodeState}
    (states : sim'.states = sim.states.set event.to_node state)
    (useful : sim'.useful_packets = sim.useful_packets + 1) {peers : List Nat}
    (listed : topo.neighbors[event.to_node]? = some peers) (regular : peers.length = mechanism.mesh_degree)
    (posted : Posted baseline event.to_node event.time (peers.zip (List.replicate peers.length block.serialize))
      { sim with event_queue := rest } sim') : Flooded mechanism topo block sim' := by
  obtain ⟨comes,earliest,queued,others⟩ := on_their_way_popped popped
  have sent := on_their_way_posted listed posted flooded.params
  obtain ⟨small,_⟩ := List.getElem?_eq_some_iff.mp waits
  have new : visited sim event.to_node = none := by rw [visited,waits]; rfl
  have here : visited sim' event.to_node = some event.time := by
    rw [visited,times,List.getElem?_set_self small]
    rfl
  have elsewhere : ∀ u, u ≠ event.to_node → visited sim' u = visited sim u := fun u apart => by
    rw [visited,times,List.getElem?_set_ne (Ne.symm apart),visited]
  have one_more := decoded_set waits event.time times
  refine ⟨flow,?_,?_,params.trans flooded.params,placed.trans flooded.placed,?_,?_,?_,?_,?_⟩
  · rw [states,List.length_set]
    exact flooded.states
  · rw [times,List.length_set]
    exact flooded.times
  · intro v state waiting held
    have apart : v ≠ event.to_node := by
      rintro rfl
      rw [visited,waiting] at here
      cases here
    rw [times,List.getElem?_set_ne (Ne.symm apart)] at waiting
    rw [states,List.getElem?_set_ne (Ne.symm apart)] at held
    exact flooded.waiting v state waiting held
  · refine flooded.flood.visit new comes earliest here elsewhere ?_ ?_ ?_
    · exact fun message member => (queued message member).imp id fun other => (sent message).mpr (.inl other)
    · exact fun message member => ((sent message).mp member).imp (fun other => others other) id
    · exact fun w link => (sent _).mpr (.inr ⟨rfl,link⟩)
  · intro v x paid
    have inside : v < sim.upload.length := by
      rw [← show sim'.upload.length = sim.upload.length from posted.upload_length]
      exact (List.getElem?_eq_some_iff.mp paid).1
    have before := List.getElem?_eq_getElem inside
    have known := flooded.upload v _ before
    have after := posted.upload_at v _ before
    obtain rfl := Option.some.inj (paid.symm.trans after)
    by_cases same : v = event.to_node
    · rw [if_pos same,known,same,new,here,bytes_links,regular]
      simp
    · rw [if_neg same,known,elsewhere v same]
  · rw [posted.total,one_more,Nat.succ_mul,List.length_zip,List.length_replicate,Nat.min_self,regular]
    exact congrArg (fun k => k + mechanism.mesh_degree) flooded.total
  · rw [useful,one_more]
    exact congrArg Nat.succ flooded.useful

/-- One event of a flood. -/
theorem Flooded.process (flooded : Flooded mechanism topo block sim)
    (regular : ∀ (v : Nat) (peers : List Nat), topo.neighbors[v]? = some peers → peers.length = mechanism.mesh_degree)
    {event : Event Bytes} {rest : List (Event Bytes)} (popped : EventHeap.pop sim.event_queue = some (event,rest)) :
    ∃ sim', Simulation.process baseline { sim with event_queue := rest } event = .ok sim' ∧
      Flooded mechanism topo block sim' := by
  obtain ⟨target,genuine,flow⟩ := flow_popped flooded.flow popped
  obtain ⟨sim',ran,flow'⟩ := process_runs (S := baseline) flow flooded.states flooded.times target (by
    intro state waits found
    obtain rfl := flooded.waiting _ state waits found
    refine ⟨⟨some event.packet⟩,.ok true,rfl,fun _ _ _ count rng => ?_⟩
    refine ⟨List.replicate count event.packet,rng,rfl,fun p member => ?_⟩
    rw [List.eq_of_mem_replicate member]
    exact genuine)
  refine ⟨sim',ran,?_⟩
  obtain ⟨comes,earliest,queued,others⟩ := on_their_way_popped popped
  cases process_ok ran with
  | skipped time known same =>
    have visits : visited sim event.to_node ≠ none := by
      have listed : sim.decode_times[event.to_node]? = some (some time) := known
      simp [visited,listed]
    rw [same]
    exact ⟨flow,flooded.states,flooded.times,flooded.params,flooded.placed,flooded.waiting,
      flooded.flood.drop visits queued others,flooded.upload,flooded.total,flooded.useful⟩
  | refused state state' e waits found received changed =>
    obtain rfl := flooded.waiting _ state waits found
    cases received
  | taken state state' useful forwards links waits found received changes =>
    obtain rfl := flooded.waiting _ state waits found
    obtain ⟨rfl,same⟩ := ok_pair received
    obtain rfl := Except.ok.inj same
    obtain rfl : true = forwards := Except.ok.inj changes.asked
    obtain ⟨peers,packets,rest',listed,made,rfl⟩ := changes.sends
    obtain ⟨rfl,_⟩ := ok_pair made
    exact flooded.taken popped flow' waits changes.decode_times changes.mechanism changes.topo changes.states
      changes.useful_packets (flooded.placed ▸ listed) (regular _ peers (flooded.placed ▸ listed)) (genuine ▸ changes.posted)

/-- No node sends to its peers twice. -/
theorem Flooded.bounded (flooded : Flooded mechanism topo block sim) :
    sim.total_packets ≤ mechanism.num_nodes * mechanism.mesh_degree := by
  rw [flooded.total,← flooded.times]
  exact Nat.mul_le_mul_right _ (List.length_filterMap_le _ _)

/-! ### Runs -/

variable [SliceRandom] [LawfulSliceRandom] {rng rest : Rng}

/-- Before the loop the block is on its way from the proposer to its peers. -/
theorem started_flooded {byte_len : Nat} {peers : List Nat} {packets : List Bytes}
    (started : Started baseline mechanism block rng sim byte_len peers packets) :
    byte_len = block.serialize.length ∧ Flooded mechanism sim.topo block sim ∧
      ∀ v, visited sim v = if v = 0 then some 0 else none := by
  obtain ⟨before,proposer,after,proposed,_⟩ := started.proposed
  obtain ⟨same,_⟩ := ok_pair proposed
  simp only [Prod.mk.injEq] at same
  obtain ⟨_,_,rfl,rfl⟩ := same
  obtain ⟨rest,mesh⟩ := started.mesh
  have regular := ((random_mesh_spec _ _ _ _ _ mesh).2.1 0 peers started.listed).1
  obtain ⟨timed,first_time,waiting⟩ := started_times started
  obtain ⟨states,rng',posted,same⟩ := started.begun
  have params : sim.mechanism = mechanism := started.params
  have first : visited sim 0 = some 0 := by rw [visited,first_time]; rfl
  have others : ∀ v, v ≠ 0 → visited sim v = none := by
    intro v above
    by_cases inside : v < mechanism.num_nodes
    · rw [visited,waiting v inside (by omega)]
      rfl
    · rw [visited,List.getElem?_eq_none (by omega)]
      rfl
  have one : decoded sim = 1 := one_decoded first_time fun v above inside => waiting v (timed ▸ inside) above
  have sent := on_their_way_posted started.listed posted params
  refine ⟨rfl,⟨started_flow started fun p member => List.eq_of_mem_replicate member,started.nodes,timed,params,rfl,?_,?_,?_,
    ?_,?_⟩,fun v => ?_⟩
  · intro v state waits held
    have above : 0 < v := by
      rcases Nat.eq_zero_or_pos v with rfl | above
      · rw [first_time] at waits
        cases waits
      · exact above
    exact (Except.ok.inj (started.receivers v state above held)).symm
  · refine Flood.begin first others fun t v => (sent (t,v)).trans ?_
    simp [on_their_way,initial]
  · intro v x paid
    have inside : v < mechanism.num_nodes := by
      have small := (List.getElem?_eq_some_iff.mp paid).1
      rw [posted.upload_length] at small
      simpa [initial,params] using small
    have here := posted.upload_at v 0 (by simp [initial,params,inside])
    obtain rfl := Option.some.inj (paid.symm.trans here)
    by_cases same : v = 0
    · rw [if_pos same,same,first,bytes_links,regular]
      simp
    · rw [if_neg same,others v same]
      rfl
  · rw [(started_queued started).1,one,List.length_zip,List.length_replicate,regular]
    simp
  · rw [same.useful,one]
    rfl
  · by_cases same : v = 0
    · rw [if_pos same,same,first]
    · rw [if_neg same,others v same]

/-- A flood ends when every node was visited. -/
theorem flooded_runs (mesh : Topology.random_mesh mechanism.num_nodes mechanism.mesh_degree rng = .ok (topo,rest))
    (block : Block) : ∃ sim, Simulation.start baseline mechanism block rng = .ok (sim,block.serialize.length) ∧
      (∀ v, visited sim v = if v = 0 then some 0 else none) ∧ ∃ enough, ∀ count, enough ≤ count → ∃ sim',
        sim.process_events baseline count = .ok sim' ∧ sim'.event_queue = [] ∧ Flooded mechanism topo block sim' ∧
        ∀ v < mechanism.num_nodes, visited sim' v =
          some (mechanism.transmission_delay block.serialize.length * dist (Link topo.neighbors) 0 v) := by
  obtain ⟨_,regular,reaches⟩ := random_mesh_spec _ _ _ _ _ mesh
  obtain ⟨sim,byte_len,began,rfl⟩ := start_runs (S := baseline) block mesh
    fun count rng => ⟨_,_,_,_,_,_,rfl,rfl⟩
  obtain ⟨peers,packets,started⟩ := start_ok began
  obtain ⟨rfl,flooded,visits⟩ := started_flooded started
  obtain ⟨total,queued⟩ := started_queued started
  refine ⟨sim,began,visits,mechanism.num_nodes * mechanism.mesh_degree + 1,fun count enough => ?_⟩
  obtain ⟨sim',ran,kept,ends⟩ := process_events_ends (S := baseline) (Flooded mechanism sim.topo block)
    (mechanism.num_nodes * mechanism.mesh_degree)
    (fun sim event rest kept popped => kept.process (fun v peers listed => (regular v peers listed).1) popped)
    (fun sim kept => kept.bounded) count flooded queued.le
  have empty := ends (by omega)
  refine ⟨sim',ran,empty,kept,fun v inside => kept.flood.complete ?_ (reaches v inside)⟩
  simp [on_their_way,empty]

theorem visited_all {latest : Nat → Duration} (times : sim.decode_times.length = mechanism.num_nodes)
    (visits : ∀ v < mechanism.num_nodes, visited sim v = some (latest v)) :
    sim.decode_times = (List.range mechanism.num_nodes).map (fun v => some (latest v)) := by
  refine List.ext_getElem (by simp [times]) fun v inside _ => ?_
  have known := visits v (times ▸ inside)
  rw [visited,List.getElem?_eq_getElem inside] at known
  simpa using known

/-- Every node decodes at a time that is proportional to its distance from the proposer,
    whatever the order of events at the same time. -/
theorem breadth_first (mechanism : PropagationMechanism Unit) (block : Block) (rng rest : Rng) (topo : Topology)
    (mesh : Topology.random_mesh mechanism.num_nodes mechanism.mesh_degree rng = .ok (topo,rest)) :
    ∃ enough, ∀ count, enough ≤ count → ∃ m, run baseline count mechanism block rng = .ok (some m) ∧
      m.nodes_decoded = mechanism.num_nodes ∧
      (∀ v < mechanism.num_nodes, Reachable (Link topo.neighbors) 0 v) ∧
      m.decode_times = (List.range mechanism.num_nodes).map (fun v =>
        some (mechanism.transmission_delay block.serialize.length * dist (Link topo.neighbors) 0 v)) ∧
      m.propagation_time = mechanism.transmission_delay block.serialize.length *
        (Finset.range mechanism.num_nodes).sup (dist (Link topo.neighbors) 0) := by
  obtain ⟨some_node,_⟩ := Topology.random_mesh_peers mesh
  obtain ⟨sim,began,_,enough,ends⟩ := flooded_runs mesh block
  refine ⟨enough,fun count large => ?_⟩
  obtain ⟨sim',ran,empty,flooded,visits⟩ := ends count large
  have all := visited_all flooded.times visits
  refine ⟨metrics baseline sim' block.serialize.length,?_,?_,(random_mesh_spec _ _ _ _ _ mesh).2.2,all,?_⟩
  · simp only [run,began,ok_bind,ran,(LawfulEventHeap.pop_none _).mpr empty,pure_eq]
  · simp [metrics,all]
  · obtain ⟨v,inside,farthest⟩ := Finset.exists_mem_eq_sup (Finset.range mechanism.num_nodes)
      ⟨0,Finset.mem_range.mpr some_node⟩ (dist (Link topo.neighbors) 0)
    refine last_sorted ?_ ?_
    · rw [all,farthest]
      simp only [List.filterMap_map,List.mem_filterMap,List.mem_range]
      exact ⟨v,Finset.mem_range.mp inside,rfl⟩
    · intro t member
      rw [all] at member
      simp only [List.filterMap_map,List.mem_filterMap,List.mem_range] at member
      obtain ⟨u,small,same⟩ := member
      obtain rfl := Option.some.inj same
      exact Nat.mul_le_mul_left _ (Finset.le_sup (Finset.mem_range.mpr small))

/-- Every node forwards once, so that the block is sent `degree` times for each node. -/
theorem redundancy_tax (mechanism : PropagationMechanism Unit) (block : Block) (rng rest : Rng) (topo : Topology)
    (mesh : Topology.random_mesh mechanism.num_nodes mechanism.mesh_degree rng = .ok (topo,rest)) :
    ∃ sim, Simulation.start baseline mechanism block rng = .ok (sim,block.serialize.length) ∧
      ∃ enough, ∀ count, enough ≤ count → ∃ nodes m, forwarders baseline count sim = .ok nodes ∧
        (0 :: nodes).Perm (List.range mechanism.num_nodes) ∧ run baseline count mechanism block rng = .ok (some m) ∧
        m.per_node_upload = List.replicate mechanism.num_nodes (mechanism.mesh_degree * block.serialize.length) ∧
        m.total_packets = mechanism.num_nodes * mechanism.mesh_degree ∧
        m.total_bytes_sent = mechanism.num_nodes * mechanism.mesh_degree * block.serialize.length ∧
        m.useful_packets = mechanism.num_nodes - 1 ∧ m.useful_bytes = mechanism.num_nodes * block.serialize.length ∧
        (m.total_bytes_sent : ℚ) / m.useful_bytes = mechanism.mesh_degree := by
  obtain ⟨some_node,_⟩ := Topology.random_mesh_peers mesh
  obtain ⟨sim,began,opening,enough,ends⟩ := flooded_runs mesh block
  refine ⟨sim,began,enough,fun count large => ?_⟩
  obtain ⟨sim',ran,empty,flooded,visits⟩ := ends count large
  obtain ⟨nodes,listed,counted⟩ := forwarders_visited (S := baseline) (fun _ => rfl) ran
  have all := visited_all flooded.times visits
  have decoded_all : decoded sim' = mechanism.num_nodes := by simp [decoded,all]
  have some_byte : 0 < block.serialize.length := by
    simp only [Block.serialize,Block.write,List.length_append,block.parent_hash.2]
    omega
  have uploads : sim'.upload = List.replicate mechanism.num_nodes (mechanism.mesh_degree * block.serialize.length) := by
    refine List.eq_replicate_iff.mpr ⟨flooded.flow.upload,fun x member => ?_⟩
    obtain ⟨v,paid⟩ := List.mem_iff_getElem?.mp member
    have inside := (List.getElem?_eq_some_iff.mp paid).1
    rw [flooded.upload v x paid,visits v (flooded.flow.upload ▸ inside)]
    rfl
  have total : (metrics baseline sim' block.serialize.length).total_bytes_sent =
      mechanism.num_nodes * mechanism.mesh_degree * block.serialize.length := by
    simp only [metrics,uploads,List.sum_replicate,smul_eq_mul,Nat.mul_assoc]
  have useful : (metrics baseline sim' block.serialize.length).useful_bytes =
      mechanism.num_nodes * block.serialize.length := by
    rw [Nat.mul_comm,← decoded_all]
    rfl
  refine ⟨nodes,metrics baseline sim' block.serialize.length,listed,?_,?_,uploads,?_,total,?_,useful,?_⟩
  · refine List.perm_iff_count.mpr fun v => ?_
    have once := counted v
    have first : (0 :: nodes).count v = nodes.count v + (visited sim v).isSome.toNat := by
      rw [opening v,List.count_cons]
      by_cases same : v = 0
      · simp [same]
      · simp [same,Ne.symm same]
    rw [first,once]
    by_cases inside : v < mechanism.num_nodes
    · rw [visits v inside,List.count_eq_one_of_mem List.nodup_range (List.mem_range.mpr inside)]
      rfl
    · have outside : sim'.decode_times[v]? = none := List.getElem?_eq_none (by rw [flooded.times]; omega)
      rw [visited,outside,List.count_eq_zero_of_not_mem (by simpa using inside)]
      rfl
  · simp only [run,began,ok_bind,ran,(LawfulEventHeap.pop_none _).mpr empty,pure_eq]
  · exact flooded.total.trans (by rw [decoded_all])
  · have one_less := flooded.useful
    rw [decoded_all] at one_less
    exact Nat.eq_sub_of_add_eq one_less
  · rw [total,useful]
    push_cast
    have nodes_there : (mechanism.num_nodes : ℚ) ≠ 0 := by exact_mod_cast some_node.ne'
    have bytes_there : (block.serialize.length : ℚ) ≠ 0 := by exact_mod_cast some_byte.ne'
    field_simp

end

section
open Rlnc.Reference Rlnc.Simulator

private def one_link : PropagationMechanism Unit := ⟨3,1,fun bytes => bytes + 5,()⟩

/-- On a path of three nodes. -/
theorem breadth_first_three : Topology.random_mesh 3 1 (Stream'.const 0) = .ok (⟨[[1],[2],[1]],1⟩,Stream'.const 0) ∧
    ∃ enough, ∀ count, enough ≤ count → ∃ m, run baseline count one_link (block_of [1,0,3]) (Stream'.const 0) = .ok (some m) ∧
      m.nodes_decoded = 3 ∧
      m.decode_times = (List.range 3).map (fun v => some (105 * dist (Link [[1],[2],[1]]) 0 v)) := by
  have mesh : Topology.random_mesh 3 1 (Stream'.const 0) = .ok (⟨[[1],[2],[1]],1⟩,Stream'.const 0) := rfl
  obtain ⟨enough,ends⟩ := breadth_first one_link (block_of [1,0,3]) _ _ _ mesh
  refine ⟨mesh,enough,fun count large => ?_⟩
  obtain ⟨m,ran,all,_,times,_⟩ := ends count large
  have length : (block_of [1,0,3]).serialize.length = 100 := by decide +kernel
  rw [length] at times
  exact ⟨m,ran,all,times⟩

/-- Three nodes send a block of 100 bytes to one peer each. -/
theorem redundancy_tax_three : ∃ enough, ∀ count, enough ≤ count →
    ∃ m, run baseline count one_link (block_of [1,0,3]) (Stream'.const 0) = .ok (some m) ∧
      m.per_node_upload = [100,100,100] ∧ m.total_packets = 3 ∧ m.useful_packets = 2 := by
  have mesh : Topology.random_mesh 3 1 (Stream'.const 0) = .ok (⟨[[1],[2],[1]],1⟩,Stream'.const 0) := rfl
  obtain ⟨_,_,enough,ends⟩ := redundancy_tax one_link (block_of [1,0,3]) _ _ _ mesh
  refine ⟨enough,fun count large => ?_⟩
  obtain ⟨_,m,_,_,ran,uploads,total,_,useful,_⟩ := ends count large
  have length : (block_of [1,0,3]).serialize.length = 100 := by decide +kernel
  rw [length] at uploads
  exact ⟨m,ran,uploads,total,useful⟩

end

end Rlnc.Flooding
