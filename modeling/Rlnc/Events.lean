import Rlnc.Engine

/-!
What the parts of the simulation do whenever they return, with any strategy. Sending
moves bytes from the uploads to the downloads and fills the queue (`Posted`); an event
is skipped, refused or taken (`process_ok`), and what holds before the loop and is kept
by each of its events holds after any number of them (`process_events_kept`).
-/
namespace Rlnc.Events
open Rlnc.Panics Rlnc.Draws Rlnc.Blocks Rlnc.Protocols Rlnc.Strategies Rlnc.Topology Rlnc.Engine
set_option linter.unusedSectionVars false

/-- Replacing one element changes a sum by the difference of the two. -/
theorem sum_map_set {α : Type} (f : α → Nat) {xs : List α} {i : Nat} {x y : α} (found : xs[i]? = some x) :
    ((xs.set i y).map f).sum + f x = (xs.map f).sum + f y := by
  induction xs generalizing i with
  | nil => cases found
  | cons z zs ih =>
    cases i with
    | zero =>
      obtain rfl : z = x := Option.some.inj found
      simp only [List.set_cons_zero,List.map_cons,List.sum_cons]
      omega
    | succ i =>
      have later := ih found
      simp only [List.set_cons_succ,List.map_cons,List.sum_cons]
      omega

/-- `xs[i] += k` adds `k` to one entry and to the sum. -/
theorem add_at_ok {xs r : List Nat} {i k : Nat} (ran : add_at xs i k = .ok r) :
    r.length = xs.length ∧ r.sum = xs.sum + k ∧
      ∀ v x, xs[v]? = some x → r[v]? = some (if v = i then x + k else x) := by
  simp only [add_at,bind_ok,index_eq_ok,set_at_eq_ok] at ran
  obtain ⟨x,found,inside,rfl⟩ := ran
  refine ⟨List.length_set,?_,?_⟩
  · have changed := sum_map_set (fun y => y) (y := x + k) found
    simp only [List.map_id'] at changed
    omega
  · intro v y here
    by_cases same : v = i
    · subst same
      obtain rfl := Option.some.inj (found.symm.trans here)
      rw [List.getElem?_set_self inside,if_pos rfl]
    · rw [List.getElem?_set_ne (Ne.symm same),if_neg same,here]

section
variable {σ NodeState Packet : Type} (S : Strategy σ NodeState Packet) [EventHeap] [LawfulEventHeap]

/-- The event in which a packet that is sent at this time arrives. -/
def arrival (params : PropagationMechanism σ) (time : Duration) (link : Nat × Packet) : Event Packet :=
  ⟨time + params.transmission_delay (S.packet_size params.strategy link.2),link.1,link.2⟩

/-- The bytes of the packets on these links. -/
def bytes (params : PropagationMechanism σ) (links : List (Nat × Packet)) : Nat :=
  (links.map (fun link => S.packet_size params.strategy link.2)).sum

/-- The accounts and the queue after a node sent packets along these links. -/
structure Posted (sender : Nat) (time : Duration) (links : List (Nat × Packet)) (sim sim' : Simulation σ NodeState Packet) :
    Prop where
  total : sim'.total_packets = sim.total_packets + links.length
  queue : sim'.event_queue.Perm (links.map (arrival S sim.mechanism time) ++ sim.event_queue)
  upload_length : sim'.upload.length = sim.upload.length
  upload_sum : sim'.upload.sum = sim.upload.sum + bytes S sim.mechanism links
  upload_at : ∀ v x, sim.upload[v]? = some x →
    sim'.upload[v]? = some (if v = sender then x + bytes S sim.mechanism links else x)
  download_length : sim'.download.length = sim.download.length
  download_sum : sim'.download.sum = sim.download.sum + bytes S sim.mechanism links

/-- What sending leaves alone. -/
structure Untouched (sim sim' : Simulation σ NodeState Packet) : Prop extends SameNodes sim sim' where
  has_forwarded : sim'.has_forwarded = sim.has_forwarded
  useful : sim'.useful_packets = sim.useful_packets
  redundant : sim'.redundant_packets = sim.redundant_packets

variable {S} {sim sim' sim'' : Simulation σ NodeState Packet} {event : Event Packet}

theorem Untouched.refl (sim : Simulation σ NodeState Packet) : Untouched sim sim := ⟨SameNodes.refl sim,rfl,rfl,rfl⟩

theorem Untouched.trans (first : Untouched sim sim') (second : Untouched sim' sim'') : Untouched sim sim'' :=
  ⟨first.toSameNodes.trans second.toSameNodes,second.has_forwarded.trans first.has_forwarded,
    second.useful.trans first.useful,second.redundant.trans first.redundant⟩

/-- Nothing is sent along no links. -/
theorem Posted.none (sender : Nat) (time : Duration) (sim : Simulation σ NodeState Packet) :
    Posted S sender time [] sim sim :=
  ⟨rfl,List.Perm.refl _,rfl,rfl,fun v x found => by simp [found,bytes],rfl,rfl⟩

/-- The accounts and the queue are the same. -/
structure SameAccounts (sim sim' : Simulation σ NodeState Packet) : Prop where
  mechanism : sim'.mechanism = sim.mechanism
  total_packets : sim'.total_packets = sim.total_packets
  event_queue : sim'.event_queue = sim.event_queue
  upload : sim'.upload = sim.upload
  download : sim'.download = sim.download

theorem Posted.congr {before before' after after' : Simulation σ NodeState Packet} {sender : Nat} {time : Duration}
    {links : List (Nat × Packet)} (posted : Posted S sender time links before after) (first : SameAccounts before before')
    (last : SameAccounts after after') : Posted S sender time links before' after' := by
  constructor
  · rw [last.total_packets,first.total_packets,posted.total]
  · rw [last.event_queue,first.event_queue,first.mechanism]
    exact posted.queue
  · rw [last.upload,first.upload,posted.upload_length]
  · rw [last.upload,first.upload,first.mechanism,posted.upload_sum]
  · rw [last.upload,first.upload,first.mechanism]
    exact posted.upload_at
  · rw [last.download,first.download,posted.download_length]
  · rw [last.download,first.download,first.mechanism,posted.download_sum]

/-- One packet more. -/
theorem Posted.snoc {sender : Nat} {time : Duration} {links : List (Nat × Packet)} {link : Nat × Packet}
    (posted : Posted S sender time links sim sim') (same : sim'.mechanism = sim.mechanism)
    (next : Posted S sender time [link] sim' sim'') : Posted S sender time (links ++ [link]) sim sim'' := by
  have all : bytes S sim.mechanism (links ++ [link]) = bytes S sim.mechanism links + bytes S sim.mechanism [link] := by
    simp [bytes]
  obtain ⟨total,queue,length,sum,entries,length',sum'⟩ := next
  rw [same] at queue sum entries sum'
  refine ⟨?_,?_,length.trans posted.upload_length,?_,?_,length'.trans posted.download_length,?_⟩
  · rw [total,posted.total,List.length_append,List.length_singleton,Nat.add_assoc]
  · rw [List.map_append,List.append_assoc]
    exact queue.trans ((posted.queue.append_left _).trans (List.perm_append_comm_assoc _ _ _))
  · rw [sum,posted.upload_sum,all,Nat.add_assoc]
  · intro v x found
    rw [entries v _ (posted.upload_at v x found),all]
    split
    · rw [Nat.add_assoc]
    · rfl
  · rw [sum',posted.download_sum,all,Nat.add_assoc]

theorem transmit_ok {sender : Nat} {time : Duration} {link : Nat × Packet} (ran : sim.transmit S sender time link = .ok sim') :
    Posted S sender time [link] sim sim' ∧ Untouched sim sim' := by
  obtain ⟨peer,packet⟩ := link
  simp only [Simulation.transmit,bind_ok] at ran
  obtain ⟨upload,up,download,down,ran⟩ := ran
  obtain rfl := Except.ok.inj ran
  obtain ⟨length,sum,entries⟩ := add_at_ok up
  obtain ⟨length',sum',_⟩ := add_at_ok down
  exact ⟨⟨rfl,LawfulEventHeap.push_perm _ _,length,sum,entries,length',sum'⟩,⟨⟨rfl,rfl,rfl,rfl⟩,rfl,rfl,rfl⟩⟩

theorem transmit_all_ok {sender : Nat} {time : Duration} {links : List (Nat × Packet)}
    (ran : links.foldlM (fun sim link => sim.transmit S sender time link) sim = .ok sim') :
    Posted S sender time links sim sim' ∧ Untouched sim sim' := by
  refine fold_kept (fun passed sent => Posted S sender time passed sim sent ∧ Untouched sim sent) ran
    ⟨Posted.none sender time sim,Untouched.refl sim⟩ ?_
  rintro before link after sent sent' _ ⟨posted,same⟩ step
  obtain ⟨next,same'⟩ := transmit_ok step
  exact ⟨posted.snoc same.mechanism next,same.trans same'⟩

/-- The links along which a node forwards: those to its peers, each with its packet. -/
def Forwards (S : Strategy σ NodeState Packet) (sim : Simulation σ NodeState Packet) (node : Nat) (state : NodeState)
    (links : List (Nat × Packet)) : Prop :=
  ∃ peers packets rest, sim.topo.neighbors[node]? = some peers ∧
    S.forward sim.mechanism.strategy state peers.length sim.rng = .ok (packets,rest) ∧ links = peers.zip packets

/-- What a node that takes a packet leaves behind: its new state and flags, the counters, and
    what it sends on. -/
structure Taken (S : Strategy σ NodeState Packet) (sim : Simulation σ NodeState Packet) (event : Event Packet)
    (state' : NodeState) (useful forwards : Bool) (links : List (Nat × Packet)) (sim' : Simulation σ NodeState Packet) :
    Prop where
  asked : sim.should_forward S event.to_node useful (S.can_decode sim.mechanism.strategy state') = .ok forwards
  sends : if forwards then Forwards S sim event.to_node state' links else links = []
  posted : Posted S event.to_node event.time links sim sim'
  mechanism : sim'.mechanism = sim.mechanism
  topo : sim'.topo = sim.topo
  states : sim'.states = sim.states.set event.to_node state'
  decode_times : sim'.decode_times = if S.can_decode sim.mechanism.strategy state' then
    sim.decode_times.set event.to_node (some event.time) else sim.decode_times
  has_forwarded : sim'.has_forwarded = if forwards then sim.has_forwarded.set event.to_node true else sim.has_forwarded
  useful_packets : sim'.useful_packets = sim.useful_packets + useful.toNat
  redundant_packets : sim'.redundant_packets = sim.redundant_packets + (!useful).toNat

/-- What an event can do. -/
inductive Handled (S : Strategy σ NodeState Packet) (sim : Simulation σ NodeState Packet) (event : Event Packet)
    (sim' : Simulation σ NodeState Packet) : Prop
  | skipped (time : Duration) (known : sim.decode_times[event.to_node]? = some (some time)) (same : sim' = sim)
  | refused (state state' : NodeState) (e : String) (waits : sim.decode_times[event.to_node]? = some none)
      (found : sim.states[event.to_node]? = some state)
      (received : S.receive sim.mechanism.strategy state event.packet = .ok (state',.error e))
      (changed : sim' = { sim with
        states := sim.states.set event.to_node state', redundant_packets := sim.redundant_packets + 1 })
  | taken (state state' : NodeState) (useful forwards : Bool) (links : List (Nat × Packet))
      (waits : sim.decode_times[event.to_node]? = some none) (found : sim.states[event.to_node]? = some state)
      (received : S.receive sim.mechanism.strategy state event.packet = .ok (state',.ok useful))
      (changes : Taken S sim event state' useful forwards links sim')

theorem forward_if_ok {forwards : Bool} {node : Nat} {state : NodeState} {time : Duration}
    (ran : sim.forward_if S forwards node state time = .ok sim') :
    ∃ links, (if forwards then Forwards S sim node state links else links = []) ∧ Posted S node time links sim sim' ∧
      SameNodes sim sim' ∧ sim'.useful_packets = sim.useful_packets ∧ sim'.redundant_packets = sim.redundant_packets ∧
      sim'.has_forwarded = if forwards then sim.has_forwarded.set node true else sim.has_forwarded := by
  cases forwards with
  | false =>
    obtain rfl : sim = sim' := Except.ok.inj ran
    exact ⟨[],rfl,Posted.none node time sim,SameNodes.refl sim,rfl,rfl,rfl⟩
  | true =>
    simp only [Simulation.forward_if,if_true,Simulation.forward,bind_ok,index_eq_ok,set_at_eq_ok] at ran
    obtain ⟨flags,⟨_,rfl⟩,peers,listed,⟨packets,rest⟩,made,ran⟩ := ran
    obtain ⟨posted,same⟩ := transmit_all_ok ran
    exact ⟨peers.zip packets,⟨peers,packets,rest,listed,made,rfl⟩,
      posted.congr ⟨rfl,rfl,rfl,rfl,rfl⟩ ⟨rfl,rfl,rfl,rfl,rfl⟩,⟨same.mechanism,same.topo,same.states,same.decode_times⟩,same.useful,same.redundant,
      same.has_forwarded⟩

theorem count_packet_eq (sim : Simulation σ NodeState Packet) (useful : Bool) :
    sim.count_packet useful = { sim with
      useful_packets := sim.useful_packets + useful.toNat, redundant_packets := sim.redundant_packets + (!useful).toNat } := by
  cases useful <;> rfl

/-- An event that returns was skipped, refused or taken. -/
theorem process_ok (ran : sim.process S event = .ok sim') : Handled S sim event sim' := by
  simp only [Simulation.process,bind_ok,index_eq_ok] at ran
  obtain ⟨decode_time,timed,ran⟩ := ran
  cases decode_time with
  | some time =>
    obtain rfl : sim = sim' := Except.ok.inj ran
    exact .skipped time timed rfl
  | none =>
    simp only [Option.isSome_none,Bool.false_eq_true,if_false,bind_ok,index_eq_ok,set_at_eq_ok] at ran
    obtain ⟨state,found,⟨state',received⟩,took,states,⟨inside,rfl⟩,ran⟩ := ran
    cases received with
    | error e =>
      obtain rfl := Except.ok.inj ran
      exact .refused state state' e timed found took rfl
    | ok useful =>
      simp only [bind_ok] at ran
      obtain ⟨forwards,asked,sent,sent_on,ran⟩ := ran
      rw [count_packet_eq] at asked sent_on
      obtain ⟨links,sends,posted,same,useful_packets,redundant_packets,flags⟩ := forward_if_ok sent_on
      refine .taken state state' useful forwards links timed found took ?_
      rw [count_packet_eq] at ran
      by_cases complete : S.can_decode sim.mechanism.strategy state' = true
      · simp only [complete,if_true,bind_ok,set_at_eq_ok] at ran
        obtain ⟨times,⟨_,rfl⟩,ran⟩ := ran
        obtain rfl := Except.ok.inj ran
        exact ⟨asked,sends,posted.congr ⟨rfl,rfl,rfl,rfl,rfl⟩ ⟨rfl,rfl,rfl,rfl,rfl⟩,same.mechanism,same.topo,same.states,
          by rw [if_pos complete,same.decode_times],flags,useful_packets,redundant_packets⟩
      · simp only [complete,Bool.false_eq_true,if_false] at ran
        obtain rfl := Except.ok.inj ran
        exact ⟨asked,sends,posted.congr ⟨rfl,rfl,rfl,rfl,rfl⟩ ⟨rfl,rfl,rfl,rfl,rfl⟩,same.mechanism,same.topo,same.states,by rw [if_neg complete,same.decode_times],flags,
          useful_packets,redundant_packets⟩

/-! ### Runs -/

/-- What every event keeps holds after any number of events. -/
theorem process_events_kept (Inv : Simulation σ NodeState Packet → Prop)
    (step : ∀ (sim : Simulation σ NodeState Packet) event rest sim', Inv sim →
      EventHeap.pop sim.event_queue = some (event,rest) → Handled S { sim with event_queue := rest } event sim' → Inv sim')
    {count : Nat} (start : Inv sim) (ran : sim.process_events S count = .ok sim') : Inv sim' := by
  induction count generalizing sim with
  | zero =>
    obtain rfl : sim = sim' := Except.ok.inj ran
    exact start
  | succ count ih =>
    cases popped : EventHeap.pop sim.event_queue with
    | none =>
      simp only [Simulation.process_events,popped] at ran
      obtain rfl : sim = sim' := Except.ok.inj ran
      exact start
    | some next =>
      obtain ⟨event,rest⟩ := next
      simp only [Simulation.process_events,popped,bind_ok] at ran
      obtain ⟨after,processed,ran⟩ := ran
      exact ih (step sim event rest after start popped (process_ok processed)) ran

/-- The simulation of these nodes before anything is sent. -/
def initial (params : PropagationMechanism σ) (topo : Topology) (states : List NodeState) (rng : Rng) :
    Simulation σ NodeState Packet where
  mechanism := params
  topo := topo
  states := states
  upload := List.replicate params.num_nodes 0
  download := List.replicate params.num_nodes 0
  decode_times := (List.replicate params.num_nodes none).set 0 (some 0)
  has_forwarded := List.replicate params.num_nodes false
  total_packets := 0
  useful_packets := 0
  redundant_packets := 0
  event_queue := []
  rng := rng

/-- What a run starts with: a mesh, a proposer and its packets, which are sent to the peers of node 0. -/
structure Started [SliceRandom] (S : Strategy σ NodeState Packet) (mechanism : PropagationMechanism σ) (block : Block)
    (rng : Rng) (sim : Simulation σ NodeState Packet) (byte_len : Nat) (peers : List Nat) (packets : List Packet) : Prop where
  some_node : 0 < mechanism.num_nodes
  mesh : ∃ rest, Topology.random_mesh mechanism.num_nodes mechanism.mesh_degree rng = .ok (sim.topo,rest)
  listed : sim.topo.neighbors[0]? = some peers
  proposed : ∃ before proposer after, S.init_proposer mechanism.strategy block peers.length before =
    .ok ((sim.mechanism.strategy,proposer,packets,byte_len),after) ∧ sim.states[0]? = some proposer
  params : sim.mechanism = { mechanism with strategy := sim.mechanism.strategy }
  nodes : sim.states.length = mechanism.num_nodes
  receivers : ∀ v state, 0 < v → sim.states[v]? = some state → S.init_receiver sim.mechanism.strategy = .ok state
  begun : ∃ states before, Posted S 0 0 (peers.zip packets) (initial sim.mechanism sim.topo states before) sim ∧
    Untouched (initial sim.mechanism sim.topo states before) sim

theorem start_ok [SliceRandom] {mechanism : PropagationMechanism σ} {block : Block} {rng : Rng} {byte_len : Nat}
    (ran : Simulation.start S mechanism block rng = .ok (sim,byte_len)) :
    ∃ peers packets, Started S mechanism block rng sim byte_len peers packets := by
  simp only [Simulation.start,bind_ok,require_eq_ok,index_eq_ok,set_at_eq_ok] at ran
  obtain ⟨_,some_node,⟨topo,rest⟩,mesh,peers,listed,⟨⟨strategy,proposer,packets,len⟩,rest'⟩,proposed,receivers,made,times,
    ⟨_,rfl⟩,sent,sent_on,ran⟩ := ran
  obtain ⟨rfl,rfl⟩ := ok_pair ran
  obtain ⟨posted,same⟩ := transmit_all_ok sent_on
  have made' := mapM_ok made
  have params : sent.mechanism = { mechanism with strategy := strategy } := same.mechanism
  have placed : sent.topo = topo := same.topo
  have nodes : sent.states = proposer :: receivers := same.states
  have count : receivers.length = mechanism.num_nodes - 1 := by rw [← made'.length_eq,List.length_replicate]
  refine ⟨peers,packets,some_node,⟨rest,placed ▸ mesh⟩,placed ▸ listed,⟨rest,proposer,rest',?_,by rw [nodes]; rfl⟩,?_,?_,?_,?_⟩
  · rw [params]
    exact proposed
  · rw [params]
  · rw [nodes,List.length_cons,count]
    omega
  · intro v state above found
    rw [nodes] at found
    obtain ⟨u,rfl⟩ : ∃ u, v = u + 1 := ⟨v - 1,by omega⟩
    obtain ⟨x,_,ran⟩ := mapM_each made state (List.mem_of_getElem? (List.getElem?_cons_succ ▸ found))
    rw [params]
    exact ran
  · refine ⟨proposer :: receivers,rest',?_⟩
    rw [params,placed]
    exact ⟨posted,same⟩

end

end Rlnc.Events
