import Rlnc.Events

/-!
When the loop of the simulation ends. An event returns if its node can take the packet
and send on what it then has to (`process_runs`). Each event takes one packet off the
queue, so that a bound on the packets that are ever sent bounds the number of events
(`process_events_ends`).
-/
namespace Rlnc.Progress
open Rlnc.Panics Rlnc.Draws Rlnc.Blocks Rlnc.Protocols Rlnc.Strategies Rlnc.Topology Rlnc.Engine Rlnc.Events
set_option linter.unusedSectionVars false

section
variable {σ NodeState Packet : Type} {S : Strategy σ NodeState Packet} [EventHeap] [LawfulEventHeap] {n : Nat}
  {Genuine : Packet → Prop} {sim sim' : Simulation σ NodeState Packet} {event : Event Packet}

/-- A node that has something to send on sends it. -/
theorem forward_if_runs (flow : Flow n Genuine sim) {forwards : Bool} {node : Nat} (inside : node < n) {state : NodeState}
    (time : Duration) (makes : forwards = true → ∀ count rng, ∃ packets rest,
      S.forward sim.mechanism.strategy state count rng = .ok (packets,rest) ∧ ∀ p ∈ packets, Genuine p) :
    ∃ sim', sim.forward_if S forwards node state time = .ok sim' ∧ Flow n Genuine sim' ∧ SameNodes sim sim' := by
  cases forwards with
  | false => exact ⟨sim,rfl,flow,SameNodes.refl sim⟩
  | true =>
    have flagged := set_at_of (show node < sim.has_forwarded.length by rw [flow.forwarded]; exact inside) true
    have small : node < sim.topo.neighbors.length := by rw [flow.neighbors]; exact inside
    have listed : index sim.topo.neighbors node = .ok sim.topo.neighbors[node] := index_of (List.getElem?_eq_getElem small)
    obtain ⟨packets,rest,made,genuine⟩ := makes rfl sim.topo.neighbors[node].length sim.rng
    have begun : Flow n Genuine { sim with has_forwarded := sim.has_forwarded.set node true, rng := rest } :=
      flow.congr rfl rfl rfl List.length_set fun _ member => member
    obtain ⟨sim',ran,flow',same⟩ := begun.transmit_all (S := S) inside time (sim.topo.neighbors[node].zip packets)
      (zip_links (flow.below _ (List.getElem_mem small)) genuine)
    exact ⟨sim',by simp only [Simulation.forward_if,if_true,Simulation.forward,flagged,ok_bind,listed,made,ran],flow',
      ⟨same.mechanism,same.topo,same.states,same.decode_times⟩⟩

/-- An event returns if its node can take the packet, and send on what it then has to. -/
theorem process_runs (flow : Flow n Genuine sim) (states : sim.states.length = n) (times : sim.decode_times.length = n)
    (target : event.to_node < n)
    (takes : ∀ state, sim.decode_times[event.to_node]? = some none → sim.states[event.to_node]? = some state →
      ∃ state' received, S.receive sim.mechanism.strategy state event.packet = .ok (state',received) ∧
        ∀ useful, received = .ok useful →
          sim.should_forward S event.to_node useful (S.can_decode sim.mechanism.strategy state') = .ok true →
          ∀ count rng, ∃ packets rest, S.forward sim.mechanism.strategy state' count rng = .ok (packets,rest) ∧
            ∀ p ∈ packets, Genuine p) :
    ∃ sim', sim.process S event = .ok sim' ∧ Flow n Genuine sim' := by
  have small : event.to_node < sim.decode_times.length := by rw [times]; exact target
  have held : event.to_node < sim.states.length := by rw [states]; exact target
  have timed := List.getElem?_eq_getElem small
  cases known : sim.decode_times[event.to_node] with
  | some t =>
    rw [known] at timed
    refine ⟨sim,?_,flow⟩
    simp only [Simulation.process,index_of timed,ok_bind,Option.isSome_some,if_true,pure_eq]
  | none =>
    rw [known] at timed
    have found := List.getElem?_eq_getElem held
    obtain ⟨state',received,took,sends⟩ := takes _ timed found
    have placed := set_at_of held state'
    cases received with
    | error e =>
      refine ⟨{ sim with
        states := sim.states.set event.to_node state', redundant_packets := sim.redundant_packets + 1 },?_,?_⟩
      · simp only [Simulation.process,index_of timed,ok_bind,Option.isSome_none,Bool.false_eq_true,if_false,index_of found,
          took,placed,pure_eq]
      · exact flow.congr rfl rfl rfl rfl fun _ member => member
    | ok useful =>
      obtain ⟨counted,named⟩ : ∃ counted, counted =
        ({ sim with states := sim.states.set event.to_node state' } : Simulation _ _ _).count_packet useful := ⟨_,rfl⟩
      have flow' : Flow n Genuine counted := by
        rw [named,count_packet_eq]
        exact flow.congr rfl rfl rfl rfl fun _ member => member
      have mechanism : counted.mechanism = sim.mechanism := by rw [named,count_packet_eq]
      have flags : counted.has_forwarded = sim.has_forwarded := by rw [named,count_packet_eq]
      have times' : counted.decode_times = sim.decode_times := by rw [named,count_packet_eq]
      obtain ⟨forwards,asked,_⟩ := should_forward_spec (S := S) (show event.to_node < counted.has_forwarded.length by
        rw [flow'.forwarded]; exact target) useful (S.can_decode sim.mechanism.strategy state')
      have asked' : sim.should_forward S event.to_node useful (S.can_decode sim.mechanism.strategy state') = .ok forwards := by
        simp only [Simulation.should_forward,mechanism,flags] at asked ⊢
        exact asked
      obtain ⟨sent,sent_on,flow'',same⟩ := forward_if_runs (S := S) flow' target event.time (fun yes => by
        rw [mechanism]
        exact sends useful rfl (yes ▸ asked'))
      have noted := set_at_of (show event.to_node < sent.decode_times.length by
        rw [same.decode_times,times']; exact small) (some event.time)
      cases complete : S.can_decode sim.mechanism.strategy state' with
      | false =>
        rw [complete] at asked
        refine ⟨sent,?_,flow''⟩
        simp only [Simulation.process,index_of timed,ok_bind,Option.isSome_none,Bool.false_eq_true,if_false,index_of found,
          took,placed,← named,mechanism,complete,asked,sent_on,pure_eq]
      | true =>
        rw [complete] at asked
        refine ⟨{ sent with decode_times := sent.decode_times.set event.to_node (some event.time) },?_,?_⟩
        · simp only [Simulation.process,index_of timed,ok_bind,Option.isSome_none,Bool.false_eq_true,if_false,index_of found,
            took,placed,← named,mechanism,complete,asked,sent_on,if_true,noted,pure_eq]
        · exact flow''.congr rfl rfl rfl rfl fun _ member => member

/-- The packets that are not queued any more. -/
def spent (sim : Simulation σ NodeState Packet) : Nat := sim.total_packets - sim.event_queue.length

/-- Each event spends one packet. -/
theorem spent_handled {rest : List (Event Packet)} (queued : sim.event_queue.length ≤ sim.total_packets)
    (popped : EventHeap.pop sim.event_queue = some (event,rest))
    (handled : Handled S { sim with event_queue := rest } event sim') :
    sim'.event_queue.length ≤ sim'.total_packets ∧ spent sim' = spent sim + 1 := by
  have shorter : rest.length + 1 = sim.event_queue.length := (LawfulEventHeap.pop_perm popped).length_eq
  cases handled with
  | skipped time known same =>
    subst same
    simp only [spent]
    omega
  | refused state state' e waits found received changed =>
    subst changed
    simp only [spent]
    omega
  | taken state state' useful forwards links waits found received changes =>
    have total : sim'.total_packets = sim.total_packets + links.length := changes.posted.total
    have longer := changes.posted.queue.length_eq
    simp only [List.length_append,List.length_map] at longer
    simp only [spent]
    omega

/-- What events keep while they return holds after any number of them, and these return. -/
theorem process_events_runs (Inv : Simulation σ NodeState Packet → Prop)
    (step : ∀ sim event rest, Inv sim → EventHeap.pop sim.event_queue = some (event,rest) →
      ∃ sim', Simulation.process S { sim with event_queue := rest } event = .ok sim' ∧ Inv sim')
    (count : Nat) (start : Inv sim) : ∃ sim', sim.process_events S count = .ok sim' ∧ Inv sim' := by
  induction count generalizing sim with
  | zero => exact ⟨sim,rfl,start⟩
  | succ count ih =>
    cases popped : EventHeap.pop sim.event_queue with
    | none => exact ⟨sim,by simp only [Simulation.process_events,popped],start⟩
    | some next =>
      obtain ⟨event,rest⟩ := next
      obtain ⟨after,processed,kept⟩ := step sim event rest start popped
      obtain ⟨sim',ran,kept'⟩ := ih kept
      exact ⟨sim',by simp only [Simulation.process_events,popped,processed,ok_bind,ran],kept'⟩

/-- As long as packets are queued, every event spends one. -/
theorem process_events_spent {count : Nat} (queued : sim.event_queue.length ≤ sim.total_packets)
    (ran : sim.process_events S count = .ok sim') : sim'.event_queue = [] ∨ spent sim' = spent sim + count := by
  induction count generalizing sim with
  | zero =>
    obtain rfl : sim = sim' := Except.ok.inj ran
    exact .inr rfl
  | succ count ih =>
    cases popped : EventHeap.pop sim.event_queue with
    | none =>
      simp only [Simulation.process_events,popped] at ran
      obtain rfl : sim = sim' := Except.ok.inj ran
      exact .inl ((LawfulEventHeap.pop_none _).mp popped)
    | some next =>
      obtain ⟨event,rest⟩ := next
      simp only [Simulation.process_events,popped,bind_ok] at ran
      obtain ⟨after,processed,ran⟩ := ran
      obtain ⟨queued',one_more⟩ := spent_handled queued popped (process_ok processed)
      rcases ih queued' ran with empty | more
      · exact .inl empty
      · exact .inr (by omega)

/-- If no more than `bound` packets are ever sent, the queue is empty after more events than that. -/
theorem process_events_ends (Inv : Simulation σ NodeState Packet → Prop) (bound : Nat)
    (step : ∀ sim event rest, Inv sim → EventHeap.pop sim.event_queue = some (event,rest) →
      ∃ sim', Simulation.process S { sim with event_queue := rest } event = .ok sim' ∧ Inv sim')
    (bounded : ∀ sim, Inv sim → sim.total_packets ≤ bound) (count : Nat) (start : Inv sim)
    (queued : sim.event_queue.length ≤ sim.total_packets) :
    ∃ sim', sim.process_events S count = .ok sim' ∧ Inv sim' ∧ (bound < count → sim'.event_queue = []) := by
  obtain ⟨sim',ran,kept⟩ := process_events_runs Inv step count start
  refine ⟨sim',ran,kept,fun enough => ?_⟩
  rcases process_events_spent queued ran with empty | all
  · exact empty
  · have few : spent sim' ≤ bound := (Nat.sub_le _ _).trans (bounded sim' kept)
    omega

/-- An event that is taken off the queue carries a genuine packet to a node. -/
theorem flow_popped (flow : Flow n Genuine sim) {rest : List (Event Packet)}
    (popped : EventHeap.pop sim.event_queue = some (event,rest)) :
    event.to_node < n ∧ Genuine event.packet ∧ Flow n Genuine { sim with event_queue := rest } := by
  have queued := LawfulEventHeap.pop_perm popped
  have first : event ∈ sim.event_queue := queued.mem_iff.mp List.mem_cons_self
  exact ⟨flow.targets event first,flow.genuine event first,
    flow.congr rfl rfl rfl rfl fun e member => queued.mem_iff.mp (List.mem_cons_of_mem event member)⟩

/-- Only one entry is set. -/
theorem one_decoded {times : List (Option Duration)} {t : Duration} (first : times[0]? = some (some t))
    (others : ∀ v, 0 < v → v < times.length → times[v]? = some none) : (times.filterMap id).length = 1 := by
  cases times with
  | nil => cases first
  | cons time rest =>
    obtain rfl : time = some t := Option.some.inj first
    have empty : rest.filterMap id = [] := by
      refine List.filterMap_eq_nil_iff.mpr fun x member => ?_
      obtain ⟨u,found⟩ := List.mem_iff_getElem?.mp member
      have none_there := others (u + 1) (by omega) (by
        rw [List.length_cons]
        exact Nat.succ_lt_succ (List.getElem?_eq_some_iff.mp found).1)
      rw [List.getElem?_cons_succ,found] at none_there
      exact Option.some.inj none_there
    rw [List.filterMap_cons,empty]
    rfl

/-- The simulation starts on a mesh if the proposer and the receivers do. -/
theorem start_runs [SliceRandom] [LawfulSliceRandom] {mechanism : PropagationMechanism σ} (block : Block) {rng rest : Rng}
    {topo : Topology} (mesh : Topology.random_mesh mechanism.num_nodes mechanism.mesh_degree rng = .ok (topo,rest))
    (begins : ∀ count rng, ∃ self' proposer packets byte_len rest fresh,
      S.init_proposer mechanism.strategy block count rng = .ok ((self',proposer,packets,byte_len),rest) ∧
      S.init_receiver self' = .ok fresh) :
    ∃ sim byte_len, Simulation.start S mechanism block rng = .ok (sim,byte_len) ∧ sim.topo = topo := by
  obtain ⟨some_node,count,below⟩ := Topology.random_mesh_peers mesh
  have first : 0 < topo.neighbors.length := by rw [count]; exact some_node
  have listed : index topo.neighbors 0 = .ok topo.neighbors[0] := index_of (List.getElem?_eq_getElem first)
  obtain ⟨self',proposer,packets,byte_len,rest',fresh,init,receiver⟩ := begins topo.neighbors[0].length rest
  have receivers := mapM_replicate (f := fun _ => S.init_receiver self') (x := ()) receiver (mechanism.num_nodes - 1)
  have noted := set_at_of (show 0 < (List.replicate mechanism.num_nodes (none : Option Duration)).length by simpa) (some 0)
  have flow : Flow mechanism.num_nodes (fun _ : Packet => True) (initial { mechanism with strategy := self' } topo
      (proposer :: List.replicate (mechanism.num_nodes - 1) fresh) rest') :=
    ⟨count,below,by simp [initial],by simp [initial],by simp [initial],by simp [initial],by simp [initial]⟩
  obtain ⟨sim,ran,_,same⟩ := flow.transmit_all (S := S) some_node 0 (topo.neighbors[0].zip packets)
    (zip_links (below _ (List.getElem_mem first)) fun _ _ => trivial)
  refine ⟨sim,byte_len,?_,same.topo⟩
  simp only [initial] at ran
  simp only [Simulation.start,require_of (show mechanism.num_nodes > 0 from some_node),ok_bind,mesh,listed,init,receivers,
    noted,ran,pure_eq]

/-- A run starts with the packets of the proposer on their way. -/
theorem started_flow [SliceRandom] [LawfulSliceRandom] {mechanism : PropagationMechanism σ} {block : Block} {rng : Rng}
    {byte_len : Nat} {peers : List Nat} {packets : List Packet}
    (started : Started S mechanism block rng sim byte_len peers packets) (genuine : ∀ p ∈ packets, Genuine p) :
    Flow mechanism.num_nodes Genuine sim := by
  obtain ⟨rest,mesh⟩ := started.mesh
  obtain ⟨_,count,below⟩ := Topology.random_mesh_peers mesh
  obtain ⟨states,before,posted,same⟩ := started.begun
  have params : sim.mechanism.num_nodes = mechanism.num_nodes := by rw [started.params]
  have links := zip_links (below _ (List.mem_of_getElem? started.listed)) genuine
  have queued : ∀ event ∈ sim.event_queue, ∃ link ∈ peers.zip packets, arrival S sim.mechanism 0 link = event := by
    intro event member
    have listed := posted.queue.mem_iff.mp member
    simp only [initial,List.append_nil] at listed
    exact List.mem_map.mp listed
  refine ⟨count,below,?_,?_,?_,?_,?_⟩
  · rw [posted.upload_length,initial,List.length_replicate,params]
  · rw [posted.download_length,initial,List.length_replicate,params]
  · rw [same.has_forwarded,initial,List.length_replicate,params]
  · intro event member
    obtain ⟨link,listed,rfl⟩ := queued event member
    exact (links link listed).1
  · intro event member
    obtain ⟨link,listed,rfl⟩ := queued event member
    exact (links link listed).2

/-- Before the loop only the proposer has decoded. -/
theorem started_times [SliceRandom] {mechanism : PropagationMechanism σ} {block : Block} {rng : Rng} {byte_len : Nat}
    {peers : List Nat} {packets : List Packet} (started : Started S mechanism block rng sim byte_len peers packets) :
    sim.decode_times.length = mechanism.num_nodes ∧ sim.decode_times[0]? = some (some 0) ∧
      ∀ v < mechanism.num_nodes, 0 < v → sim.decode_times[v]? = some none := by
  obtain ⟨states,before,_,same⟩ := started.begun
  have params : sim.mechanism.num_nodes = mechanism.num_nodes := by rw [started.params]
  rw [same.decode_times,initial,params]
  refine ⟨by simp,List.getElem?_set_self (by simpa using started.some_node),fun v inside above => ?_⟩
  rw [List.getElem?_set_ne (by omega)]
  simp [inside]

/-- What a run queues at its start is what it has sent. -/
theorem started_queued [SliceRandom] {mechanism : PropagationMechanism σ} {block : Block} {rng : Rng} {byte_len : Nat}
    {peers : List Nat} {packets : List Packet} (started : Started S mechanism block rng sim byte_len peers packets) :
    sim.total_packets = (peers.zip packets).length ∧ sim.event_queue.length = sim.total_packets := by
  obtain ⟨states,before,posted,_⟩ := started.begun
  have queued := posted.queue.length_eq
  have total := posted.total
  simp only [initial,List.append_nil,List.length_map] at queued
  simp only [initial,Nat.zero_add] at total
  exact ⟨total,queued.trans total.symm⟩

end

end Rlnc.Progress
