import Rlnc.Progress

/-!
What the nodes of the simulation hold. `Consistent` is the invariant of the loop: with
a faithful strategy every queued packet is genuine and every node that counts as
decoded holds the block.
-/
namespace Rlnc.Consistency
open Rlnc.Panics Rlnc.Draws Rlnc.Blocks Rlnc.Protocols Rlnc.Strategies Rlnc.Topology Rlnc.Engine Rlnc.Events Rlnc.Progress
set_option linter.unusedSectionVars false

section
variable {σ NodeState Packet : Type} {S : Strategy σ NodeState Packet} [EventHeap] [LawfulEventHeap] {n : Nat}
  {Genuine : Packet → Prop} {sim : Simulation σ NodeState Packet}

variable {block : Block} {byte_len : Nat} {Good Ready : NodeState → Prop}

/-- A node that counts as decoded holds the block; the others are good, and cannot decode yet. -/
structure Nodes (S : Strategy σ NodeState Packet) (n : Nat) (block : Block) (byte_len : Nat) (Good : NodeState → Prop)
    (sim : Simulation σ NodeState Packet) : Prop where
  states : sim.states.length = n
  decode_times : sim.decode_times.length = n
  waiting : ∀ (v : Nat) (state : NodeState), sim.decode_times[v]? = some none → sim.states[v]? = some state →
    Good state ∧ S.can_decode sim.mechanism.strategy state = false
  decoded : ∀ (v : Nat) (time : Duration) (state : NodeState), sim.decode_times[v]? = some (some time) → sim.states[v]? = some state →
    S.decode sim.mechanism.strategy state byte_len = .ok block

theorem Nodes.same {sim' : Simulation σ NodeState Packet} (nodes : Nodes S n block byte_len Good sim)
    (same : SameNodes sim sim') : Nodes S n block byte_len Good sim' := by
  obtain ⟨states,decode_times,waiting,decoded⟩ := nodes
  obtain ⟨mechanism,topo,states',decode_times'⟩ := same
  constructor
  · rw [states',states]
  · rw [decode_times',decode_times]
  · rw [states',decode_times',mechanism]
    exact waiting
  · rw [states',decode_times',mechanism]
    exact decoded

/-- The invariant of the loop. -/
structure Consistent (S : Strategy σ NodeState Packet) (n : Nat) (block : Block) (byte_len : Nat)
    (Good Ready : NodeState → Prop) (Genuine : Packet → Prop) (sim : Simulation σ NodeState Packet) : Prop where
  faithful : Faithful S sim.mechanism.strategy block byte_len Good Ready Genuine
  flow : Flow n Genuine sim
  nodes : Nodes S n block byte_len Good sim

/-- A node that has not decoded never refuses a genuine packet. -/
theorem Consistent.receives (consistent : Consistent S n block byte_len Good Ready Genuine sim) {event : Event Packet}
    (genuine : Genuine event.packet) (waits : sim.decode_times[event.to_node]? = some none) :
    ∃ state, sim.states[event.to_node]? = some state ∧ Good state ∧ ∃ state' useful,
      S.receive sim.mechanism.strategy state event.packet = .ok (state',.ok useful) ∧ Good state' ∧
      (useful = true → Ready state') ∧ (S.can_decode sim.mechanism.strategy state' = true → Ready state') := by
  obtain ⟨inside,_⟩ := List.getElem?_eq_some_iff.mp waits
  rw [consistent.nodes.decode_times,← consistent.nodes.states] at inside
  have found : sim.states[event.to_node]? = some sim.states[event.to_node] := List.getElem?_eq_getElem inside
  obtain ⟨good,incomplete⟩ := consistent.nodes.waiting _ _ waits found
  obtain ⟨state',useful,ran,rest⟩ := consistent.faithful.receive _ _ good incomplete genuine
  exact ⟨_,found,good,state',useful,ran,rest⟩

/-- A node that takes a genuine packet keeps waiting, or decodes. -/
theorem Nodes.update (nodes : Nodes S n block byte_len Good sim) {node : Nat} {state : NodeState}
    {sim' : Simulation σ NodeState Packet} (mechanism : sim'.mechanism = sim.mechanism)
    (states : sim'.states = sim.states.set node state) (good : Good state) (time : Duration)
    (decode_times : sim'.decode_times =
      if S.can_decode sim.mechanism.strategy state then sim.decode_times.set node (some time) else sim.decode_times)
    (waits : sim.decode_times[node]? = some none)
    (decodes : S.can_decode sim.mechanism.strategy state = true → S.decode sim.mechanism.strategy state byte_len = .ok block) :
    Nodes S n block byte_len Good sim' := by
  obtain ⟨inside,_⟩ := List.getElem?_eq_some_iff.mp waits
  have inside' : node < sim.states.length := by
    rw [nodes.decode_times] at inside
    rw [nodes.states]
    exact inside
  have other : ∀ v, v ≠ node → sim'.decode_times[v]? = sim.decode_times[v]? ∧ sim'.states[v]? = sim.states[v]? := by
    intro v apart
    rw [decode_times,states]
    constructor
    · split
      · exact List.getElem?_set_ne (Ne.symm apart)
      · rfl
    · exact List.getElem?_set_ne (Ne.symm apart)
  have here : sim'.states[node]? = some state := by rw [states,List.getElem?_set_self inside']
  constructor
  · rw [states,List.length_set,nodes.states]
  · rw [decode_times]
    split
    · rw [List.length_set,nodes.decode_times]
    · exact nodes.decode_times
  · intro v s unset found
    rw [mechanism]
    by_cases same : v = node
    · subst same
      obtain rfl : state = s := Option.some.inj (here.symm.trans found)
      refine ⟨good,?_⟩
      by_contra complete
      rw [decode_times,if_pos (by simpa using complete),List.getElem?_set_self inside] at unset
      cases unset
    · obtain ⟨times,old⟩ := other v same
      exact nodes.waiting v s (times ▸ unset) (old ▸ found)
  · intro v t s set found
    rw [mechanism]
    by_cases same : v = node
    · subst same
      obtain rfl : state = s := Option.some.inj (here.symm.trans found)
      apply decodes
      by_contra incomplete
      rw [decode_times,if_neg (by simpa using incomplete),waits] at set
      cases set
    · obtain ⟨times,old⟩ := other v same
      exact nodes.decoded v t s (times ▸ set) (old ▸ found)

/-- One event keeps the invariant. -/
theorem Consistent.process (consistent : Consistent S n block byte_len Good Ready Genuine sim) {event : Event Packet}
    {rest : List (Event Packet)} (popped : EventHeap.pop sim.event_queue = some (event,rest)) :
    ∃ sim', Simulation.process S { sim with event_queue := rest } event = .ok sim' ∧
      Consistent S n block byte_len Good Ready Genuine sim' := by
  obtain ⟨target,genuine,flow⟩ := flow_popped consistent.flow popped
  have nodes := consistent.nodes
  have faithful := consistent.faithful
  have receives : ∀ state, sim.decode_times[event.to_node]? = some none → sim.states[event.to_node]? = some state →
      ∃ state' useful, S.receive sim.mechanism.strategy state event.packet = .ok (state',.ok useful) ∧ Good state' ∧
        (useful = true → Ready state') ∧ (S.can_decode sim.mechanism.strategy state' = true → Ready state') := by
    intro state waits found
    obtain ⟨_,found',_,rest⟩ := consistent.receives genuine waits
    obtain rfl := Option.some.inj (found.symm.trans found')
    exact rest
  obtain ⟨sim',ran,flow'⟩ := process_runs flow nodes.states nodes.decode_times target (by
    intro state waits found
    obtain ⟨state',useful,received,good,ready,ready'⟩ := receives state waits found
    refine ⟨state',.ok useful,received,fun useful' same asked count rng => ?_⟩
    obtain rfl := Except.ok.inj same
    have tracked : event.to_node < ({ sim with event_queue := rest } : Simulation σ NodeState Packet).has_forwarded.length := by
      show event.to_node < sim.has_forwarded.length
      rw [consistent.flow.forwarded]
      exact target
    obtain ⟨forwards,decided,only⟩ := should_forward_spec (S := S) tracked useful
      (S.can_decode sim.mechanism.strategy state')
    obtain rfl := Except.ok.inj (asked.symm.trans decided)
    exact faithful.forward state' good ((only rfl).elim ready ready') count rng)
  refine ⟨sim',ran,?_⟩
  cases process_ok ran with
  | skipped time known same =>
    rw [same]
    exact ⟨faithful,flow,⟨nodes.states,nodes.decode_times,nodes.waiting,nodes.decoded⟩⟩
  | refused state state' e waits found received changed =>
    obtain ⟨_,_,accepted,_⟩ := receives state waits found
    cases (ok_pair (received.symm.trans accepted)).2
  | taken state state' useful forwards links waits found received changes =>
    obtain ⟨_,_,accepted,good,_⟩ := receives state waits found
    obtain ⟨rfl,_⟩ := ok_pair (received.symm.trans accepted)
    have mechanism : sim'.mechanism = sim.mechanism := changes.mechanism
    refine ⟨by rw [mechanism]; exact faithful,flow',?_⟩
    exact nodes.update mechanism changes.states good event.time changes.decode_times waits (faithful.decode _ good)

/-- A run on a mesh starts with the invariant. -/
theorem start_consistent [SliceRandom] [LawfulSliceRandom] {mechanism : PropagationMechanism σ}
    (starts : Starts S mechanism.strategy block) {rng rest : Rng} {topo : Topology}
    (mesh : Topology.random_mesh mechanism.num_nodes mechanism.mesh_degree rng = .ok (topo,rest)) :
    ∃ sim byte_len, Simulation.start S mechanism block rng = .ok (sim,byte_len) ∧ sim.topo = topo ∧
      ∃ (Good Ready : NodeState → Prop) (Genuine : Packet → Prop),
        Consistent S mechanism.num_nodes block byte_len Good Ready Genuine sim := by
  obtain ⟨sim,byte_len,began,placed⟩ := start_runs block mesh fun count rng => by
    obtain ⟨self',proposer,packets,byte_len,rest,fresh,init,receiver,_⟩ := starts count rng
    exact ⟨self',proposer,packets,byte_len,rest,fresh,init,receiver⟩
  obtain ⟨peers,packets,started⟩ := start_ok began
  obtain ⟨before,proposer,after,proposed,first⟩ := started.proposed
  obtain ⟨timed,first_time,waiting⟩ := started_times started
  obtain ⟨_,_,_,_,_,fresh,init,receiver,holds,Good,Ready,Genuine,faithful,good,incomplete,genuine⟩ := starts peers.length before
  obtain ⟨same,_⟩ := ok_pair (proposed.symm.trans init)
  simp only [Prod.mk.injEq] at same
  obtain ⟨rfl,rfl,rfl,rfl⟩ := same
  refine ⟨sim,byte_len,began,placed,Good,Ready,Genuine,faithful,started_flow started genuine,started.nodes,timed,?_,?_⟩
  · intro v state unset found
    have above : 0 < v := by
      rcases Nat.eq_zero_or_pos v with rfl | above
      · rw [first_time] at unset
        cases unset
      · exact above
    obtain rfl := Except.ok.inj (receiver.symm.trans (started.receivers v state above found))
    exact ⟨good,incomplete⟩
  · intro v time state set found
    rcases Nat.eq_zero_or_pos v with rfl | above
    · obtain rfl := Option.some.inj (first.symm.trans found)
      exact holds
    · obtain ⟨inside,_⟩ := List.getElem?_eq_some_iff.mp set
      rw [waiting v (timed ▸ inside) above] at set
      cases set

/-- In every run of a strategy that starts faithfully, nodes count as decoded only when
    they hold the block, and no packet is refused. -/
def CountsTruly [SliceRandom] (S : Strategy σ NodeState Packet) (strategy : σ) (block : Block) : Prop :=
  ∀ (mechanism : PropagationMechanism σ) (rng rest : Rng) (topo : Topology), mechanism.strategy = strategy →
    Topology.random_mesh mechanism.num_nodes mechanism.mesh_degree rng = .ok (topo,rest) →
    ∃ sim byte_len, Simulation.start S mechanism block rng = .ok (sim,byte_len) ∧ sim.topo = topo ∧
      ∀ count, ∃ sim', sim.process_events S count = .ok sim' ∧
        (∀ (v : Nat) (time : Duration), sim'.decode_times[v]? = some (some time) →
          ∃ state, sim'.states[v]? = some state ∧ S.decode sim'.mechanism.strategy state byte_len = .ok block) ∧
        ∀ event queue, EventHeap.pop sim'.event_queue = some (event,queue) →
          sim'.decode_times[event.to_node]? = some none → ∃ state, sim'.states[event.to_node]? = some state ∧
            ∃ state' useful, S.receive sim'.mechanism.strategy state event.packet = .ok (state',.ok useful)

theorem Starts.counts_truly [SliceRandom] [LawfulSliceRandom] {strategy : σ} (starts : Starts S strategy block) :
    CountsTruly S strategy block := by
  rintro mechanism rng rest topo rfl mesh
  obtain ⟨sim,byte_len,ran,placed,Good,Ready,Genuine,consistent⟩ := start_consistent starts mesh
  refine ⟨sim,byte_len,ran,placed,fun count => ?_⟩
  obtain ⟨sim',ran',consistent'⟩ := process_events_runs (Consistent S mechanism.num_nodes block byte_len Good Ready Genuine)
    (fun sim event rest kept popped => kept.process popped) count consistent
  refine ⟨sim',ran',?_,?_⟩
  · intro v time set
    obtain ⟨inside,_⟩ := List.getElem?_eq_some_iff.mp set
    rw [consistent'.nodes.decode_times,← consistent'.nodes.states] at inside
    have found : sim'.states[v]? = some sim'.states[v] := List.getElem?_eq_getElem inside
    exact ⟨_,found,consistent'.nodes.decoded v time _ set found⟩
  · intro event queue popped waits
    have member := (LawfulEventHeap.pop_perm popped).mem_iff.mp List.mem_cons_self
    obtain ⟨state,found,_,state',useful,received,_⟩ := consistent'.receives (consistent'.flow.genuine event member) waits
    exact ⟨state,found,state',useful,received⟩

end

end Rlnc.Consistency
