import Rlnc.CodedRuns
import Rlnc.Mesh
import Rlnc.Metrics
import Rlnc.Progress

/-!
What the coded strategies spread in the simulation. No packet leaves the span of the
packets that the proposer sent at first, so no other node can learn more than these
(`Spreading`); a node sends only when its rank grows, so that the ranks bound the
packets that are ever sent, and the loop ends.
-/
namespace Rlnc.Spread
open Rlnc.Panics Rlnc.Combination Rlnc.Coding Rlnc.Draws Rlnc.Blocks Rlnc.Integrity Rlnc.Protocols Rlnc.CodedRuns
open Rlnc.Strategies Rlnc.Topology Rlnc.Engine Rlnc.Events Rlnc.Progress
set_option linter.unusedSectionVars false

section
variable {F : Type} [Field F] [DecidableEq F] [Random F] {N : Nat} {Context Proof Error : Type}

/-- The packet has `m` data scalars, and its coefficients lie in this space. -/
def Within (m : Nat) (V : Submodule F (Fin N → F)) (p : SignedPacket F N Proof) : Prop :=
  p.chunk.w.v.length = m ∧ p.chunk.coefficients ∈ V

variable {S : IntegrityScheme F N Context Proof Error} {ctx : Context} {m : Nat} {V : Submodule F (Fin N → F)}
  {state : CodedNodeState F N Context Proof}

/-! ### One node -/

/-- A node takes every packet of the width; its rank grows by one, or nothing changes. -/
theorem holds_receive (total : Total S (fun _ => ctx) m) (holds : Holds S ctx m (Within m V) state)
    {packet : SignedPacket F N Proof} (within : Within m V packet) :
    ∃ state' received, state.receive S packet = .ok (state',received) ∧ Holds S ctx m (Within m V) state' ∧
      (received = .ok true ∧ state'.decoder.rank = state.decoder.rank + 1 ∨ received ≠ .ok true ∧ state' = state) := by
  obtain ⟨rfl,packets,stored,fine⟩ := holds
  obtain ⟨checked,verified⟩ := total.verifies 0 packet within.1
  rcases coded_receive_spec stored packet within.1 verified with ⟨e,_,ran⟩ | ⟨_,_,ran⟩ | ⟨_,_,_,decoder',proofs',ran,grown⟩
  · exact ⟨state,.error (S.display e),by rw [CodedNodeState.receive,ran]; rfl,⟨rfl,packets,stored,fine⟩,.inr ⟨by simp,rfl⟩⟩
  · exact ⟨state,.ok false,by rw [CodedNodeState.receive,ran]; rfl,⟨rfl,packets,stored,fine⟩,.inr ⟨by simp,rfl⟩⟩
  · refine ⟨⟨decoder',proofs',state.ctx⟩,.ok true,by rw [CodedNodeState.receive,ran]; rfl,
      ⟨rfl,packets ++ [packet],grown,?_⟩,.inl ⟨rfl,?_⟩⟩
    · intro p member
      rcases List.mem_append.mp member with old | new
      · exact fine p old
      · rw [List.mem_singleton.mp new]
        exact within
    · rw [grown.rank,stored.rank,List.length_append,List.length_singleton]

/-- A node with something stored forwards a packet to each peer, and does not leave the space. -/
theorem holds_forward (total : Total S (fun _ => ctx) m) (holds : Holds S ctx m (Within m V) state)
    (some_rank : 1 ≤ state.decoder.rank) (count : Nat) (rng : Rng) :
    ∃ packets rest, state.forward S count rng = .ok (packets,rest) ∧ ∀ p ∈ packets, Within m V p := by
  obtain ⟨rfl,packets,stored,fine⟩ := holds
  have some_packet : packets ≠ [] := List.ne_nil_of_length_pos (by rw [← stored.rank]; exact some_rank)
  obtain ⟨sent,rest,ran,_,each⟩ := forward_total (n := 0) total stored some_packet count rng
  refine ⟨sent,rest,ran,fun p member => ⟨(each p member).1,?_⟩⟩
  have inside : Submodule.span F {x | x ∈ packets.map (fun p => p.chunk.coefficients)} ≤ V := by
    refine Submodule.span_le.mpr fun x listed => ?_
    obtain ⟨q,held,rfl⟩ := List.mem_map.mp listed
    exact (fine q held).2
  exact inside (each p member).2

/-- The rank of a node is bounded by the packets of which it holds combinations. -/
theorem holds_rank {packets : List (SignedPacket F N Proof)}
    (holds : Holds S ctx m (Within m (coefficient_span (packets.map SignedPacket.chunk))) state) :
    (∀ c ∈ state.decoder.coded_chunks, c.coefficients ∈ coefficient_span (packets.map SignedPacket.chunk)) ∧
      state.decoder.rank ≤ min N packets.length := by
  obtain ⟨_,stored_packets,stored,fine⟩ := holds
  have inside : ∀ c ∈ state.decoder.coded_chunks, c.coefficients ∈ coefficient_span (packets.map SignedPacket.chunk) := by
    intro c member
    rw [stored.chunks] at member
    obtain ⟨p,listed,rfl⟩ := List.mem_map.mp member
    exact (fine p listed).2
  refine ⟨inside,le_min (BlockDecoder.rank_le stored.sound) ?_⟩
  have few := (BlockDecoder.innovative stored.sound).length_le_of_span
    (show ∀ x ∈ _, x ∈ coefficient_span (packets.map SignedPacket.chunk) by
      intro x member
      obtain ⟨c,listed,rfl⟩ := List.mem_map.mp member
      exact inside c listed)
  rw [BlockDecoder.rank_eq stored.sound]
  simpa using few

/-! ### A run -/

variable {σ : Type} {T : Strategy σ (CodedNodeState F N Context Proof) (SignedPacket F N Proof)} {start : σ}

/-- What the two coded strategies have in common, when they start with these parameters. -/
structure CodedStrategy (T : Strategy σ (CodedNodeState F N Context Proof) (SignedPacket F N Proof))
    (S : IntegrityScheme F N Context Proof Error) (start : σ) : Prop where
  until_decode : ∀ self, T.forward_condition self = .UntilDecode
  receives : ∀ self, T.receive self = CodedNodeState.receive S
  completes : ∀ self state, T.can_decode self state = state.decoder.is_complete
  forwards : ∀ self, T.forward self = CodedNodeState.forward S
  begins : ∀ block count rng self' proposer packets byte_len rest,
    T.init_proposer start block count rng = .ok ((self',proposer,packets,byte_len),rest) →
    packets.length = count ∧ ∃ ctx m, Total S (fun _ => ctx) m ∧ (∀ p ∈ packets, p.chunk.w.v.length = m) ∧
      ∀ state, T.init_receiver self' = .ok state → state = ⟨BlockDecoder.new,[],ctx⟩

/-- The ranks of all nodes but the proposer. -/
def ranks (states : List (CodedNodeState F N Context Proof)) : Nat :=
  ((states.drop 1).map (fun state => state.decoder.rank)).sum

theorem ranks_set {states : List (CodedNodeState F N Context Proof)} {v : Nat} (above : 0 < v)
    (found : states[v]? = some state) (state' : CodedNodeState F N Context Proof) :
    ranks (states.set v state') + state.decoder.rank = ranks states + state'.decoder.rank := by
  cases states with
  | nil => cases found
  | cons first rest =>
    obtain ⟨u,rfl⟩ : ∃ u, v = u + 1 := ⟨v - 1,by omega⟩
    exact sum_map_set (fun state => state.decoder.rank) (List.getElem?_cons_succ ▸ found)

theorem ranks_le {states : List (CodedNodeState F N Context Proof)} {bound : Nat}
    (each : ∀ v state, 0 < v → states[v]? = some state → state.decoder.rank ≤ bound) :
    ranks states ≤ (states.length - 1) * bound := by
  have listed := List.sum_le_card_nsmul ((states.drop 1).map (fun state => state.decoder.rank)) bound (by
    intro x member
    obtain ⟨state,here,rfl⟩ := List.mem_map.mp member
    obtain ⟨u,found⟩ := List.mem_iff_getElem?.mp here
    rw [List.getElem?_drop] at found
    exact each (1 + u) state (by omega) found)
  simpa [ranks] using listed

variable [EventHeap] [LawfulEventHeap] {n degree first : Nat}
  {sim : Simulation σ (CodedNodeState F N Context Proof) (SignedPacket F N Proof)}

/-- The invariant of the loop: all that is stored or queued lies in the space, only complete nodes
    have decoded, and what was sent is paid for by the ranks. -/
structure Spreading (S : IntegrityScheme F N Context Proof Error) (ctx : Context) (m : Nat) (V : Submodule F (Fin N → F))
    (n degree first : Nat) (sim : Simulation σ (CodedNodeState F N Context Proof) (SignedPacket F N Proof)) : Prop where
  flow : Flow n (Within m V) sim
  states : sim.states.length = n
  times : sim.decode_times.length = n
  proposer : sim.decode_times[0]? = some (some 0)
  holds : ∀ (v : Nat) (state : CodedNodeState F N Context Proof), 0 < v → sim.states[v]? = some state →
    Holds S ctx m (Within m V) state
  decoded : ∀ (v : Nat) (t : Duration) (state : CodedNodeState F N Context Proof), 0 < v →
    sim.decode_times[v]? = some (some t) → sim.states[v]? = some state → state.decoder.is_complete = true
  regular : ∀ (v : Nat) (peers : List Nat), sim.topo.neighbors[v]? = some peers → peers.length = degree
  paid : sim.total_packets ≤ first + degree * ranks sim.states

/-- A node with the flag for useful packets sends on exactly these. -/
theorem should_forward_until (coded : CodedStrategy T S start) (node : Nat) (useful decodable : Bool) :
    sim.should_forward T node useful decodable = .ok useful := by
  simp only [Simulation.should_forward,coded.until_decode]

/-- The node that takes a packet changes its own entries only. -/
theorem Spreading.update (spreading : Spreading S ctx m V n degree first sim)
    {sim' : Simulation σ (CodedNodeState F N Context Proof) (SignedPacket F N Proof)} (flow : Flow n (Within m V) sim')
    {node : Nat} {state' : CodedNodeState F N Context Proof} (time : Duration)
    (waits : sim.decode_times[node]? = some none) (found : sim.states[node]? = some state) (topo : sim'.topo = sim.topo)
    (states : sim'.states = sim.states.set node state')
    (times : sim'.decode_times = if state'.decoder.is_complete then sim.decode_times.set node (some time)
      else sim.decode_times)
    (holds : Holds S ctx m (Within m V) state')
    (paid : sim'.total_packets + degree * state.decoder.rank ≤ sim.total_packets + degree * state'.decoder.rank) :
    Spreading S ctx m V n degree first sim' := by
  have above : 0 < node := by
    rcases Nat.eq_zero_or_pos node with rfl | above
    · rw [spreading.proposer] at waits
      cases waits
    · exact above
  obtain ⟨inside,_⟩ := List.getElem?_eq_some_iff.mp found
  obtain ⟨small,_⟩ := List.getElem?_eq_some_iff.mp waits
  have other_times : ∀ v, v ≠ node → sim'.decode_times[v]? = sim.decode_times[v]? := by
    intro v apart
    rw [times]
    split
    · exact List.getElem?_set_ne (Ne.symm apart)
    · rfl
  refine ⟨flow,by rw [states,List.length_set,spreading.states],?_,?_,?_,?_,?_,?_⟩
  · rw [times]
    split
    · rw [List.length_set,spreading.times]
    · exact spreading.times
  · rw [other_times 0 (by omega),spreading.proposer]
  · intro v s positive here
    rw [states] at here
    by_cases same : v = node
    · subst same
      rw [List.getElem?_set_self inside] at here
      obtain rfl := Option.some.inj here
      exact holds
    · rw [List.getElem?_set_ne (Ne.symm same)] at here
      exact spreading.holds v s positive here
  · intro v t s positive set here
    rw [states] at here
    by_cases same : v = node
    · subst same
      rw [List.getElem?_set_self inside] at here
      obtain rfl := Option.some.inj here
      by_contra incomplete
      rw [times,if_neg incomplete,waits] at set
      cases set
    · rw [List.getElem?_set_ne (Ne.symm same)] at here
      rw [other_times v same] at set
      exact spreading.decoded v t s positive set here
  · rw [topo]
    exact spreading.regular
  · have moved := ranks_set above found state'
    have before := spreading.paid
    rw [states]
    have scaled : degree * ranks (sim.states.set node state') + degree * state.decoder.rank =
        degree * ranks sim.states + degree * state'.decoder.rank := by
      rw [← Nat.mul_add,moved,Nat.mul_add]
    omega

/-- One event keeps the invariant, and does not panic. -/
theorem Spreading.process (coded : CodedStrategy T S start) (total : Total S (fun _ => ctx) m)
    (spreading : Spreading S ctx m V n degree first sim) {event : Event (SignedPacket F N Proof)}
    {rest : List (Event (SignedPacket F N Proof))} (popped : EventHeap.pop sim.event_queue = some (event,rest)) :
    ∃ sim', Simulation.process T { sim with event_queue := rest } event = .ok sim' ∧
      Spreading S ctx m V n degree first sim' := by
  obtain ⟨target,within,flow⟩ := flow_popped spreading.flow popped
  have waits_above : sim.decode_times[event.to_node]? = some none → 0 < event.to_node := by
    intro waits
    rcases Nat.eq_zero_or_pos event.to_node with zero | above
    · rw [zero,spreading.proposer] at waits
      cases waits
    · exact above
  obtain ⟨sim',ran,flow'⟩ := process_runs (S := T) flow spreading.states spreading.times target (by
    intro state waits found
    have holds := spreading.holds _ state (waits_above waits) found
    obtain ⟨state',received,took,holds',grown⟩ := holds_receive total holds within
    refine ⟨state',received,by rw [coded.receives]; exact took,?_⟩
    intro useful accepted asked count rng
    rw [should_forward_until coded] at asked
    obtain rfl := Except.ok.inj asked
    rw [coded.forwards]
    rcases grown with ⟨_,more⟩ | ⟨refused,_⟩
    · exact holds_forward total holds' (by omega) count rng
    · exact absurd accepted refused)
  refine ⟨sim',ran,?_⟩
  have popped_spreading : Spreading S ctx m V n degree first { sim with event_queue := rest } :=
    ⟨flow,spreading.states,spreading.times,spreading.proposer,spreading.holds,spreading.decoded,spreading.regular,
      spreading.paid⟩
  cases process_ok ran with
  | skipped time known same =>
    rw [same]
    exact popped_spreading
  | refused state state' e waits found received changed =>
    obtain ⟨after,_,took,_,grown⟩ := holds_receive total (spreading.holds _ state (waits_above waits) found) within
    rw [coded.receives] at received
    obtain ⟨rfl,rfl⟩ := ok_pair (took.symm.trans received)
    rcases grown with ⟨accepted,_⟩ | ⟨_,unchanged⟩
    · cases accepted
    · have kept : sim.states.set event.to_node after = sim.states := by
        obtain ⟨inside,here⟩ := List.getElem?_eq_some_iff.mp found
        rw [unchanged,← here,List.set_getElem_self]
      rw [changed]
      exact ⟨flow.congr rfl rfl rfl rfl fun _ member => member,by rw [kept]; exact spreading.states,spreading.times,spreading.proposer,by rw [kept]; exact spreading.holds,
        by rw [kept]; exact spreading.decoded,spreading.regular,by rw [kept]; exact spreading.paid⟩
  | taken state state' useful forwards links waits found received changes =>
    obtain ⟨_,_,took,holds,grown⟩ := holds_receive total (spreading.holds _ state (waits_above waits) found) within
    rw [coded.receives] at received
    obtain ⟨rfl,rfl⟩ := ok_pair (took.symm.trans received)
    have asked := changes.asked
    rw [should_forward_until coded] at asked
    obtain rfl := Except.ok.inj asked
    have sent : sim'.total_packets = sim.total_packets + links.length := changes.posted.total
    have sends := changes.sends
    have decides := changes.decode_times
    rw [coded.completes] at decides
    refine popped_spreading.update flow' event.time waits found changes.topo changes.states decides holds ?_
    rw [sent]
    show sim.total_packets + links.length + degree * state.decoder.rank ≤ sim.total_packets + degree * _
    rcases grown with ⟨accepted,more⟩ | ⟨refused,unchanged⟩
    · obtain rfl := Except.ok.inj accepted
      obtain ⟨peers,packets,_,listed,_,rfl⟩ := sends
      have regular := spreading.regular _ peers listed
      rw [more,List.length_zip,Nat.mul_add]
      omega
    · have useless : useful = false := by simpa using refused
      rw [useless] at sends
      obtain rfl : links = [] := sends
      rw [unchanged]
      simp

/-- Before the loop the receivers hold nothing, and the packets of the proposer span the space. -/
theorem started_spreading [SliceRandom] [LawfulSliceRandom] (coded : CodedStrategy T S start)
    {mechanism : PropagationMechanism σ} (starts : mechanism.strategy = start) {block : Block} {rng : Rng} {byte_len : Nat}
    {peers : List Nat} {packets : List (SignedPacket F N Proof)}
    (started : Started T mechanism block rng sim byte_len peers packets) :
    packets.length = peers.length ∧ ∃ ctx m, Total S (fun _ => ctx) m ∧
      Spreading S ctx m (coefficient_span (packets.map SignedPacket.chunk)) mechanism.num_nodes mechanism.mesh_degree
        peers.length sim := by
  obtain ⟨before,proposer,after,proposed,_⟩ := started.proposed
  rw [starts] at proposed
  obtain ⟨count,ctx,m,total,width,fresh⟩ := coded.begins _ _ _ _ _ _ _ _ proposed
  obtain ⟨timed,first_time,waiting⟩ := started_times started
  obtain ⟨rest,mesh⟩ := started.mesh
  have within : ∀ p ∈ packets, Within m (coefficient_span (packets.map SignedPacket.chunk)) p := fun p member =>
    ⟨width p member,Submodule.subset_span (List.mem_map_of_mem (List.mem_map_of_mem member))⟩
  have empty : ∀ v state, 0 < v → sim.states[v]? = some state → state = ⟨BlockDecoder.new,[],ctx⟩ := fun v state above found =>
    fresh state (started.receivers v state above found)
  refine ⟨count,ctx,m,total,started_flow started within,started.nodes,timed,first_time,?_,?_,?_,?_⟩
  · intro v state above found
    rw [empty v state above found]
    exact Holds.fresh
  · intro v t state above set found
    obtain ⟨inside,_⟩ := List.getElem?_eq_some_iff.mp set
    rw [waiting v (timed ▸ inside) above] at set
    cases set
  · exact fun v peers listed => ((Mesh.random_mesh_spec _ _ _ _ _ mesh).2.1 v peers listed).1
  · have sent := (started_queued started).1
    rw [List.length_zip] at sent
    omega

/-- Each receiver pays for at most `N` times its peers. -/
theorem Spreading.bounded (spreading : Spreading S ctx m V n degree first sim) :
    sim.total_packets ≤ first + (n - 1) * N * degree := by
  have few := ranks_le (fun v state above found =>
    BlockDecoder.rank_le (spreading.holds v state above found).2.choose_spec.1.sound)
  rw [spreading.states] at few
  rw [Nat.mul_comm _ degree]
  exact spreading.paid.trans (Nat.add_le_add_left (Nat.mul_le_mul_left degree few) first)

/-- Any number of events keeps the invariant, and the loop ends. -/
theorem Spreading.process_events (coded : CodedStrategy T S start) (total : Total S (fun _ => ctx) m)
    (spreading : Spreading S ctx m V n degree first sim) (queued : sim.event_queue.length = sim.total_packets) (count : Nat) :
    ∃ sim', sim.process_events T count = .ok sim' ∧ Spreading S ctx m V n degree first sim' ∧
      (first + (n - 1) * N * degree < count → sim'.event_queue = []) := by
  exact process_events_ends (Spreading S ctx m V n degree first) (first + (n - 1) * N * degree)
    (fun sim event rest kept popped => kept.process coded total popped) (fun sim kept => kept.bounded) count spreading
    queued.le

end

end Rlnc.Spread

