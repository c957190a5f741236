import Rlnc.Flooding
import Rlnc.Information
import Rlnc.Policies

/-!
The packets that the event loop has handled. A node can tell from them alone what it holds: with the
coded strategies its rank is the dimension of what the verified ones span, and `useful_packets` is
the sum of these dimensions (`useful_is_information`). Packets take at least the latency of a hop,
so that no node decodes before a walk of links has led to it (`latency_bound`).
-/
namespace Rlnc.Arrivals
open Rlnc.Panics Rlnc.Combination Rlnc.Wire Rlnc.Packing Rlnc.Coding Rlnc.Draws Rlnc.Blocks Rlnc.Groups Rlnc.Integrity Rlnc.Protocols
open Rlnc.Scalars Rlnc.CodedRuns Rlnc.Strategies Rlnc.Topology Rlnc.Engine Rlnc.Events Rlnc.Progress Rlnc.Spread Rlnc.Policies
open Rlnc.Walks Rlnc.Mesh
set_option linter.unusedSectionVars false

section
variable {σ NodeState Packet : Type} (S : Strategy σ NodeState Packet) [EventHeap]

/-- The events that the loop handles, in their order. -/
def arrivals : Nat → Simulation σ NodeState Packet → List (Event Packet)
  | 0, _ => []
  | count + 1, self =>
    match EventHeap.pop self.event_queue with
    | none => []
    | some (event,rest) =>
      event :: match Simulation.process S { self with event_queue := rest } event with
        | .ok self => arrivals count self
        | .error _ => []

/-- The packets among them for one node. -/
def packets_for (v : Nat) (past : List (Event Packet)) : List Packet :=
  (past.filter fun event => event.to_node = v).map Event.packet

variable {S} {sim sim' : Simulation σ NodeState Packet}

theorem packets_for_here (past : List (Event Packet)) (event : Event Packet) :
    packets_for event.to_node (past ++ [event]) = packets_for event.to_node past ++ [event.packet] := by
  simp [packets_for,List.filter_append]

theorem packets_for_other {v : Nat} {event : Event Packet} (apart : v ≠ event.to_node) (past : List (Event Packet)) :
    packets_for v (past ++ [event]) = packets_for v past := by
  simp [packets_for,List.filter_append,Ne.symm apart]

/-- What every event keeps, with the events before it, holds after any number of them. -/
theorem process_events_past (Inv : List (Event Packet) → Simulation σ NodeState Packet → Prop) (past : List (Event Packet))
    (step : ∀ past (sim : Simulation σ NodeState Packet) event rest sim', Inv past sim →
      EventHeap.pop sim.event_queue = some (event,rest) →
      Simulation.process S { sim with event_queue := rest } event = .ok sim' → Inv (past ++ [event]) sim')
    {count : Nat} (start : Inv past sim) (ran : sim.process_events S count = .ok sim') :
    Inv (past ++ arrivals S count sim) sim' := by
  induction count generalizing past sim with
  | zero =>
    obtain rfl : sim = sim' := Except.ok.inj ran
    rwa [arrivals,List.append_nil]
  | succ count ih =>
    cases popped : EventHeap.pop sim.event_queue with
    | none =>
      simp only [Simulation.process_events,popped] at ran
      obtain rfl : sim = sim' := Except.ok.inj ran
      simpa only [arrivals,popped,List.append_nil] using start
    | some next =>
      obtain ⟨event,rest⟩ := next
      simp only [Simulation.process_events,popped,bind_ok] at ran
      obtain ⟨after,processed,ran⟩ := ran
      have later := ih (past ++ [event]) (step past sim event rest after start popped processed) ran
      simpa only [arrivals,popped,processed,List.append_assoc,List.singleton_append] using later

variable [LawfulEventHeap]

/-- What is sent has been handled or is in the queue. -/
theorem arrivals_length {count : Nat} (queued : sim.event_queue.length = sim.total_packets)
    (ran : sim.process_events S count = .ok sim') :
    sim'.total_packets = (arrivals S count sim).length + sim'.event_queue.length := by
  refine process_events_past (fun past sim => sim.total_packets = past.length + sim.event_queue.length) []
    (fun past sim event rest sim' kept popped processed => ?_) (by simp [queued]) ran
  have shorter : rest.length + 1 = sim.event_queue.length := (LawfulEventHeap.pop_perm popped).length_eq
  rw [List.length_append,List.length_singleton]
  cases process_ok processed with
  | skipped time known same =>
    rw [same]
    simp only
    omega
  | refused state state' e waits found received changed =>
    rw [changed]
    simp only
    omega
  | taken state state' useful forwards links waits found received changes =>
    have total := changes.posted.total
    have queue := changes.posted.queue.length_eq
    simp only [List.length_append,List.length_map] at total queue
    omega

/-! ### How long packets take -/

/-- Hops that take at least `d` each lead from the proposer to this node by this time. -/
structure Reached (neighbors : List (List Nat)) (d v : Nat) (time : Duration) : Prop where
  reachable : Reachable (Link neighbors) 0 v
  late : d * dist (Link neighbors) 0 v ≤ time

theorem Reached.step {neighbors : List (List Nat)} {d u v : Nat} {time delay : Duration} (reached : Reached neighbors d u time)
    (link : Link neighbors u v) (slow : d ≤ delay) : Reached neighbors d v (time + delay) := by
  refine ⟨reached.reachable.step link,?_⟩
  calc d * dist (Link neighbors) 0 v ≤ d * (dist (Link neighbors) 0 u + 1) :=
        Nat.mul_le_mul_left d (dist_le (.step (walk_dist reached.reachable) link))
    _ ≤ time + delay := by
        rw [Nat.mul_succ]
        exact Nat.add_le_add reached.late slow

/-- Events are handled in the order of their times, and no packet is faster than its hops. -/
structure Causal (topo : Topology) (n d : Nat) (past : List (Event Packet)) (sim : Simulation σ NodeState Packet) : Prop where
  mesh : sim.topo = topo
  times : sim.decode_times.length = n
  slow : ∀ size, d ≤ sim.mechanism.transmission_delay size
  queued : ∀ event ∈ sim.event_queue, Reached topo.neighbors d event.to_node event.time
  decoded : ∀ v t, sim.decode_times[v]? = some (some t) → Reached topo.neighbors d v t
  sorted : past.Pairwise fun event event' => event.time ≤ event'.time
  later : ∀ event ∈ past, ∀ event' ∈ sim.event_queue, event.time ≤ event'.time

/-- What is sent along the links of a node that was reached has the delay of another hop. -/
theorem posted_reached {neighbors : List (List Nat)} {d sender : Nat} {time : Duration} {links : List (Nat × Packet)}
    (posted : Posted S sender time links sim sim') (slow : ∀ size, d ≤ sim.mechanism.transmission_delay size)
    (reached : Reached neighbors d sender time) (along : ∀ link ∈ links, Link neighbors sender link.1) :
    ∀ event ∈ sim'.event_queue, event ∈ sim.event_queue ∨ Reached neighbors d event.to_node event.time ∧ time ≤ event.time := by
  intro event member
  rcases List.mem_append.mp (posted.queue.mem_iff.mp member) with new | old
  · obtain ⟨link,listed,rfl⟩ := List.mem_map.mp new
    exact .inr ⟨reached.step (along link listed) (slow _),Nat.le_add_right ..⟩
  · exact .inl old

theorem Causal.process {topo : Topology} {n d : Nat} {past rest : List (Event Packet)} {event : Event Packet}
    (causal : Causal topo n d past sim) (popped : EventHeap.pop sim.event_queue = some (event,rest))
    (handled : Handled S { sim with event_queue := rest } event sim') : Causal topo n d (past ++ [event]) sim' := by
  have taken_off := LawfulEventHeap.pop_perm popped
  have first : event ∈ sim.event_queue := taken_off.mem_iff.mp List.mem_cons_self
  have others : ∀ event' ∈ rest, event' ∈ sim.event_queue := fun event' member =>
    taken_off.mem_iff.mp (List.mem_cons_of_mem event member)
  have earliest := LawfulEventHeap.pop_earliest popped
  have reached := causal.queued event first
  have sorted : (past ++ [event]).Pairwise fun event event' => event.time ≤ event'.time := by
    refine List.pairwise_append.mpr ⟨causal.sorted,List.pairwise_singleton _ _,?_⟩
    intro e member e' last
    obtain rfl := List.mem_singleton.mp last
    exact causal.later e member e' first
  -- what is queued afterwards comes after the event, and so after all before it
  have behind : (∀ event' ∈ sim'.event_queue, event.time ≤ event'.time) →
      ∀ e ∈ past ++ [event], ∀ event' ∈ sim'.event_queue, e.time ≤ event'.time := by
    intro after e member event' queued
    rcases List.mem_append.mp member with old | new
    · exact (causal.later e old event first).trans (after event' queued)
    · obtain rfl := List.mem_singleton.mp new
      exact after event' queued
  cases handled with
  | skipped time known same =>
    subst same
    exact ⟨causal.mesh,causal.times,causal.slow,fun event' member => causal.queued event' (others event' member),causal.decoded,sorted,
      behind earliest⟩
  | refused state state' e waits found received changed =>
    subst changed
    exact ⟨causal.mesh,causal.times,causal.slow,fun event' member => causal.queued event' (others event' member),causal.decoded,sorted,
      behind earliest⟩
  | taken state state' useful forwards links waits found received changes =>
    have along : ∀ link ∈ links, Link topo.neighbors event.to_node link.1 := by
      intro link member
      have sends := changes.sends
      cases forwards with
      | false =>
        obtain rfl : links = [] := sends
        cases member
      | true =>
        obtain ⟨peers,packets,_,listed,_,rfl⟩ := sends
        exact ⟨peers,causal.mesh ▸ listed,(List.of_mem_zip member).1⟩
    have posted := posted_reached changes.posted causal.slow reached along
    refine ⟨changes.topo.trans causal.mesh,?_,changes.mechanism ▸ causal.slow,?_,?_,sorted,behind ?_⟩
    · rw [changes.decode_times]
      split
      · rw [List.length_set]
        exact causal.times
      · exact causal.times
    · intro event' member
      rcases posted event' member with old | ⟨new,_⟩
      · exact (causal.queued event' (others event' old))
      · exact new
    · intro v t known
      have decides := changes.decode_times
      by_cases complete : S.can_decode sim.mechanism.strategy state' = true
      · rw [decides,if_pos complete] at known
        by_cases same : v = event.to_node
        · subst same
          obtain ⟨inside,_⟩ := List.getElem?_eq_some_iff.mp waits
          rw [List.getElem?_set_self inside] at known
          obtain rfl := Option.some.inj (Option.some.inj known)
          exact reached
        · rw [List.getElem?_set_ne (Ne.symm same)] at known
          exact (causal.decoded v t known)
      · rw [decides,if_neg complete] at known
        exact (causal.decoded v t known)
    · intro event' member
      rcases posted event' member with old | ⟨_,after⟩
      · exact earliest event' old
      · exact after

/-- The proposer has decoded, and its packets take a hop. -/
theorem started_causal [SliceRandom] {mechanism : PropagationMechanism σ} {block : Block} {rng : Rng} {byte_len d : Nat}
    {peers : List Nat} {packets : List Packet} (started : Started S mechanism block rng sim byte_len peers packets)
    (slow : ∀ size, d ≤ mechanism.transmission_delay size) : Causal sim.topo mechanism.num_nodes d [] sim := by
  obtain ⟨timed,first,waiting⟩ := started_times started
  obtain ⟨states,before,posted,same⟩ := started.begun
  have params : sim.mechanism.transmission_delay = mechanism.transmission_delay := by rw [started.params]
  have here : Reached sim.topo.neighbors d 0 0 := ⟨.refl _ 0,by simp⟩
  refine ⟨rfl,timed,fun size => params ▸ slow size,?_,?_,.nil,by simp⟩
  · intro event member
    rcases posted_reached posted (fun size => params ▸ slow size) here
      (fun link inside => ⟨peers,started.listed,(List.of_mem_zip inside).1⟩) event member with old | ⟨new,_⟩
    · cases old
    · exact new
  · intro v t known
    rcases Nat.eq_zero_or_pos v with rfl | above
    · obtain rfl := Option.some.inj (Option.some.inj (first.symm.trans known))
      exact here
    · obtain ⟨inside,_⟩ := List.getElem?_eq_some_iff.mp known
      rw [waiting v (timed ▸ inside) above] at known
      cases known

/-- No time is later than the last of the sorted ones. -/
theorem le_last {times : List Duration} {t : Duration} (member : t ∈ times) :
    t ≤ (times.insertionSort (· ≤ ·)).getLast?.getD 0 := by
  have here := (List.mem_insertionSort (· ≤ ·)).mpr member
  rw [List.getLast?_eq_some_getLast (List.ne_nil_of_mem here),Option.getD_some]
  exact (List.pairwise_insertionSort (· ≤ ·) times).rel_getLast here

/-- With any strategy packets are handled in the order of their times, and a node decodes no earlier
    than its distance from the proposer allows when a hop takes at least `d`. -/
theorem latency_bound [SliceRandom] [LawfulSliceRandom] {mechanism : PropagationMechanism σ} {block : Block} {rng rest : Rng}
    {topo : Topology} {d count : Nat} {m : Metrics.SimMetrics} (slow : ∀ size, d ≤ mechanism.transmission_delay size)
    (mesh : Topology.random_mesh mechanism.num_nodes mechanism.mesh_degree rng = .ok (topo,rest))
    (ran : Metrics.run S count mechanism block rng = .ok (some m)) :
    (∃ sim byte_len, Simulation.start S mechanism block rng = .ok (sim,byte_len) ∧
      (arrivals S count sim).Pairwise (fun event event' => event.time ≤ event'.time) ∧
      (arrivals S count sim).length = m.total_packets) ∧
    (∀ v t, m.decode_times[v]? = some (some t) → d * dist (Link topo.neighbors) 0 v ≤ t ∧ t ≤ m.propagation_time) ∧
    (m.nodes_decoded = mechanism.num_nodes →
      d * (Finset.range mechanism.num_nodes).sup (dist (Link topo.neighbors) 0) ≤ m.propagation_time) := by
  obtain ⟨sim,byte_len,sim',began,processed,empty,rfl⟩ := Metrics.run_ok ran
  obtain ⟨peers,packets,started⟩ := start_ok began
  obtain ⟨rest',mesh'⟩ := started.mesh
  obtain ⟨same,_⟩ := ok_pair (mesh'.symm.trans mesh)
  have causal : Causal sim.topo mechanism.num_nodes d (arrivals S count sim) sim' :=
    process_events_past (Causal sim.topo mechanism.num_nodes d) []
      (fun past sim event rest sim' kept popped ran => kept.process popped (process_ok ran)) (started_causal started slow) processed
  rw [same] at causal
  have bound : ∀ v t, sim'.decode_times[v]? = some (some t) → d * dist (Link topo.neighbors) 0 v ≤ t ∧
      t ≤ (Metrics.metrics S sim' byte_len).propagation_time := fun v t known =>
    ⟨(causal.decoded v t known).late,le_last (List.mem_filterMap.mpr ⟨some t,List.mem_of_getElem? known,rfl⟩)⟩
  refine ⟨⟨sim,byte_len,began,causal.sorted,?_⟩,bound,fun all => ?_⟩
  · have sent := arrivals_length (started_queued started).2 processed
    rw [empty,List.length_nil,Nat.add_zero] at sent
    exact sent.symm
  · obtain ⟨v,inside,farthest⟩ := Finset.exists_mem_eq_sup (Finset.range mechanism.num_nodes)
      ⟨0,Finset.mem_range.mpr started.some_node⟩ (dist (Link topo.neighbors) 0)
    rw [farthest]
    have small : v < sim'.decode_times.length := causal.times ▸ Finset.mem_range.mp inside
    have present := List.filterMap_length_eq_length.mp (all.trans causal.times.symm) _ (List.getElem_mem small)
    obtain ⟨t,known⟩ := Option.isSome_iff_exists.mp present
    obtain ⟨late,last⟩ := bound v t (List.getElem?_eq_some_iff.mpr ⟨small,known⟩)
    exact late.trans last

/-! ### What packets are worth -/

/-- What a node holds and whether it can decode depends on the packets it was handed; each useful one
    is worth one more, and nothing is once it can decode. -/
structure Gauged (S : Strategy σ NodeState Packet) (params : σ) (Fits : Packet → Prop) (After : List Packet → NodeState → Prop)
    (worth : List Packet → Nat) (Full : List Packet → Prop) : Prop where
  receive : ∀ passed state packet state' r, After passed state → Fits packet →
    S.receive params state packet = .ok (state',r) →
    After (passed ++ [packet]) state' ∧ worth (passed ++ [packet]) = worth passed + if r = .ok true then 1 else 0
  refuse : ∀ passed state packet state' e, After passed state → Fits packet →
    S.receive params state packet = .ok (state',.error e) → (Full (passed ++ [packet]) ↔ Full passed)
  decodes : ∀ passed state, After passed state → (S.can_decode params state = true ↔ Full passed)
  idle : ∀ passed state packet, After passed state → Full passed →
    After (passed ++ [packet]) state ∧ worth (passed ++ [packet]) = worth passed ∧ Full (passed ++ [packet])

/-- The node holds these packets, and has decoded as soon as it could. -/
def Handed (After : List Packet → NodeState → Prop) (Full : List Packet → Prop) (sim : Simulation σ NodeState Packet) (v : Nat)
    (passed : List Packet) : Prop :=
  (∃ state, sim.states[v]? = some state ∧ After passed state) ∧
    (sim.decode_times[v]? = some none ↔ ¬Full passed)

/-- The nodes hold what they were handed, and the useful packets are what this is worth. -/
structure Informed (n : Nat) (After : List Packet → NodeState → Prop) (worth : List Packet → Nat) (Full : List Packet → Prop)
    (past : List (Event Packet)) (sim : Simulation σ NodeState Packet) : Prop where
  proposer : sim.decode_times[0]? = some (some 0)
  nodes : ∀ v < n, 0 < v → Handed After Full sim v (packets_for v past)
  useful : sim.useful_packets = ∑ v ∈ Finset.Ico 1 n, worth (packets_for v past)

variable {params : σ} {Fits : Packet → Prop} {After : List Packet → NodeState → Prop} {worth : List Packet → Nat}
  {Full : List Packet → Prop} {n : Nat} {past : List (Event Packet)} {event : Event Packet}

/-- A packet changes what one node was handed. -/
theorem worth_handed (inside : event.to_node < n) (above : 0 < event.to_node) {k : Nat}
    (more : worth (packets_for event.to_node past ++ [event.packet]) = worth (packets_for event.to_node past) + k) :
    ∑ v ∈ Finset.Ico 1 n, worth (packets_for v (past ++ [event])) = ∑ v ∈ Finset.Ico 1 n, worth (packets_for v past) + k := by
  have member : event.to_node ∈ Finset.Ico 1 n := Finset.mem_Ico.mpr ⟨above,inside⟩
  rw [← Finset.add_sum_erase _ _ member,← Finset.add_sum_erase _ _ member,packets_for_here,more]
  have others : ∑ v ∈ (Finset.Ico 1 n).erase event.to_node, worth (packets_for v (past ++ [event])) =
      ∑ v ∈ (Finset.Ico 1 n).erase event.to_node, worth (packets_for v past) :=
    Finset.sum_congr rfl fun v listed => by rw [packets_for_other (Finset.ne_of_mem_erase listed)]
  omega

/-- The proposer takes no packet. -/
theorem Informed.proposed (informed : Informed n After worth Full past sim) (zero : event.to_node = 0) :
    Informed n After worth Full (past ++ [event]) sim := by
  have same : ∀ v, 0 < v → packets_for v (past ++ [event]) = packets_for v past := fun v above =>
    packets_for_other (by omega) past
  refine ⟨informed.proposer,fun v inside above => by rw [same v above]; exact informed.nodes v inside above,?_⟩
  rw [informed.useful]
  exact Finset.sum_congr rfl fun v member => by rw [same v (Finset.mem_Ico.mp member).1]

/-- Another node is handed a packet. -/
theorem Informed.update (informed : Informed n After worth Full past sim) (inside : event.to_node < n) (above : 0 < event.to_node)
    (states : ∀ v, v ≠ event.to_node → sim'.states[v]? = sim.states[v]?)
    (times : ∀ v, v ≠ event.to_node → sim'.decode_times[v]? = sim.decode_times[v]?)
    (here : Handed After Full sim' event.to_node (packets_for event.to_node past ++ [event.packet])) {k : Nat}
    (useful : sim'.useful_packets = sim.useful_packets + k)
    (more : worth (packets_for event.to_node past ++ [event.packet]) = worth (packets_for event.to_node past) + k) :
    Informed n After worth Full (past ++ [event]) sim' := by
  refine ⟨by rw [times 0 (by omega)]; exact informed.proposer,fun v small positive => ?_,?_⟩
  · by_cases same : v = event.to_node
    · rw [same,packets_for_here]
      exact here
    · rw [packets_for_other same,Handed,states v same,times v same]
      exact informed.nodes v small positive
  · rw [useful,informed.useful,worth_handed inside above more]

/-- Every event keeps the accounts. -/
theorem Informed.process (gauged : Gauged S sim.mechanism.strategy Fits After worth Full)
    (informed : Informed n After worth Full past sim) (inside : event.to_node < n) (fits : Fits event.packet)
    (handled : Handled S sim event sim') : Informed n After worth Full (past ++ [event]) sim' := by
  rcases Nat.eq_zero_or_pos event.to_node with zero | above
  · cases handled with
    | skipped time known same =>
      rw [same]
      exact informed.proposed zero
    | refused state state' e waits found received changed =>
      rw [zero,informed.proposer] at waits
      cases waits
    | taken state state' useful forwards links waits found received changes =>
      rw [zero,informed.proposer] at waits
      cases waits
  obtain ⟨⟨state₀,found₀,after⟩,decoded⟩ := informed.nodes event.to_node inside above
  cases handled with
  | skipped time known same =>
    rw [same]
    have full : Full (packets_for event.to_node past) := by
      by_contra lacking
      rw [decoded.mpr lacking] at known
      cases known
    obtain ⟨after',idle,full'⟩ := gauged.idle _ _ event.packet after full
    refine informed.update inside above (fun _ _ => rfl) (fun _ _ => rfl) ⟨⟨state₀,found₀,after'⟩,?_⟩ (k := 0) rfl idle
    simp [known,full']
  | refused state state' e waits found received changed =>
    obtain rfl : state = state₀ := Option.some.inj (found.symm.trans found₀)
    obtain ⟨small,_⟩ := List.getElem?_eq_some_iff.mp found
    obtain ⟨after',worth'⟩ := gauged.receive _ _ _ _ _ after fits received
    subst changed
    refine informed.update inside above (fun v apart => List.getElem?_set_ne (Ne.symm apart)) (fun _ _ => rfl)
      ⟨⟨state',List.getElem?_set_self small,after'⟩,?_⟩ (k := 0) rfl (by simpa using worth')
    rw [gauged.refuse _ _ _ _ _ after fits received]
    exact decoded
  | taken state state' useful forwards links waits found received changes =>
    obtain rfl : state = state₀ := Option.some.inj (found.symm.trans found₀)
    obtain ⟨small,_⟩ := List.getElem?_eq_some_iff.mp found
    obtain ⟨small',_⟩ := List.getElem?_eq_some_iff.mp waits
    obtain ⟨after',worth'⟩ := gauged.receive _ _ _ _ _ after fits received
    have decides := changes.decode_times
    refine informed.update inside above (fun v apart => ?_) (fun v apart => ?_) ⟨⟨state',?_,after'⟩,?_⟩ changes.useful_packets ?_
    · rw [changes.states,List.getElem?_set_ne (Ne.symm apart)]
    · rw [decides]
      split
      · exact List.getElem?_set_ne (Ne.symm apart)
      · rfl
    · rw [changes.states,List.getElem?_set_self small]
    · rw [← gauged.decodes _ _ after',decides]
      by_cases complete : S.can_decode sim.mechanism.strategy state' = true
      · rw [if_pos complete,List.getElem?_set_self small']
        simp [complete]
      · rw [if_neg complete,waits]
        simp [complete]
    · rw [worth']
      cases useful <;> simp

/-- Before the loop nothing was handed to anybody. -/
theorem started_informed [SliceRandom] {mechanism : PropagationMechanism σ} {block : Block} {rng : Rng} {byte_len : Nat}
    {peers : List Nat} {packets : List Packet} (started : Started S mechanism block rng sim byte_len peers packets)
    (fresh : ∀ v state, 0 < v → sim.states[v]? = some state → After [] state) (nothing : worth [] = 0) (lacking : ¬Full []) :
    Informed mechanism.num_nodes After worth Full [] sim := by
  obtain ⟨timed,first,waiting⟩ := started_times started
  refine ⟨first,fun v inside above => ?_,?_⟩
  · have held : v < sim.states.length := started.nodes ▸ inside
    have found := List.getElem?_eq_getElem held
    exact ⟨⟨_,found,fresh v _ above found⟩,by simp [waiting v inside above,packets_for,lacking]⟩
  · obtain ⟨_,_,_,same⟩ := started.begun
    rw [same.useful,initial]
    simp [packets_for,nothing]

/-- After any number of events the accounts are right. -/
theorem run_informed (gauged : Gauged S params Fits After worth Full) (Keep : Simulation σ NodeState Packet → Prop)
    (flows : ∀ sim, Keep sim → ∀ event ∈ sim.event_queue, event.to_node < n ∧ Fits event.packet)
    (keeps : ∀ (sim : Simulation σ NodeState Packet) event rest sim', Keep sim → EventHeap.pop sim.event_queue = some (event,rest) →
      Simulation.process S { sim with event_queue := rest } event = .ok sim' → Keep sim')
    (same : sim.mechanism.strategy = params) (start : Keep sim) (informed : Informed n After worth Full [] sim) {count : Nat}
    (ran : sim.process_events S count = .ok sim') : Informed n After worth Full (arrivals S count sim) sim' := by
  have kept := process_events_past (fun past sim => Keep sim ∧ sim.mechanism.strategy = params ∧
    Informed n After worth Full past sim) [] (fun past sim event rest sim' inv popped processed => ?_) ⟨start,same,informed⟩ ran
  · exact kept.2.2
  · obtain ⟨keep,same,informed⟩ := inv
    have handled := process_ok processed
    obtain ⟨inside,fits⟩ := flows sim keep event ((LawfulEventHeap.pop_perm popped).mem_iff.mp List.mem_cons_self)
    refine ⟨keeps sim event rest sim' keep popped processed,?_,?_⟩
    · cases handled with
      | skipped time known same' =>
        rw [same']
        exact same
      | refused state state' e waits found received changed =>
        rw [changed]
        exact same
      | taken state state' useful forwards links waits found received changes =>
        rw [changes.mechanism]
        exact same
    · have kept : Informed n After worth Full past { sim with event_queue := rest } :=
        ⟨informed.proposer,informed.nodes,informed.useful⟩
      exact kept.process (same ▸ gauged) inside fits handled

end

/-! ### The coded strategies -/

section
variable {F : Type} [Field F] [DecidableEq F] [Random F] {N m : Nat} {Context Proof Error σ : Type}
  {S : IntegrityScheme F N Context Proof Error} {ctx : Context}
  {T : Strategy σ (CodedNodeState F N Context Proof) (SignedPacket F N Proof)} {start : σ}

/-- The node stores verified packets that span what all its verified packets span. -/
def Learnt (S : IntegrityScheme F N Context Proof Error) (ctx : Context) (m : Nat) (passed : List (SignedPacket F N Proof))
    (state : CodedNodeState F N Context Proof) : Prop :=
  state.ctx = ctx ∧ (∃ packets, Stored S ctx m packets state.decoder state.proofs) ∧
    coefficient_span state.decoder.coded_chunks = verified_span S ctx passed

open Classical in
theorem verified_span_snoc (passed : List (SignedPacket F N Proof)) (packet : SignedPacket F N Proof) :
    verified_span S ctx (passed ++ [packet]) =
      if Verifies S ctx packet then verified_span S ctx passed ⊔ Submodule.span F {packet.chunk.coefficients}
      else verified_span S ctx passed := by
  induction passed with
  | nil =>
    by_cases verified : Verifies S ctx packet
    · rw [if_pos verified,List.nil_append,verified_span_cons verified,verified_span_nil,sup_comm]
    · rw [if_neg verified,List.nil_append,verified_span_refused verified]
  | cons first rest ih =>
    rw [List.cons_append]
    by_cases good : Verifies S ctx first
    · rw [verified_span_cons good,verified_span_cons good,ih]
      split
      · rw [sup_assoc]
      · rfl
    · rw [verified_span_refused good,verified_span_refused good,ih]

theorem Learnt.rank {passed : List (SignedPacket F N Proof)} {state : CodedNodeState F N Context Proof}
    (learnt : Learnt S ctx m passed state) : state.decoder.rank = Module.finrank F (verified_span S ctx passed) := by
  obtain ⟨_,⟨packets,stored⟩,spans⟩ := learnt
  rw [← spans,BlockDecoder.rank_eq stored.sound,← List.length_map (f := CodedChunk.coefficients)]
  exact (BlockDecoder.innovative stored.sound).finrank_span.symm

/-- A packet is refused, or known already, or it is learnt. -/
theorem Learnt.receive (total : Total S (fun _ => ctx) m) {passed : List (SignedPacket F N Proof)}
    {state : CodedNodeState F N Context Proof} (learnt : Learnt S ctx m passed state) {packet : SignedPacket F N Proof}
    (wide : packet.chunk.w.v.length = m) :
    (¬Verifies S ctx packet ∧ ∃ e, state.receive S packet = .ok (state,.error e)) ∨
    (Verifies S ctx packet ∧ packet.chunk.coefficients ∈ verified_span S ctx passed ∧
      state.receive S packet = .ok (state,.ok false)) ∨
    (Verifies S ctx packet ∧ packet.chunk.coefficients ∉ verified_span S ctx passed ∧
      ∃ state', state.receive S packet = .ok (state',.ok true) ∧ Learnt S ctx m (passed ++ [packet]) state') := by
  obtain ⟨rfl,⟨packets,stored⟩,spans⟩ := learnt
  obtain ⟨checked,verified⟩ := total.verifies 0 packet wide
  rw [← spans]
  rcases coded_receive_spec stored packet wide verified with ⟨e,rfl,ran⟩ | ⟨rfl,known,ran⟩ | ⟨rfl,fresh,_,decoder',proofs',ran,grown⟩
  · refine .inl ⟨fun good => ?_,S.display e,by rw [CodedNodeState.receive,ran]; rfl⟩
    rw [Verifies,verified] at good
    cases Except.ok.inj good
  · exact .inr (.inl ⟨verified,known,by rw [CodedNodeState.receive,ran]; rfl⟩)
  · have good : Verifies S state.ctx packet := verified
    refine .inr (.inr ⟨good,fresh,⟨decoder',proofs',state.ctx⟩,by rw [CodedNodeState.receive,ran]; rfl,rfl,⟨_,grown⟩,?_⟩)
    rw [verified_span_snoc,if_pos good,← spans,grown.chunks,stored.chunks,List.map_append,coefficient_span,List.map_append,
      List.map_singleton,List.map_singleton,span_snoc,sup_comm]
    rfl

/-- Coded nodes are worth their rank. -/
theorem coded_gauged (coded : CodedStrategy T S start) (total : Total S (fun _ => ctx) m) (params : σ) :
    Gauged T params (fun packet => packet.chunk.w.v.length = m) (Learnt S ctx m)
      (fun passed => Module.finrank F (verified_span S ctx passed)) (fun passed => verified_span S ctx passed = ⊤) := by
  have known : ∀ {passed : List (SignedPacket F N Proof)} {packet : SignedPacket F N Proof}, Verifies S ctx packet →
      packet.chunk.coefficients ∈ verified_span S ctx passed →
      verified_span S ctx (passed ++ [packet]) = verified_span S ctx passed := by
    intro passed packet verified inside
    rw [verified_span_snoc,if_pos verified]
    simpa using inside
  have same : ∀ {passed : List (SignedPacket F N Proof)} {packet : SignedPacket F N Proof},
      ¬Verifies S ctx packet → verified_span S ctx (passed ++ [packet]) = verified_span S ctx passed := by
    intro passed packet refused
    rw [verified_span_snoc,if_neg refused]
  constructor
  · intro passed state packet state' r learnt wide ran
    rw [coded.receives] at ran
    rcases learnt.receive total wide with ⟨refused,e,took⟩ | ⟨verified,inside,took⟩ | ⟨verified,fresh,after,took,grown⟩
    · obtain ⟨rfl,rfl⟩ := ok_pair (ran.symm.trans took)
      rw [Learnt,same refused]
      exact ⟨learnt,by simp⟩
    · obtain ⟨rfl,rfl⟩ := ok_pair (ran.symm.trans took)
      rw [Learnt,known verified inside]
      exact ⟨learnt,by simp⟩
    · obtain ⟨rfl,rfl⟩ := ok_pair (ran.symm.trans took)
      refine ⟨grown,?_⟩
      rw [verified_span_snoc,if_pos verified,Submodule.finrank_sup_span_singleton fresh,if_pos rfl]
  · intro passed state packet state' e learnt wide ran
    rw [coded.receives] at ran
    rcases learnt.receive total wide with ⟨refused,_,_⟩ | ⟨_,_,took⟩ | ⟨_,_,_,took,_⟩
    · rw [same refused]
    · cases (ok_pair (ran.symm.trans took)).2
    · cases (ok_pair (ran.symm.trans took)).2
  · rintro passed state ⟨_,⟨packets,stored⟩,spans⟩
    rw [coded.completes,BlockDecoder.complete_iff_spans stored.sound,spans]
  · intro passed state packet learnt full
    have still : verified_span S ctx (passed ++ [packet]) = verified_span S ctx passed := by
      by_cases verified : Verifies S ctx packet
      · exact known verified (full ▸ Submodule.mem_top)
      · exact same verified
    rw [Learnt,still]
    exact ⟨learnt,rfl,full⟩

variable [EventHeap] [SliceRandom]

/-- After any number of events each receiver has the rank of what its verified packets span, it has decoded as
    soon as this is everything, and the useful packets are the sum of these ranks. -/
def CountsInformation (T : Strategy σ (CodedNodeState F N Context Proof) (SignedPacket F N Proof))
    (S : IntegrityScheme F N Context Proof Error) (start : σ) : Prop :=
  ∀ (mechanism : PropagationMechanism σ) (block : Block) (rng : Rng)
    (sim : Simulation σ (CodedNodeState F N Context Proof) (SignedPacket F N Proof)) (byte_len : Nat),
    mechanism.strategy = start → Simulation.start T mechanism block rng = .ok (sim,byte_len) →
    ∃ ctx, (∀ v state, 0 < v → sim.states[v]? = some state → state.ctx = ctx) ∧
      ∀ count, ∃ sim', sim.process_events T count = .ok sim' ∧
        (∀ v < mechanism.num_nodes, 0 < v → ∃ state, sim'.states[v]? = some state ∧
          state.decoder.rank = Module.finrank F (verified_span S ctx (packets_for v (arrivals T count sim))) ∧
          (sim'.decode_times[v]? = some none ↔ verified_span S ctx (packets_for v (arrivals T count sim)) ≠ ⊤)) ∧
        sim'.useful_packets = ∑ v ∈ Finset.Ico 1 mechanism.num_nodes,
          Module.finrank F (verified_span S ctx (packets_for v (arrivals T count sim))) ∧
        sim'.total_packets = (arrivals T count sim).length + sim'.event_queue.length

theorem coded_informed [LawfulEventHeap] [LawfulSliceRandom] (coded : CodedStrategy T S start) (some_chunk : 0 < N) :
    CountsInformation T S start := by
  intro mechanism block rng sim byte_len starts began
  obtain ⟨peers,packets,started⟩ := start_ok began
  obtain ⟨_,ctx,m,total,spreading⟩ := started_spreading coded starts started
  obtain ⟨before,proposer,after,proposed,_⟩ := started.proposed
  obtain ⟨_,_,_,_,_,fresh⟩ := coded.begins _ _ _ _ _ _ _ _ (starts ▸ proposed)
  have contexts : ∀ v state, 0 < v → sim.states[v]? = some state → state.ctx = ctx := fun v state above found =>
    (spreading.holds v state above found).1
  have proper : (⊥ : Submodule F (Fin N → F)) ≠ ⊤ := by
    have := Fin.pos_iff_nonempty.mp some_chunk
    exact bot_ne_top
  have informed : Informed mechanism.num_nodes (Learnt S ctx m) (fun passed => Module.finrank F (verified_span S ctx passed))
      (fun passed => verified_span S ctx passed = ⊤) [] sim := started_informed started (fun v state above found => by
      have same := fresh state (started.receivers v state above found)
      refine ⟨contexts v state above found,⟨[],?_⟩,?_⟩ <;> rw [same]
      · exact Stored.new
      · simp [BlockDecoder.new,coefficient_span]) (by simp) (by simpa using proper)
  refine ⟨ctx,contexts,fun count => ?_⟩
  obtain ⟨sim',ran,_,_⟩ := spreading.process_events coded total (started_queued started).2 count
  have known := run_informed (coded_gauged coded total sim.mechanism.strategy)
    (Spreading S ctx m (coefficient_span (packets.map SignedPacket.chunk)) mechanism.num_nodes mechanism.mesh_degree peers.length)
    (fun sim kept event member => ⟨kept.flow.targets event member,(kept.flow.genuine event member).1⟩) (fun sim event rest sim' kept popped processed => by
      obtain ⟨after,ran,kept'⟩ := kept.process coded total popped
      obtain rfl := Except.ok.inj (processed.symm.trans ran)
      exact kept') rfl spreading informed ran
  refine ⟨sim',ran,fun v inside above => ?_,known.useful,arrivals_length (started_queued started).2 ran⟩
  obtain ⟨⟨state,found,learnt⟩,decoded⟩ := known.nodes v inside above
  exact ⟨state,found,learnt.rank,decoded⟩

end

section
variable {G S PublicKey Signature G1 G2 : Type} [AddCommGroup G] [DecidableEq G] [Module Scalar G] [Space Scalar G]
  [HashToGroup G] [FixedCodec G] [Verifier PublicKey Signature] [Signer S PublicKey Signature] [FixedCodec Signature]
  [AddCommGroup G1] [Module Scalar G1] [AddCommGroup G2] [Module Scalar G2] [Space Scalar G2] [HashToGroup G2]
  [PairingGroup G1 G2] [FixedCodec G2] [FixedCodec Scalar] [LawfulScalarCodec] [Random Scalar] [FixedCodec UInt32]
  [FixedCodec UInt64] [BytesCodec] [Keccak256] [SliceRandom] {N : Nat}

variable (G S PublicKey Signature G1 G2) in
/-- With both coded strategies `useful_packets` counts what the receivers have learnt. -/
theorem useful_is_information [EventHeap] [LawfulEventHeap] [LawfulSliceRandom] (some_chunk : 0 < N) :
    (∀ (m : Nat) (signer : Pedersen.PedersenSigner S), CountsInformation (PedersenStrategy.strategy G S PublicKey Signature N)
      (Pedersen.PedersenScheme Scalar G PublicKey Signature N) (PedersenStrategy.new m signer)) ∧
    ∀ self, CountsInformation (BfkwStrategy.strategy G1 G2 N) (Bfkw.BfkwScheme Scalar G1 G2 N) self :=
  ⟨fun m signer => coded_informed (Information.pedersen_coded m signer) some_chunk,
    fun self => coded_informed (Information.bfkw_coded self) some_chunk⟩

end

section
open Rlnc.Reference Rlnc.Simulator

private def triangle {σ : Type} (strategy : σ) : PropagationMechanism σ := ⟨3,2,fun size => 10 + size,strategy⟩

/-- On a line no node is reached before its hops of ten. -/
theorem latency_bound_line : ∃ m, Metrics.run baseline 9 ⟨3,1,fun size => 10 + size,()⟩ (block_of [1,0,3]) (Stream'.const 0) =
      .ok (some m) ∧ m.nodes_decoded = 3 ∧
    (∀ v t, m.decode_times[v]? = some (some t) → 10 * dist (Link [[1],[2],[1]]) 0 v ≤ t ∧ t ≤ m.propagation_time) ∧
    10 * (Finset.range 3).sup (dist (Link [[1],[2],[1]]) 0) ≤ m.propagation_time := by
  obtain ⟨found,ran,count⟩ := map_ok (show (Metrics.run baseline 9 ⟨3,1,fun size => 10 + size,()⟩ (block_of [1,0,3])
    (Stream'.const 0)).map (fun found => found.map Metrics.SimMetrics.nodes_decoded) = .ok (some 3) by decide +kernel)
  obtain ⟨m,rfl,all⟩ := Option.map_eq_some_iff.mp count
  have mesh : Topology.random_mesh 3 1 (Stream'.const 0) = .ok (⟨[[1],[2],[1]],1⟩,Stream'.const 0) := rfl
  obtain ⟨_,each,last⟩ := latency_bound (d := 10) (fun size => Nat.le_add_right ..) mesh ran
  exact ⟨m,ran,all,each,last all⟩

/-- Of five packets two were useful: the receivers together know two dimensions. -/
theorem useful_is_information_triangle : ∃ sim byte_len sim' ctx,
    Simulation.start (BfkwStrategy.strategy Scalar Scalar 2) (triangle (BfkwStrategy.new 2 ⟨scalar 3,scalar 3⟩))
      (block_of [1,0,3]) (Stream'.const 1) = .ok (sim,byte_len) ∧
    sim.process_events (BfkwStrategy.strategy Scalar Scalar 2) 5 = .ok sim' ∧ sim'.useful_packets = 2 ∧
    ∑ v ∈ Finset.Ico 1 3, Module.finrank Scalar (verified_span (Bfkw.BfkwScheme Scalar Scalar Scalar 2) ctx
      (packets_for v (arrivals (BfkwStrategy.strategy Scalar Scalar 2) 5 sim))) = 2 := by
  have seen : ((Simulation.start (BfkwStrategy.strategy Scalar Scalar 2)
      (triangle (BfkwStrategy.new 2 ⟨scalar 3,scalar 3⟩)) (block_of [1,0,3]) (Stream'.const 1)) >>= fun began =>
        (began.1.process_events (BfkwStrategy.strategy Scalar Scalar 2) 5).map fun sim => sim.useful_packets) = .ok 2 := by
    decide +kernel
  obtain ⟨⟨sim,byte_len⟩,began,counted⟩ := (bind_ok _ _ _).mp seen
  obtain ⟨sim',ran,useful⟩ := map_ok counted
  obtain ⟨_,counts⟩ := useful_is_information Scalar Bytes Bytes UInt64 Scalar Scalar (N := 2) (by decide)
  obtain ⟨ctx,_,each⟩ := counts _ _ _ _ sim byte_len rfl began
  obtain ⟨sim'',ran',_,same,_⟩ := each 5
  obtain rfl := Except.ok.inj (ran.symm.trans ran')
  exact ⟨sim,byte_len,sim',ctx,began,ran,useful,same.symm.trans useful⟩

end

end Rlnc.Arrivals
