import Rlnc.Events
import Rlnc.Simulator

/-!
The metrics of a simulation run, and how the accounts close. What is uploaded is
downloaded; but a packet that arrives at a node that holds the block already is
counted as sent and never classified, so that the packets add up exactly if no event
meets such a node (`accounts_close_iff`).
-/
namespace Rlnc.Metrics
open Rlnc.Panics Rlnc.Draws Rlnc.Blocks Rlnc.Strategies Rlnc.Topology Rlnc.Engine Rlnc.Events
set_option linter.unusedSectionVars false

/-- Metrics collected from a single block propagation simulation; the floating-point
    ratios and the percentiles are left out. -/
structure SimMetrics where
  strategy : String
  num_nodes : Nat
  mesh_degree : Nat
  block_size : Nat
  total_bytes_sent : Nat
  useful_bytes : Nat
  per_node_upload : List Nat
  per_node_download : List Nat
  max_upload : Nat
  decode_times : List (Option Duration)
  nodes_decoded : Nat
  propagation_time : Duration
  total_packets : Nat
  useful_packets : Nat
  redundant_packets : Nat
deriving DecidableEq

section
variable {σ NodeState Packet : Type} (S : Strategy σ NodeState Packet) [EventHeap]

/-- What is computed after the loop. -/
def metrics (self : Simulation σ NodeState Packet) (byte_len : Nat) : SimMetrics :=
  let decoded := self.decode_times.filterMap id
  let sorted_times := decoded.insertionSort (· ≤ ·)
  { strategy := S.name
    num_nodes := self.mechanism.num_nodes
    mesh_degree := self.mechanism.mesh_degree
    block_size := byte_len
    total_bytes_sent := self.upload.sum
    useful_bytes := byte_len * decoded.length
    per_node_upload := self.upload
    per_node_download := self.download
    max_upload := self.upload.max?.getD 0
    decode_times := self.decode_times
    nodes_decoded := decoded.length
    propagation_time := sorted_times.getLast?.getD 0
    total_packets := self.total_packets
    useful_packets := self.useful_packets
    redundant_packets := self.redundant_packets }

/-- `run`, for at most this many events: nothing is returned when some are left. -/
def run [SliceRandom] (count : Nat) (mechanism : PropagationMechanism σ) (block : Block) (rng : Rng) :
    Rust (Option SimMetrics) := do
  let (self,byte_len) ← Simulation.start S mechanism block rng
  let self ← self.process_events S count
  match EventHeap.pop self.event_queue with
  | none => return some (metrics S self byte_len)
  | some _ => return none

/-- The last of the sorted times is the latest. -/
theorem last_sorted {times : List Duration} {latest : Duration} (member : latest ∈ times)
    (bound : ∀ t ∈ times, t ≤ latest) : (times.insertionSort (· ≤ ·)).getLast?.getD 0 = latest := by
  have same : ∀ t, t ∈ times.insertionSort (· ≤ ·) ↔ t ∈ times := fun t => List.mem_insertionSort (· ≤ ·)
  have here := (same latest).mpr member
  rw [List.getLast?_eq_some_getLast (List.ne_nil_of_mem here),Option.getD_some]
  apply le_antisymm
  · exact bound _ ((same _).mp (List.getLast_mem _))
  · exact (List.pairwise_insertionSort (· ≤ ·) times).rel_getLast here

variable {S} [LawfulEventHeap] {sim sim' : Simulation σ NodeState Packet}

/-- A run that returns metrics has emptied the queue. -/
theorem run_ok [SliceRandom] {count : Nat} {mechanism : PropagationMechanism σ} {block : Block} {rng : Rng} {m : SimMetrics}
    (ran : run S count mechanism block rng = .ok (some m)) :
    ∃ sim byte_len sim', Simulation.start S mechanism block rng = .ok (sim,byte_len) ∧
      sim.process_events S count = .ok sim' ∧ sim'.event_queue = [] ∧ m = metrics S sim' byte_len := by
  simp only [run,bind_ok] at ran
  obtain ⟨⟨sim,byte_len⟩,started,sim',processed,ran⟩ := ran
  cases popped : EventHeap.pop sim'.event_queue with
  | some next =>
    simp only [popped] at ran
    cases ran
  | none =>
    simp only [popped] at ran
    obtain rfl := Option.some.inj (Except.ok.inj ran)
    exact ⟨sim,byte_len,sim',started,processed,(LawfulEventHeap.pop_none _).mp popped,rfl⟩

/-- What an event does to the number of queued packets. -/
theorem pop_length {event : Event Packet} {rest : List (Event Packet)}
    (popped : EventHeap.pop sim.event_queue = some (event,rest)) : sim.event_queue.length = rest.length + 1 :=
  (LawfulEventHeap.pop_perm popped).length_eq.symm

/-! ### Bytes -/

/-- What was uploaded was downloaded. -/
def Balanced (sim : Simulation σ NodeState Packet) : Prop := sim.upload.sum = sim.download.sum

theorem Balanced.posted {sender : Nat} {time : Duration} {links : List (Nat × Packet)} (balanced : Balanced sim)
    (posted : Posted S sender time links sim sim') : Balanced sim' := by
  rw [Balanced,posted.upload_sum,posted.download_sum,balanced]

theorem Balanced.handled {event : Event Packet} (balanced : Balanced sim) (handled : Handled S sim event sim') :
    Balanced sim' := by
  cases handled with
  | skipped time known same =>
    rw [same]
    exact balanced
  | refused state state' e waits found received changed =>
    rw [changed]
    exact balanced
  | taken state state' useful forwards links waits found received changes => exact balanced.posted changes.posted

theorem Balanced.process_events {count : Nat} (balanced : Balanced sim) (ran : sim.process_events S count = .ok sim') :
    Balanced sim' := by
  refine process_events_kept Balanced (fun sim event rest sim' kept _ handled => ?_) balanced ran
  have kept' : Balanced { sim with event_queue := rest } := kept
  exact kept'.handled handled

/-! ### Packets -/

variable (S) in
/-- Each of the first events meets a node that has not decoded. -/
def Unskipped : Nat → Simulation σ NodeState Packet → Prop
  | 0, _ => True
  | count + 1, sim => ∀ event rest, EventHeap.pop sim.event_queue = some (event,rest) →
      sim.decode_times[event.to_node]? = some none ∧
      ∀ sim', Simulation.process S { sim with event_queue := rest } event = .ok sim' → Unskipped count sim'

/-- The packets that are classified already, and those that may still be. -/
def classified (sim : Simulation σ NodeState Packet) : Nat :=
  sim.useful_packets + sim.redundant_packets + sim.event_queue.length

/-- A packet is classified unless it meets a node that has decoded. -/
theorem classified_handled {event : Event Packet} (handled : Handled S sim event sim') :
    (sim.decode_times[event.to_node]? = some none ∧
      ∃ sent, sim'.total_packets = sim.total_packets + sent ∧ classified sim' = classified sim + 1 + sent) ∨
    (sim.decode_times[event.to_node]? ≠ some none ∧ sim' = sim) := by
  cases handled with
  | skipped time known same =>
    refine .inr ⟨?_,same⟩
    rw [known]
    simp
  | refused state state' e waits found received changed =>
    refine .inl ⟨waits,0,?_⟩
    subst changed
    simp only [classified]
    omega
  | taken state state' useful forwards links waits found received changes =>
    refine .inl ⟨waits,links.length,changes.posted.total,?_⟩
    have queued := changes.posted.queue.length_eq
    rw [List.length_append,List.length_map] at queued
    simp only [classified,changes.useful_packets,changes.redundant_packets,queued]
    cases useful <;> simp <;> omega

/-- In a run the packets that were sent and are neither classified nor queued grow by those that
    meet a node that has decoded. -/
theorem lost_process_events {count lost : Nat} (ran : sim.process_events S count = .ok sim')
    (before : sim.total_packets = classified sim + lost) :
    ∃ lost', sim'.total_packets = classified sim' + lost' ∧ lost ≤ lost' ∧ (lost' = lost ↔ Unskipped S count sim) := by
  induction count generalizing sim lost with
  | zero =>
    obtain rfl : sim = sim' := Except.ok.inj ran
    exact ⟨lost,before,le_rfl,by simp [Unskipped]⟩
  | succ count ih =>
    cases popped : EventHeap.pop sim.event_queue with
    | none =>
      simp only [Simulation.process_events,popped] at ran
      obtain rfl : sim = sim' := Except.ok.inj ran
      exact ⟨lost,before,le_rfl,by simp [Unskipped,popped]⟩
    | some next =>
      obtain ⟨event,rest⟩ := next
      simp only [Simulation.process_events,popped,bind_ok] at ran
      obtain ⟨after,processed,ran⟩ := ran
      have shorter := pop_length popped
      have unskipped : Unskipped S (count + 1) sim ↔
          sim.decode_times[event.to_node]? = some none ∧ Unskipped S count after := by
        simp [Unskipped,popped,processed]
      rw [unskipped]
      rcases classified_handled (process_ok processed) with ⟨waits,sent,total,counted⟩ | ⟨decoded,rfl⟩
      · have total' : after.total_packets = sim.total_packets + sent := total
        simp only [classified] at before counted
        obtain ⟨lost',left,grown,kept⟩ := ih ran (show after.total_packets = classified after + lost by
          simp only [classified]
          omega)
        exact ⟨lost',left,grown,by rw [kept,and_iff_right waits]⟩
      · simp only [classified] at before
        obtain ⟨lost',left,grown,_⟩ := ih ran (show sim.total_packets = classified { sim with event_queue := rest } + (lost + 1) by
          simp only [classified]
          omega)
        exact ⟨lost',left,by omega,⟨fun same => by omega,fun both => absurd both.1 decoded⟩⟩

/-- When a run returns, all that is sent is uploaded and downloaded once; each packet is
    classified exactly if no packet arrives at a node that has decoded. -/
theorem accounts_close_iff [SliceRandom] (S : Strategy σ NodeState Packet) (mechanism : PropagationMechanism σ)
    (block : Block) (rng : Rng) (count : Nat) (m : SimMetrics) (ran : run S count mechanism block rng = .ok (some m)) :
    m.per_node_upload.sum = m.total_bytes_sent ∧ m.per_node_download.sum = m.total_bytes_sent ∧
      (m.total_packets = m.useful_packets + m.redundant_packets ↔
        ∀ sim byte_len, Simulation.start S mechanism block rng = .ok (sim,byte_len) → Unskipped S count sim) := by
  obtain ⟨sim,byte_len,sim',started,processed,empty,rfl⟩ := run_ok ran
  obtain ⟨peers,packets,start⟩ := start_ok started
  obtain ⟨states,before,posted,same⟩ := start.begun
  have opening : sim.total_packets = classified sim + 0 := by
    have queued := (Progress.started_queued start).2
    simp only [classified,same.useful,same.redundant,initial]
    omega
  obtain ⟨lost,total,_,unskipped⟩ := lost_process_events processed opening
  have balanced : Balanced sim' := by
    refine Balanced.process_events (Balanced.posted ?_ posted) processed
    simp [Balanced,initial]
  simp only [classified,empty,List.length_nil] at total
  refine ⟨rfl,balanced.symm,?_⟩
  have only : (∀ t len, Simulation.start S mechanism block rng = .ok (t,len) → Unskipped S count t) ↔ Unskipped S count sim := by
    constructor
    · exact fun all => all sim byte_len started
    · intro here t len again
      obtain ⟨rfl,_⟩ := ok_pair (started.symm.trans again)
      exact here
  rw [only,← unskipped]
  simp only [metrics]
  omega

end

section
open Rlnc.Reference Rlnc.Simulator

private def hops {σ : Type} (strategy : σ) : PropagationMechanism σ := ⟨3,1,fun _ => 5,strategy⟩

/-- On the path through three nodes the last node sends the block back: three packets are sent,
    two are useful, and none is redundant. -/
theorem returned_unclassified : (run baseline 3 (hops ()) (block_of [1,0,3]) (Stream'.const 0)).map
    (fun r => r.map (fun m => (m.total_packets,m.useful_packets,m.redundant_packets))) = .ok (some (3,2,0)) := by
  decide +kernel

theorem accounts_close_iff_three : ∃ m, run baseline 3 (hops ()) (block_of [1,0,3]) (Stream'.const 0) = .ok (some m) ∧
    m.per_node_upload.sum = m.total_bytes_sent ∧ m.per_node_download.sum = m.total_bytes_sent ∧
    (m.total_packets = m.useful_packets + m.redundant_packets ↔ ∀ sim byte_len,
      Simulation.start baseline (hops ()) (block_of [1,0,3]) (Stream'.const 0) = .ok (sim,byte_len) → Unskipped baseline 3 sim) := by
  obtain ⟨r,ran,returned⟩ := map_ok (show (run baseline 3 (hops ()) (block_of [1,0,3]) (Stream'.const 0)).map Option.isSome =
    .ok true by decide +kernel)
  obtain ⟨m,rfl⟩ := Option.isSome_iff_exists.mp returned
  exact ⟨m,ran,accounts_close_iff baseline (hops ()) _ _ 3 m ran⟩

end

end Rlnc.Metrics
