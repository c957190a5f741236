import Rlnc.Strategies
import Rlnc.Topology

/-!
The discrete-event simulation of one block. Packets travel along the mesh with a
delay that depends on their size; the loop takes one of the earliest events off the
queue, hands its packet to a node that has not decoded yet, and sends what the node
forwards. Whatever is sent, packets go to nodes, and the accounts have one entry for
each node (`Flow`).
-/
namespace Rlnc.Engine
open Rlnc.Panics Rlnc.Draws Rlnc.Blocks Rlnc.Protocols Rlnc.Strategies Rlnc.Topology
set_option linter.unusedSectionVars false

/-- Nanoseconds. -/
abbrev Duration := Nat

/-- A scheduled event: when it fires, the receiver node and the packet. -/
structure Event (Packet : Type) where
  time : Duration
  to_node : Nat
  packet : Packet

/-- `BinaryHeap<Reverse<Event>>`, where events are compared by their times. -/
class EventHeap where
  push : {Packet : Type} → List (Event Packet) → Event Packet → List (Event Packet)
  pop : {Packet : Type} → List (Event Packet) → Option (Event Packet × List (Event Packet))

/-- The heap holds what was pushed and gives one of the earliest events. -/
class LawfulEventHeap [EventHeap] : Prop where
  push_perm : ∀ {Packet : Type} (queue : List (Event Packet)) (event : Event Packet),
    (EventHeap.push queue event).Perm (event :: queue)
  pop_none : ∀ {Packet : Type} (queue : List (Event Packet)), EventHeap.pop queue = none ↔ queue = []
  pop_perm : ∀ {Packet : Type} {queue rest : List (Event Packet)} {event : Event Packet},
    EventHeap.pop queue = some (event,rest) → (event :: rest).Perm queue
  pop_earliest : ∀ {Packet : Type} {queue rest : List (Event Packet)} {event : Event Packet},
    EventHeap.pop queue = some (event,rest) → ∀ other ∈ rest, event.time ≤ other.time

/-- Simulation parameters around a strategy; the latency and the bandwidth stand in
    the delay of a packet of so many bytes. -/
structure PropagationMechanism (σ : Type) where
  num_nodes : Nat
  mesh_degree : Nat
  transmission_delay : Nat → Duration
  strategy : σ

/-- The variables of a run. -/
structure Simulation (σ NodeState Packet : Type) where
  mechanism : PropagationMechanism σ
  topo : Topology
  states : List NodeState
  upload : List Nat
  download : List Nat
  decode_times : List (Option Duration)
  has_forwarded : List Bool
  total_packets : Nat
  useful_packets : Nat
  redundant_packets : Nat
  event_queue : List (Event Packet)
  rng : Rng

section
variable {σ NodeState Packet : Type} (S : Strategy σ NodeState Packet) [EventHeap]

namespace Simulation

/-- Send a packet: account for its bytes and schedule its arrival. -/
def transmit (self : Simulation σ NodeState Packet) (sender : Nat) (time : Duration) (link : Nat × Packet) :
    Rust (Simulation σ NodeState Packet) := do
  let (peer,packet) := link
  let pkt_size := S.packet_size self.mechanism.strategy packet
  let delay := self.mechanism.transmission_delay pkt_size
  let upload ← add_at self.upload sender pkt_size
  let download ← add_at self.download peer pkt_size
  return { self with
    upload := upload,
    download := download,
    total_packets := self.total_packets + 1,
    event_queue := EventHeap.push self.event_queue ⟨time + delay,peer,packet⟩ }

/-- Send the packets that a node forwards to its peers. -/
def forward (self : Simulation σ NodeState Packet) (node : Nat) (state : NodeState) (time : Duration) :
    Rust (Simulation σ NodeState Packet) := do
  let has_forwarded ← set_at self.has_forwarded node true
  let peers ← index self.topo.neighbors node
  let (packets,rng) ← S.forward self.mechanism.strategy state peers.length self.rng
  (peers.zip packets).foldlM (fun self link => self.transmit S node time link)
    { self with has_forwarded := has_forwarded, rng := rng }

def forward_if (self : Simulation σ NodeState Packet) (forwards : Bool) (node : Nat) (state : NodeState)
    (time : Duration) : Rust (Simulation σ NodeState Packet) :=
  if forwards then self.forward S node state time else .ok self

def should_forward (self : Simulation σ NodeState Packet) (node : Nat) (rank_increased decodable : Bool) : Rust Bool :=
  match S.forward_condition self.mechanism.strategy with
  | .AfterDecode => .ok decodable
  | .OneShot => if rank_increased then do return !(← index self.has_forwarded node) else .ok false
  | .UntilDecode => .ok rank_increased

/-- An accepted packet is useful or redundant. -/
def count_packet (self : Simulation σ NodeState Packet) (rank_increased : Bool) : Simulation σ NodeState Packet :=
  if rank_increased then { self with useful_packets := self.useful_packets + 1 }
  else { self with redundant_packets := self.redundant_packets + 1 }

/-- One event of the loop. -/
def process (self : Simulation σ NodeState Packet) (event : Event Packet) : Rust (Simulation σ NodeState Packet) := do
  let decode_time ← index self.decode_times event.to_node
  if decode_time.isSome then
    return self
  let state ← index self.states event.to_node
  let (state,received) ← S.receive self.mechanism.strategy state event.packet
  let states ← set_at self.states event.to_node state
  let self := { self with states := states }
  match received with
  | .error _ => return { self with redundant_packets := self.redundant_packets + 1 }
  | .ok rank_increased =>
    let self := self.count_packet rank_increased
    let decodable := S.can_decode self.mechanism.strategy state
    let forwards ← self.should_forward S event.to_node rank_increased decodable
    let self ← self.forward_if S forwards event.to_node state event.time
    if decodable then
      let decode_times ← set_at self.decode_times event.to_node (some event.time)
      return { self with decode_times := decode_times }
    return self

/-- The loop, for at most this many events. -/
def process_events : Nat → Simulation σ NodeState Packet → Rust (Simulation σ NodeState Packet)
  | 0, self => .ok self
  | count + 1, self =>
    match EventHeap.pop self.event_queue with
    | none => .ok self
    | some (event,rest) => do
      let self ← process S { self with event_queue := rest } event
      process_events count self

/-- Everything before the loop: the topology, the node states and the proposer's packets. -/
def start [SliceRandom] (mechanism : PropagationMechanism σ) (block : Block) (rng : Rng) :
    Rust (Simulation σ NodeState Packet × Nat) := do
  let n := mechanism.num_nodes
  require (n > 0) "num_nodes must be > 0"
  let (topo,rng) ← Topology.random_mesh n mechanism.mesh_degree rng
  let proposer_neighbors ← index topo.neighbors 0
  let ((strategy,proposer_state,proposer_packets,byte_len),rng) ←
    S.init_proposer mechanism.strategy block proposer_neighbors.length rng
  let receivers ← (List.replicate (n - 1) ()).mapM (fun _ => S.init_receiver strategy)
  let decode_times ← set_at (List.replicate n none) 0 (some 0)
  let self : Simulation σ NodeState Packet :=
    { mechanism := { mechanism with strategy := strategy }
      topo := topo
      states := proposer_state :: receivers
      upload := List.replicate n 0
      download := List.replicate n 0
      decode_times := decode_times
      has_forwarded := List.replicate n false
      total_packets := 0
      useful_packets := 0
      redundant_packets := 0
      event_queue := []
      rng := rng }
  let self ← (proposer_neighbors.zip proposer_packets).foldlM (fun self link => self.transmit S 0 0 link) self
  return (self,byte_len)

end Simulation

/-! ### What travels -/

variable {S} {n : Nat} {Genuine : Packet → Prop} {sim : Simulation σ NodeState Packet}

/-- The accounts have one entry for each node, and every link and every queued packet
    leads to a node; all queued packets are genuine. -/
structure Flow (n : Nat) (Genuine : Packet → Prop) (sim : Simulation σ NodeState Packet) : Prop where
  neighbors : sim.topo.neighbors.length = n
  below : Topology.Below n sim.topo.neighbors
  upload : sim.upload.length = n
  download : sim.download.length = n
  forwarded : sim.has_forwarded.length = n
  targets : ∀ event ∈ sim.event_queue, event.to_node < n
  genuine : ∀ event ∈ sim.event_queue, Genuine event.packet

/-- The parameters, the topology and the nodes are the same. -/
structure SameNodes (sim sim' : Simulation σ NodeState Packet) : Prop where
  mechanism : sim'.mechanism = sim.mechanism
  topo : sim'.topo = sim.topo
  states : sim'.states = sim.states
  decode_times : sim'.decode_times = sim.decode_times

theorem SameNodes.refl (sim : Simulation σ NodeState Packet) : SameNodes sim sim := ⟨rfl,rfl,rfl,rfl⟩

theorem SameNodes.trans {sim sim' sim'' : Simulation σ NodeState Packet} (first : SameNodes sim sim')
    (second : SameNodes sim' sim'') : SameNodes sim sim'' :=
  ⟨second.mechanism.trans first.mechanism,second.topo.trans first.topo,second.states.trans first.states,
    second.decode_times.trans first.decode_times⟩

variable [LawfulEventHeap]

/-- Sending changes the accounts and the queue only. -/
theorem transmit_eq {sender : Nat} (inside : sender < sim.upload.length) (time : Duration) {peer : Nat} {packet : Packet}
    (target : peer < sim.download.length) :
    sim.transmit S sender time (peer,packet) = .ok { sim with
      upload := sim.upload.set sender (sim.upload[sender] + S.packet_size sim.mechanism.strategy packet),
      download := sim.download.set peer (sim.download[peer] + S.packet_size sim.mechanism.strategy packet),
      total_packets := sim.total_packets + 1,
      event_queue := EventHeap.push sim.event_queue
        ⟨time + sim.mechanism.transmission_delay (S.packet_size sim.mechanism.strategy packet),peer,packet⟩ } := by
  simp only [Simulation.transmit,add_at_of inside,add_at_of target,ok_bind,pure_eq]

/-- Sending a genuine packet to a node. -/
theorem Flow.transmit (flow : Flow n Genuine sim) {sender : Nat} (inside : sender < n) (time : Duration)
    {link : Nat × Packet} (target : link.1 < n) (genuine : Genuine link.2) :
    ∃ sim', sim.transmit S sender time link = .ok sim' ∧ Flow n Genuine sim' ∧ SameNodes sim sim' := by
  obtain ⟨peer,packet⟩ := link
  refine ⟨_,transmit_eq (flow.upload ▸ inside) time (flow.download ▸ target),?_,⟨rfl,rfl,rfl,rfl⟩⟩
  have queued : ∀ {arrival : Duration} (event : Event Packet), event ∈ EventHeap.push sim.event_queue ⟨arrival,peer,packet⟩ →
      event = ⟨arrival,peer,packet⟩ ∨ event ∈ sim.event_queue := fun event member =>
    List.mem_cons.mp ((LawfulEventHeap.push_perm _ _).mem_iff.mp member)
  refine ⟨flow.neighbors,flow.below,by simpa using flow.upload,by simpa using flow.download,flow.forwarded,?_,?_⟩
  · intro event member
    rcases queued event member with rfl | old
    · exact target
    · exact flow.targets event old
  · intro event member
    rcases queued event member with rfl | old
    · exact genuine
    · exact flow.genuine event old

/-- Sending genuine packets to the peers of a node. -/
theorem Flow.transmit_all (flow : Flow n Genuine sim) {sender : Nat} (inside : sender < n) (time : Duration)
    (links : List (Nat × Packet)) (good : ∀ link ∈ links, link.1 < n ∧ Genuine link.2) :
    ∃ sim', links.foldlM (fun sim link => sim.transmit S sender time link) sim = .ok sim' ∧
      Flow n Genuine sim' ∧ SameNodes sim sim' := by
  refine fold_keeps _ (fun _ sim' => Flow n Genuine sim' ∧ SameNodes sim sim') links sim ⟨flow,SameNodes.refl sim⟩ ?_
  rintro before link after sim' split ⟨flow',same⟩
  obtain ⟨target,genuine⟩ := good link (by rw [split]; simp)
  obtain ⟨sim'',ran,flow'',same'⟩ := flow'.transmit (S := S) inside time target genuine
  exact ⟨sim'',ran,flow'',same.trans same'⟩

theorem zip_links {peers : List Nat} {packets : List Packet} (below : ∀ p ∈ peers, p < n)
    (genuine : ∀ p ∈ packets, Genuine p) : ∀ link ∈ peers.zip packets, link.1 < n ∧ Genuine link.2 := by
  rintro ⟨peer,packet⟩ member
  obtain ⟨left,right⟩ := List.of_mem_zip member
  exact ⟨below peer left,genuine packet right⟩

omit [LawfulEventHeap] in
/-- What flows depends on the topology, the accounts and the queue only. -/
theorem Flow.congr {sim' : Simulation σ NodeState Packet} (flow : Flow n Genuine sim) (topo : sim'.topo = sim.topo)
    (upload : sim'.upload = sim.upload) (download : sim'.download = sim.download)
    (forwarded : sim'.has_forwarded.length = sim.has_forwarded.length)
    (queue : ∀ event ∈ sim'.event_queue, event ∈ sim.event_queue) : Flow n Genuine sim' := by
  refine ⟨?_,?_,?_,?_,?_,fun e member => flow.targets e (queue e member),fun e member => flow.genuine e (queue e member)⟩
  · rw [topo,flow.neighbors]
  · rw [topo]
    exact flow.below
  · rw [upload,flow.upload]
  · rw [download,flow.download]
  · rw [forwarded,flow.forwarded]

/-- A node forwards only if the packet was useful or it can decode. -/
theorem should_forward_spec {node : Nat} (inside : node < sim.has_forwarded.length) (useful decodable : Bool) :
    ∃ forwards, sim.should_forward S node useful decodable = .ok forwards ∧
      (forwards = true → useful = true ∨ decodable = true) := by
  unfold Simulation.should_forward
  cases S.forward_condition sim.mechanism.strategy with
  | AfterDecode => exact ⟨decodable,rfl,.inr⟩
  | UntilDecode => exact ⟨useful,rfl,.inl⟩
  | OneShot =>
    have read := index_of (List.getElem?_eq_getElem inside)
    cases useful with
    | false => exact ⟨false,rfl,by simp⟩
    | true => exact ⟨!sim.has_forwarded[node],by simp only [if_true,read,ok_bind,pure_eq],fun _ => .inl rfl⟩

end

end Rlnc.Engine
