import Rlnc.Protocols

/-!
The node actor. A receiver handles the blocks in order: it waits for the
announcement of its current block, then takes data packets until the block is
complete, and keeps the messages of later blocks in a buffer. `Receiver` is the
actor with the counter of its loop, a log of what it did and the panic that has
stopped it, if any; what was done before a panic stays in the log.
-/
namespace Rlnc.Actor
open Rlnc.Panics Rlnc.Wire Rlnc.Draws Rlnc.Blocks Rlnc.Protocols
set_option linter.unusedSectionVars false

inductive ActorState
  | Init (n : Nat)
  | Decoding (n : Nat)
deriving DecidableEq, Repr

def ActorState.current_block : ActorState → Nat
  | .Init n => n
  | .Decoding n => n

/-- A message with its channel and block number. -/
abbrev Item := Channel × Nat × Bytes

/-- The buffered messages of all blocks, in the order they came. -/
abbrev Buffer := List Item

/-- The messages of one block, and the buffer without them. -/
def Buffer.remove (buffer : Buffer) (n : Nat) : List Item × Buffer :=
  (buffer.filter (fun item => item.2.1 = n),buffer.filter (fun item => item.2.1 ≠ n))

/-- The messages of one channel. -/
def on_channel (channel : Channel) (items : List Item) : List Item := items.filter (fun item => item.1 = channel)

theorem remove_length (buffer : Buffer) (n : Nat) :
    (buffer.remove n).1.length + (buffer.remove n).2.length = buffer.length := by
  simp only [Buffer.remove,ne_eq,decide_not]
  exact (List.length_eq_length_filter_add _).symm

theorem on_channel_length (channel : Channel) (items : List Item) : (on_channel channel items).length ≤ items.length :=
  List.length_filter_le _ _

theorem by_channel_length (items : List Item) :
    (on_channel .Announce items ++ on_channel .Data items).length = items.length := by
  induction items with
  | nil => rfl
  | cons item items ih =>
    obtain ⟨channel,n,data⟩ := item
    cases channel <;> simp [on_channel] at ih ⊢ <;> omega

structure NodeActor (σ K : Type) where
  protocol : σ
  peers : List K
  mesh_degree : Nat
  rng : Rng
  state : ActorState
  buffer : Buffer
  forwarded : Bool

/-- What an actor does: it hands a message to the protocol, broadcasts an
    announcement, sends a batch of packets to peers, or decodes a block. -/
inductive Event (σ K : Type)
  | ingest (before : σ) (channel : Channel) (n : Nat) (data : Bytes)
  | announced (message : Bytes)
  | forwarded (n : Nat) (batch : List (K × Bytes))
  | decoded (n : Nat) (block : Block)

structure Receiver (σ K : Type) extends NodeActor σ K where
  decoded_count : Nat
  log : List (Event σ K)
  panicked : Option Panic

/-- A payload behind its block number. -/
def message (n : Nat) (payload : Bytes) : Bytes := to_be 8 n ++ payload

theorem message_number {n : Nat} (small : n < 2 ^ 64) (payload : Bytes) :
    of_be ((message n payload).take 8) = n ∧ (message n payload).drop 8 = payload := by
  have long := to_be_length 8 n
  refine ⟨?_,List.drop_left' long⟩
  rw [message,List.take_left' long]
  exact of_be_to_be_of_lt small

section
variable {σ K : Type} [DecidableEq K] [SliceRandom]

namespace NodeActor

def new (protocol : σ) (peers : List K) (mesh_degree : Nat) (rng : Rng) : NodeActor σ K :=
  ⟨protocol,peers,mesh_degree,rng,.Init 0,[],false⟩

/-- Select `mesh_degree` random peers, optionally excluding the sender. -/
def select_peers (self : NodeActor σ K) (exclude : Option K) : List K × NodeActor σ K :=
  let candidates := self.peers.filter (fun p => exclude ≠ some p)
  ((SliceRandom.shuffle self.rng.head candidates).take self.mesh_degree,{ self with rng := self.rng.tail })

end NodeActor

namespace Receiver
variable (P : Protocol σ)

def new (actor : NodeActor σ K) : Receiver σ K := ⟨actor,0,[],none⟩

def record (self : Receiver σ K) (event : Event σ K) : Receiver σ K := { self with log := self.log ++ [event] }

def panic (self : Receiver σ K) (p : Panic) : Receiver σ K := { self with panicked := some p }

@[simp] theorem record_actor (self : Receiver σ K) (event : Event σ K) :
    (self.record event).toNodeActor = self.toNodeActor := rfl
@[simp] theorem record_count (self : Receiver σ K) (event : Event σ K) :
    (self.record event).decoded_count = self.decoded_count := rfl
@[simp] theorem record_log (self : Receiver σ K) (event : Event σ K) : (self.record event).log = self.log ++ [event] := rfl
@[simp] theorem record_panicked (self : Receiver σ K) (event : Event σ K) :
    (self.record event).panicked = self.panicked := rfl
@[simp] theorem panic_actor (self : Receiver σ K) (p : Panic) : (self.panic p).toNodeActor = self.toNodeActor := rfl
@[simp] theorem panic_count (self : Receiver σ K) (p : Panic) : (self.panic p).decoded_count = self.decoded_count := rfl
@[simp] theorem panic_log (self : Receiver σ K) (p : Panic) : (self.panic p).log = self.log := rfl
@[simp] theorem panic_panicked (self : Receiver σ K) (p : Panic) : (self.panic p).panicked = some p := rfl

/-- An announcement while waiting for it. -/
def on_announce (self : Receiver σ K) (n : Nat) (data : Bytes) : Receiver σ K × List Item :=
  let called := self.record (.ingest self.protocol .Announce n data)
  match P.ingest self.protocol .Announce n data with
  | .error p => (called.panic p,[])
  | .ok (protocol,.ok true) =>
    let (msgs,buffer) := self.buffer.remove n
    (({ called with protocol, state := .Decoding n, buffer }).record (.announced (message n data)),on_channel .Data msgs)
  | .ok (protocol,_) => ({ called with protocol },[])

def should_forward (self : Receiver σ K) : Bool :=
  match P.forward_condition self.protocol with
  | .AfterDecode => P.is_complete self.protocol && !self.forwarded
  | .UntilDecode => !P.is_complete self.protocol
  | .OneShot => !self.forwarded

/-- Packets are dropped when there are fewer targets than packets. -/
def forward (self : Receiver σ K) (n : Nat) (sender : Option K) : Receiver σ K :=
  let self := { self with forwarded := true }
  match P.recode self.protocol self.mesh_degree self.rng with
  | .error p => self.panic p
  | .ok (packets,rng) =>
    let (targets,actor) := { self.toNodeActor with rng }.select_peers sender
    { self with toNodeActor := actor }.record (.forwarded n (targets.zip (packets.map (message n))))

/-- Decode, and advance to the next block with its buffered messages,
    announcements first. -/
def finish (self : Receiver σ K) (n : Nat) : Receiver σ K × List Item :=
  match P.decode self.protocol with
  | .error p => (self.panic p,[])
  | .ok (block,protocol) =>
    let self := ({ self with protocol }).record (.decoded n block)
    if 2 ^ 64 ≤ self.decoded_count + 1 then (self.panic .overflow,[])
    else
      let self := { self with decoded_count := self.decoded_count + 1 }
      if 2 ^ 64 ≤ n + 1 then (self.panic .overflow,[])
      else
        let next := n + 1
        let (msgs,buffer) := self.buffer.remove next
        ({ self with protocol := P.reset self.protocol, forwarded := false, state := .Init next, buffer },
          on_channel .Announce msgs ++ on_channel .Data msgs)

/-- A data packet that raised the rank. -/
def on_useful (self : Receiver σ K) (n : Nat) (sender : Option K) : Receiver σ K × List Item :=
  let self := if self.should_forward P then self.forward P n sender else self
  if self.panicked.isSome then (self,[])
  else if P.is_complete self.protocol then self.finish P n
  else (self,[])

/-- A data packet while decoding. -/
def on_data (self : Receiver σ K) (n : Nat) (data : Bytes) (sender : Option K) : Receiver σ K × List Item :=
  let called := self.record (.ingest self.protocol .Data n data)
  match P.ingest self.protocol .Data n data with
  | .error p => (called.panic p,[])
  | .ok (protocol,.ok true) => { called with protocol }.on_useful P n sender
  | .ok (protocol,_) => ({ called with protocol },[])

/-- One message of the current block; what it adds to the work queue. -/
def process (self : Receiver σ K) (channel : Channel) (data : Bytes) (sender : Option K) : Receiver σ K × List Item :=
  match self.state, channel with
  | .Init n, .Announce => self.on_announce P n data
  | .Init n, .Data => ({ self with buffer := self.buffer ++ [(.Data,n,data)] },[])
  | .Decoding _, .Announce => (self,[])
  | .Decoding n, .Data => self.on_data P n data sender

/-- The work queue; only the message it starts with has a sender. -/
def work_loop (self : Receiver σ K) (work : List Item) (sender : Option K) : Nat → Receiver σ K
  | 0 => self
  | fuel + 1 =>
    match work with
    | [] => self
    | (channel,bn,data) :: work =>
      if bn ≠ self.state.current_block then self.work_loop work sender fuel
      else
        let (self,more) := self.process P channel data sender
        if self.panicked.isSome then self else self.work_loop (work ++ more) none fuel

/-- Enough rounds for the work queue and the buffer (`drain_cons`). -/
def rounds (self : Receiver σ K) (work : List Item) : Nat :=
  let total := work.length + self.buffer.length
  total * (total + 1) + work.length

def drain (self : Receiver σ K) (work : List Item) (sender : Option K) : Receiver σ K :=
  self.work_loop P work sender (self.rounds work)

def route (self : Receiver σ K) (channel : Channel) (block_num : Nat) (payload : Bytes) (sender : Option K) :
    Receiver σ K :=
  let current := self.state.current_block
  if block_num < current then self
  else if block_num > current then { self with buffer := self.buffer ++ [(channel,block_num,payload)] }
  else self.drain P [(channel,block_num,payload)] sender

/-- One turn of `run_receiver`. -/
def receive (num_blocks : Nat) (self : Receiver σ K) (sender : K) (channel : Channel) (msg : Bytes) : Receiver σ K :=
  if self.panicked.isSome ∨ num_blocks ≤ self.decoded_count then self
  else if msg.length < 8 then self
  else self.route P channel (of_be (msg.take 8)) (msg.drop 8) (some sender)

/-! ### What each function does, case by case -/

theorem on_announce_panics (self : Receiver σ K) {n : Nat} {data : Bytes} {p : Panic}
    (ran : P.ingest self.protocol .Announce n data = .error p) :
    self.on_announce P n data = ((self.record (.ingest self.protocol .Announce n data)).panic p,[]) := by
  simp only [on_announce,ran]

theorem on_announce_accepts (self : Receiver σ K) {n : Nat} {data : Bytes} {protocol : σ}
    (ran : P.ingest self.protocol .Announce n data = .ok (protocol,.ok true)) :
    self.on_announce P n data =
      (({ self.record (.ingest self.protocol .Announce n data) with
            protocol, state := .Decoding n, buffer := (self.buffer.remove n).2 } : Receiver σ K).record
          (.announced (message n data)),on_channel .Data (self.buffer.remove n).1) := by
  simp only [on_announce,ran]

theorem on_announce_refuses (self : Receiver σ K) {n : Nat} {data : Bytes} {protocol : σ} {r : Except String Bool}
    (ran : P.ingest self.protocol .Announce n data = .ok (protocol,r)) (refused : r ≠ .ok true) :
    self.on_announce P n data = ({ self.record (.ingest self.protocol .Announce n data) with protocol },[]) := by
  simp only [on_announce,ran]

theorem on_data_panics (self : Receiver σ K) {n : Nat} {data : Bytes} (sender : Option K) {p : Panic}
    (ran : P.ingest self.protocol .Data n data = .error p) :
    self.on_data P n data sender = ((self.record (.ingest self.protocol .Data n data)).panic p,[]) := by
  simp only [on_data,ran]

theorem on_data_useful (self : Receiver σ K) {n : Nat} {data : Bytes} (sender : Option K) {protocol : σ}
    (ran : P.ingest self.protocol .Data n data = .ok (protocol,.ok true)) :
    self.on_data P n data sender =
      ({ self.record (.ingest self.protocol .Data n data) with protocol } : Receiver σ K).on_useful P n sender := by
  simp only [on_data,ran]

theorem on_data_refuses (self : Receiver σ K) {n : Nat} {data : Bytes} (sender : Option K) {protocol : σ}
    {r : Except String Bool} (ran : P.ingest self.protocol .Data n data = .ok (protocol,r)) (refused : r ≠ .ok true) :
    self.on_data P n data sender = ({ self.record (.ingest self.protocol .Data n data) with protocol },[]) := by
  simp only [on_data,ran]

theorem forward_spec (self : Receiver σ K) (n : Nat) (sender : Option K) :
    (∃ p, P.recode self.protocol self.mesh_degree self.rng = .error p ∧
      self.forward P n sender = ({ self with forwarded := true } : Receiver σ K).panic p) ∨
    ∃ (packets : List Bytes) (rng : Rng) (targets : List K), P.recode self.protocol self.mesh_degree self.rng = .ok (packets,rng) ∧
      self.forward P n sender = ({ self with forwarded := true, rng := rng.tail } : Receiver σ K).record
        (.forwarded n (targets.zip (packets.map (message n)))) := by
  unfold forward
  cases recoded : P.recode self.protocol self.mesh_degree self.rng with
  | error p => exact .inl ⟨p,rfl,by simp only [recoded]⟩
  | ok result => exact .inr ⟨result.1,result.2,_,rfl,by simp only [recoded]; rfl⟩

theorem finish_panics (self : Receiver σ K) (n : Nat) {p : Panic} (decoded : P.decode self.protocol = .error p) :
    self.finish P n = (self.panic p,[]) := by
  simp only [finish,decoded]

/-- The block was decoded, but there is no next block number. -/
theorem finish_overflows (self : Receiver σ K) (n : Nat) {block : Block} {protocol : σ}
    (decoded : P.decode self.protocol = .ok (block,protocol))
    (last : 2 ^ 64 ≤ self.decoded_count + 1 ∨ 2 ^ 64 ≤ n + 1) :
    ∃ count, self.finish P n =
      ((({ self with protocol, decoded_count := count } : Receiver σ K).record (.decoded n block)).panic .overflow,[]) := by
  simp only [finish,decoded]
  by_cases counted : 2 ^ 64 ≤ self.decoded_count + 1
  · exact ⟨self.decoded_count,if_pos counted⟩
  · have last : 2 ^ 64 ≤ n + 1 := by omega
    exact ⟨self.decoded_count + 1,(if_neg counted).trans (if_pos last)⟩

/-- The block was decoded, and the receiver waits for the next one. -/
theorem finish_advances (self : Receiver σ K) (n : Nat) {block : Block} {protocol : σ}
    (decoded : P.decode self.protocol = .ok (block,protocol)) (counted : self.decoded_count + 1 < 2 ^ 64)
    (more : n + 1 < 2 ^ 64) :
    self.finish P n =
      (({ self with
            protocol := P.reset protocol, forwarded := false, state := .Init (n + 1),
            buffer := (self.buffer.remove (n + 1)).2, decoded_count := self.decoded_count + 1 } : Receiver σ K).record
          (.decoded n block),
        on_channel .Announce (self.buffer.remove (n + 1)).1 ++ on_channel .Data (self.buffer.remove (n + 1)).1) := by
  simp only [finish,decoded]
  exact (if_neg (not_le.mpr counted)).trans (if_neg (not_le.mpr more))

/-! ### The work queue is drained -/

theorem forward_buffer (self : Receiver σ K) (n : Nat) (sender : Option K) :
    (self.forward P n sender).buffer = self.buffer := by
  rcases self.forward_spec P n sender with ⟨p,_,sent⟩ | ⟨packets,rng,targets,_,sent⟩ <;> rw [sent] <;> rfl

theorem finish_size (self : Receiver σ K) (n : Nat) :
    (self.finish P n).2.length + (self.finish P n).1.buffer.length ≤ self.buffer.length := by
  cases decoded : P.decode self.protocol with
  | error p => rw [self.finish_panics P n decoded]; simp [panic]
  | ok result =>
    by_cases more : self.decoded_count + 1 < 2 ^ 64 ∧ n + 1 < 2 ^ 64
    · rw [self.finish_advances P n decoded more.1 more.2]
      simp only [by_channel_length]
      exact (remove_length self.buffer (n + 1)).le
    · obtain ⟨count,stopped⟩ := self.finish_overflows P n decoded (by omega)
      rw [stopped]
      simp [panic,record]

theorem on_useful_size (self : Receiver σ K) (n : Nat) (sender : Option K) :
    (self.on_useful P n sender).2.length + (self.on_useful P n sender).1.buffer.length ≤ self.buffer.length := by
  unfold on_useful
  have kept : (if self.should_forward P then self.forward P n sender else self).buffer = self.buffer := by
    split
    · exact forward_buffer P self n sender
    · rfl
  generalize (if self.should_forward P then self.forward P n sender else self) = sent at kept
  simp only
  split
  · simp [kept]
  · split
    · rw [← kept]; exact finish_size P sent n
    · simp [kept]

/-- A message adds no more to the queue than it takes from the buffer, or moves
    to the buffer itself. -/
theorem process_size (self : Receiver σ K) (channel : Channel) (data : Bytes) (sender : Option K) :
    ((self.process P channel data sender).2 = [] ∧
      (self.process P channel data sender).1.buffer.length = self.buffer.length + 1) ∨
    (self.process P channel data sender).2.length + (self.process P channel data sender).1.buffer.length ≤
      self.buffer.length := by
  cases waiting : self.state with
  | Init n =>
    cases channel with
    | Data => left; simp [process,waiting]
    | Announce =>
      right
      simp only [process,waiting,on_announce]
      split
      · simp [panic,record]
      · have split := remove_length self.buffer n
        have part := on_channel_length .Data (self.buffer.remove n).1
        simp only [record]
        omega
      · simp [record]
  | Decoding n =>
    right
    cases channel with
    | Announce => simp [process,waiting]
    | Data =>
      simp only [process,waiting,on_data]
      split
      · simp [panic,record]
      · exact on_useful_size P _ n sender
      · simp [record]

theorem rounds_skip (self : Receiver σ K) (item : Item) (work : List Item) :
    self.rounds work < self.rounds (item :: work) := by
  simp only [rounds,List.length_cons]
  nlinarith

theorem rounds_process (self : Receiver σ K) (item : Item) (work : List Item) (channel : Channel) (data : Bytes)
    (sender : Option K) :
    (self.process P channel data sender).1.rounds (work ++ (self.process P channel data sender).2) <
      self.rounds (item :: work) := by
  simp only [rounds,List.length_append,List.length_cons]
  rcases process_size P self channel data sender with ⟨empty,held⟩ | less
  · rw [empty,held,List.length_nil]
    have same : work.length + 0 + (self.buffer.length + 1) = work.length + 1 + self.buffer.length := by omega
    rw [same]
    omega
  · nlinarith

theorem work_loop_enough (self : Receiver σ K) (work : List Item) (sender : Option K) (fuel : Nat)
    (enough : self.rounds work ≤ fuel) : self.work_loop P work sender fuel = self.drain P work sender := by
  suffices any : ∀ (bound : Nat) (self : Receiver σ K) (work : List Item) (sender : Option K) (fuel fuel' : Nat),
      self.rounds work ≤ bound → self.rounds work ≤ fuel → self.rounds work ≤ fuel' →
      self.work_loop P work sender fuel = self.work_loop P work sender fuel' from
    any (self.rounds work) self work sender fuel _ le_rfl enough le_rfl
  intro bound
  induction bound with
  | zero =>
    intro self work sender fuel fuel' small _ _
    obtain rfl : work = [] := List.length_eq_zero_iff.mp (by simp only [rounds] at small; omega)
    cases fuel <;> cases fuel' <;> rfl
  | succ bound ih =>
    intro self work sender fuel fuel' small first second
    cases work with
    | nil => cases fuel <;> cases fuel' <;> rfl
    | cons item work =>
      have skip := self.rounds_skip item work
      obtain ⟨channel,bn,data⟩ := item
      have step := self.rounds_process P (channel,bn,data) work channel data sender
      obtain ⟨fuel,rfl⟩ : ∃ k, fuel = k + 1 := ⟨fuel - 1,by omega⟩
      obtain ⟨fuel',rfl⟩ : ∃ k, fuel' = k + 1 := ⟨fuel' - 1,by omega⟩
      simp only [work_loop]
      rw [ih self work sender fuel fuel' (by omega) (by omega) (by omega),
        ih _ _ none fuel fuel' (by omega) (by omega) (by omega)]

@[simp] theorem drain_nil (self : Receiver σ K) (sender : Option K) : self.drain P [] sender = self := by
  unfold drain
  cases self.rounds [] <;> rfl

theorem drain_cons (self : Receiver σ K) (channel : Channel) (bn : Nat) (data : Bytes) (work : List Item)
    (sender : Option K) :
    self.drain P ((channel,bn,data) :: work) sender =
      if bn ≠ self.state.current_block then self.drain P work sender
      else
        if (self.process P channel data sender).1.panicked.isSome then (self.process P channel data sender).1
        else (self.process P channel data sender).1.drain P (work ++ (self.process P channel data sender).2) none := by
  have skip := self.rounds_skip (channel,bn,data) work
  have step := self.rounds_process P (channel,bn,data) work channel data sender
  rw [drain]
  obtain ⟨fuel,known⟩ : ∃ k, self.rounds ((channel,bn,data) :: work) = k + 1 := ⟨_,(Nat.sub_add_cancel (by omega)).symm⟩
  rw [known,work_loop,work_loop_enough P self work sender fuel (by omega)]
  rw [← work_loop_enough P (self.process P channel data sender).1 _ none fuel (by omega)]

/-- What holds of the receiver and its queue at the start, and is kept by each
    message, holds when the queue is empty; or the receiver panicked. -/
theorem drain_keeps (Inv : Receiver σ K → List Item → Prop) (Stopped : Receiver σ K → Prop)
    (skip : ∀ self channel bn data work, bn ≠ self.state.current_block → Inv self ((channel,bn,data) :: work) →
      Inv self work)
    (step : ∀ self channel bn data work sender, bn = self.state.current_block → Inv self ((channel,bn,data) :: work) →
      if (self.process P channel data sender).1.panicked.isSome then Stopped (self.process P channel data sender).1
      else Inv (self.process P channel data sender).1 (work ++ (self.process P channel data sender).2))
    (self : Receiver σ K) (work : List Item) (sender : Option K) (alive : self.panicked = none) (start : Inv self work) :
    (self.drain P work sender).panicked = none ∧ Inv (self.drain P work sender) [] ∨
      Stopped (self.drain P work sender) := by
  induction bound : self.rounds work using Nat.strong_induction_on generalizing self work sender with
  | _ bound ih =>
    cases work with
    | nil => rw [drain_nil]; exact .inl ⟨alive,start⟩
    | cons item work =>
      have shorter := self.rounds_skip item work
      obtain ⟨channel,bn,data⟩ := item
      have processed := self.rounds_process P (channel,bn,data) work channel data sender
      rw [drain_cons]
      by_cases current : bn = self.state.current_block
      · have kept := step self channel bn data work sender current start
        rw [if_neg (not_not.mpr current)]
        split at kept
        · rename_i stopped
          rw [if_pos stopped]
          exact .inr kept
        · rename_i goes
          rw [if_neg goes]
          exact ih _ (by omega) _ _ none (by simpa using goes) kept rfl
      · rw [if_pos current]
        exact ih _ (by omega) self work sender alive (skip self channel bn data work current start) rfl

end Receiver

end

/-! ### The proposer -/

/-- Generate a random block of the given size. -/
def generate_random_block (size_bytes block_num : Nat) (rng : Rng) : Block × Rng :=
  let transactions := (random_bytes size_bytes rng).1
  let rng := (random_bytes size_bytes rng).2
  let parent : B256 := ⟨(random_bytes 32 rng).1,random_bytes_length 32 rng⟩
  let rng := (random_bytes 32 rng).2
  let state_root : B256 := ⟨(random_bytes 32 rng).1,random_bytes_length 32 rng⟩
  let rng := (random_bytes 32 rng).2
  (⟨parent,UInt64.ofNat block_num,1700000000,15000000,30000000,state_root,transactions⟩,rng)

/-- What the proposer sends for a block: the announcement to all peers, and a
    packet to each of some. -/
structure Proposed (K : Type) where
  block : Block
  ann_msg : Bytes
  packets : List (K × Bytes)

section
variable {σ K : Type} [DecidableEq K] [SliceRandom]

/-- Between blocks the proposer resets its protocol. -/
def between_blocks (P : Protocol σ) (self : NodeActor σ K) (block_num : Nat) : NodeActor σ K :=
  if block_num > 0 then { self with protocol := P.reset self.protocol, forwarded := false } else self

/-- One turn of `run_proposer`. -/
def propose_block (P : Protocol σ) (block_size : Nat) (self : NodeActor σ K) (block_num : Nat) :
    Rust (NodeActor σ K × Proposed K) := do
  let self := between_blocks P self block_num
  let (block,rng) := generate_random_block block_size block_num self.rng
  let ((protocol,proposal),rng) ← P.propose self.protocol block self.mesh_degree rng
  let self := { self with protocol, rng, state := .Decoding block_num }
  let ann_msg := message block_num proposal.announcement
  let (targets,self) := self.select_peers none
  return (self,⟨block,ann_msg,targets.zip (proposal.packets.map (message block_num))⟩)

theorem between_blocks_protocol (P : Protocol σ) (self : NodeActor σ K) (block_num : Nat) :
    (between_blocks P self block_num).protocol = self.protocol ∨
      (between_blocks P self block_num).protocol = P.reset self.protocol := by
  unfold between_blocks
  split
  · exact .inr rfl
  · exact .inl rfl

theorem generate_random_block_number (size_bytes block_num : Nat) (rng : Rng) :
    (generate_random_block size_bytes block_num rng).1.number = UInt64.ofNat block_num := rfl

theorem generate_random_block_size (size_bytes block_num : Nat) (rng : Rng) :
    (generate_random_block size_bytes block_num rng).1.transactions.length = size_bytes :=
  random_bytes_length size_bytes rng

/-- The proposer sends what the protocol proposes for its random block. -/
theorem propose_block_ok {P : Protocol σ} {block_size block_num : Nat} {self next : NodeActor σ K} {sent : Proposed K}
    (ran : propose_block P block_size self block_num = .ok (next,sent)) :
    ∃ proposal rest, P.propose (between_blocks P self block_num).protocol sent.block
        (between_blocks P self block_num).mesh_degree
        (generate_random_block block_size block_num (between_blocks P self block_num).rng).2 =
          .ok ((next.protocol,proposal),rest) ∧
      sent.block = (generate_random_block block_size block_num (between_blocks P self block_num).rng).1 ∧
      sent.ann_msg = message block_num proposal.announcement ∧
      ∀ entry ∈ sent.packets, ∃ payload ∈ proposal.packets, entry.2 = message block_num payload := by
  simp only [propose_block,bind_ok] at ran
  obtain ⟨⟨⟨protocol,proposal⟩,rest⟩,proposed,ran⟩ := ran
  simp only [NodeActor.select_peers,pure_eq,Except.ok.injEq,Prod.mk.injEq] at ran
  obtain ⟨rfl,rfl⟩ := ran
  refine ⟨proposal,rest,proposed,rfl,rfl,?_⟩
  intro entry member
  obtain ⟨payload,listed,same⟩ := List.mem_map.mp (List.of_mem_zip member).2
  exact ⟨payload,listed,same.symm⟩

end

end Rlnc.Actor
