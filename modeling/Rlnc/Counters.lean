import Rlnc.Amplification
import Rlnc.Network

/-!
The counters that a node reports. A receiver counts what it takes in its loop, and the rest with
what it does (`Meter.observe`); a send counts by the peers that it reaches. What a message does is
said once, whatever the protocol (`process_did`); from it follows what the counters of a receiver
that has not panicked tell, whatever arrived (`counters_truthful`). Those of the proposer bill
what it put in flight (`proposer_counted`).
-/
namespace Rlnc.Counters
open Rlnc.Panics Rlnc.Wire Rlnc.Packing Rlnc.Coding Rlnc.Draws Rlnc.Blocks Rlnc.Groups Rlnc.Integrity Rlnc.Protocols
open Rlnc.Actor Rlnc.Runs Rlnc.Amplification
open Rlnc.Network (Envelope Config Action posted proposal_of)
set_option linter.unusedSectionVars false

/-- Per-node metrics for block propagation; the histogram of decode durations is left out. -/
structure Metrics where
  bytes_uploaded : Nat
  bytes_downloaded : Nat
  announcements_sent : Nat
  announcements_received : Nat
  packets_sent : Nat
  packets_received : Nat
  packets_useful : Nat
  packets_redundant : Nat
  packets_failed : Nat
  blocks_proposed : Nat
  blocks_decoded : Nat
  current_block : Nat
deriving DecidableEq, Repr

def Metrics.default : Metrics := ⟨0,0,0,0,0,0,0,0,0,0,0,0⟩

/-- `i64::try_from(n).unwrap_or(i64::MAX)` -/
def gauge (n : Nat) : Nat := min n (2 ^ 63 - 1)

/-- The metrics of a node, and how many peers each of its next sends reaches. -/
structure Meter where
  metrics : Metrics
  reached : Stream' Nat

namespace Meter

/-- An announcement to all peers. -/
def broadcast (self : Meter) (msg : Bytes) : Meter where
  metrics :=
    if self.reached.head = 0 then self.metrics
    else { self.metrics with
      bytes_uploaded := self.metrics.bytes_uploaded + msg.length * self.reached.head,
      announcements_sent := self.metrics.announcements_sent + self.reached.head }
  reached := self.reached.tail

/-- A packet to one peer. -/
def send (self : Meter) (msg : Bytes) : Meter where
  metrics :=
    if self.reached.head = 0 then self.metrics
    else { self.metrics with
      bytes_uploaded := self.metrics.bytes_uploaded + msg.length,
      packets_sent := self.metrics.packets_sent + 1 }
  reached := self.reached.tail

/-- A message that the loop takes from a channel. -/
def receive (self : Meter) (channel : Channel) (msg : Bytes) : Meter :=
  match channel with
  | .Announce => { self with metrics := { self.metrics with
      bytes_downloaded := self.metrics.bytes_downloaded + msg.length,
      announcements_received := self.metrics.announcements_received + 1 } }
  | .Data => { self with metrics := { self.metrics with
      bytes_downloaded := self.metrics.bytes_downloaded + msg.length,
      packets_received := self.metrics.packets_received + 1 } }

section
variable {σ K : Type} (P : Protocol σ)

/-- What a receiver counts with each thing that it does. -/
def observe (self : Meter) : Event σ K → Meter
  | .ingest before .Announce n data =>
    match P.ingest before .Announce n data with
    | .ok (_,.ok true) => { self with metrics := { self.metrics with current_block := gauge n } }
    | _ => self
  | .ingest before .Data n data =>
    match P.ingest before .Data n data with
    | .ok (_,.ok true) => { self with metrics := { self.metrics with packets_useful := self.metrics.packets_useful + 1 } }
    | .ok (_,.ok false) => { self with metrics := { self.metrics with packets_redundant := self.metrics.packets_redundant + 1 } }
    | .ok (_,.error _) => { self with metrics := { self.metrics with packets_failed := self.metrics.packets_failed + 1 } }
    | .error _ => self
  | .announced msg => self.broadcast msg
  | .forwarded _ batch => batch.foldl (fun self entry => self.send entry.2) self
  | .decoded _ _ => { self with metrics := { self.metrics with blocks_decoded := self.metrics.blocks_decoded + 1 } }

/-- What the proposer counts for a block. -/
def propose (self : Meter) (block_num : Nat) (sent : Proposed K) : Meter :=
  let self := { self with metrics := { self.metrics with
    blocks_proposed := self.metrics.blocks_proposed + 1, current_block := gauge block_num } }
  sent.packets.foldl (fun self entry => self.send entry.2) (self.broadcast sent.ann_msg)

end

end Meter

/-- A receiver with its meter. -/
structure Metered (σ K : Type) where
  receiver : Receiver σ K
  meter : Meter

section
variable {σ K : Type} [DecidableEq K] [SliceRandom] (P : Protocol σ)

/-- One turn of `run_receiver`, with what it counts. -/
def Metered.receive (num_blocks : Nat) (self : Metered σ K) (sender : K) (channel : Channel) (msg : Bytes) : Metered σ K :=
  if self.receiver.panicked.isSome ∨ num_blocks ≤ self.receiver.decoded_count then self
  else
    let next := self.receiver.receive P num_blocks sender channel msg
    ⟨next,(next.log.drop self.receiver.log.length).foldl (Meter.observe P) (self.meter.receive channel msg)⟩

/-- A metered receiver run over arrived messages. -/
def metered_all (num_blocks : Nat) (self : Metered σ K) (messages : List (K × Channel × Bytes)) : Metered σ K :=
  messages.foldl (fun self (sender,channel,msg) => self.receive P num_blocks sender channel msg) self

/-! ### What a receiver does with a message -/

/-- Nothing is forwarded, or one batch to at most `mesh_degree` peers. -/
def Batch (self : Receiver σ K) (n : Nat) (sent : List (Event σ K)) : Prop :=
  sent = [] ∨ ∃ batch, sent = [.forwarded n batch] ∧ batch.length ≤ self.mesh_degree

/-- What one message leaves, unless it stops the receiver. -/
inductive Did (self : Receiver σ K) (channel : Channel) (data : Bytes) (after : Receiver σ K) (more : List Item) : Prop
  | stops (dead : after.panicked.isSome = true)
  | ignores (late : channel = .Announce) (same : after = self) (added : more = [])
  | holds (n : Nat) (packet : channel = .Data) (waiting : self.state = .Init n)
      (same : after = { self with buffer := self.buffer ++ [(.Data,n,data)] }) (added : more = [])
  | refuses (n : Nat) (t : σ) (r : Except String Bool) (ran : P.ingest self.protocol channel n data = .ok (t,r))
      (useless : r ≠ .ok true) (same : after = { self.record (.ingest self.protocol channel n data) with protocol := t })
      (added : more = [])
  | opens (n : Nat) (t : σ) (announcement : channel = .Announce) (waiting : self.state = .Init n)
      (ran : P.ingest self.protocol .Announce n data = .ok (t,.ok true))
      (same : after = { self with
        protocol := t, state := .Decoding n, buffer := (self.buffer.remove n).2,
        log := self.log ++ [.ingest self.protocol .Announce n data,.announced (message n data)] })
      (added : more = on_channel .Data (self.buffer.remove n).1)
  | takes (n : Nat) (t : σ) (sent : List (Event σ K)) (forwarded : Bool) (rng : Rng) (packet : channel = .Data)
      (working : self.state = .Decoding n) (ran : P.ingest self.protocol .Data n data = .ok (t,.ok true))
      (batch : Batch self n sent) (lacking : P.is_complete t = false)
      (same : after = { self with
        protocol := t, forwarded := forwarded, rng := rng, log := self.log ++ .ingest self.protocol .Data n data :: sent })
      (added : more = [])
  | closes (n : Nat) (t u : σ) (block : Block) (sent : List (Event σ K)) (rng : Rng) (packet : channel = .Data)
      (working : self.state = .Decoding n) (ran : P.ingest self.protocol .Data n data = .ok (t,.ok true))
      (batch : Batch self n sent) (silent : P.forward_condition t = .UntilDecode → sent = [])
      (complete : P.is_complete t = true) (decoded : P.decode t = .ok (block,u))
      (same : after = { self with
        protocol := P.reset u, forwarded := false, state := .Init (n + 1), buffer := (self.buffer.remove (n + 1)).2,
        decoded_count := self.decoded_count + 1, rng := rng,
        log := self.log ++ .ingest self.protocol .Data n data :: (sent ++ [.decoded n block]) })
      (added : more = on_channel .Announce (self.buffer.remove (n + 1)).1 ++ on_channel .Data (self.buffer.remove (n + 1)).1)

variable {P} {self : Receiver σ K}

/-- A useful packet is forwarded, or not; then the block is complete, or not. -/
theorem on_useful_did {n : Nat} {data : Bytes} {t : σ} (working : self.state = .Decoding n)
    (ran : P.ingest self.protocol .Data n data = .ok (t,.ok true)) (sender : Option K) :
    Did P self .Data data
      (({ self.record (.ingest self.protocol .Data n data) with protocol := t } : Receiver σ K).on_useful P n sender).1
      (({ self.record (.ingest self.protocol .Data n data) with protocol := t } : Receiver σ K).on_useful P n sender).2 := by
  obtain ⟨heard,named⟩ : ∃ heard : Receiver σ K, heard = { self.record (.ingest self.protocol .Data n data) with protocol := t } :=
    ⟨_,rfl⟩
  rw [← named]
  have sends : (if heard.should_forward P then heard.forward P n sender else heard).panicked.isSome = true ∨
      ∃ sent forwarded rng, Batch self n sent ∧
        (if heard.should_forward P then heard.forward P n sender else heard) =
          { heard with forwarded := forwarded, rng := rng, log := heard.log ++ sent } ∧
        (P.is_complete t = true → P.forward_condition t = .UntilDecode → sent = []) := by
    by_cases should : heard.should_forward P = true
    · rw [if_pos should]
      rcases forward_batch (P := P) heard n sender with ⟨p,stopped⟩ | ⟨batch,rng,few,_,sent⟩
      · rw [stopped]
        exact .inl rfl
      · refine .inr ⟨[.forwarded n batch],true,rng,.inr ⟨batch,rfl,by rw [named] at few; exact few⟩,sent,fun complete condition => ?_⟩
        rw [named] at should
        simp [Receiver.should_forward,condition,complete] at should
    · rw [if_neg should]
      exact .inr ⟨[],heard.forwarded,heard.rng,.inl rfl,by simp,fun _ _ => rfl⟩
  unfold Receiver.on_useful
  rcases sends with dead | ⟨sent,forwarded,rng,batch,same,silent⟩
  · simp only [dead,if_true]
    exact .stops dead
  rw [same]
  obtain ⟨kept,kept_is⟩ : ∃ kept : Receiver σ K, kept = { heard with forwarded := forwarded, rng := rng, log := heard.log ++ sent } :=
    ⟨_,rfl⟩
  rw [← kept_is]
  by_cases dead : kept.panicked.isSome = true
  · simp only [dead,if_true]
    exact .stops dead
  have taken : kept.protocol = t := by rw [kept_is,named]
  have logged : kept.log = self.log ++ .ingest self.protocol .Data n data :: sent := by
    rw [kept_is,named,Receiver.record_log,List.append_assoc]
    rfl
  simp only [if_neg dead,taken]
  by_cases complete : P.is_complete t = true
  · rw [if_pos complete]
    cases decoded : P.decode t with
    | error p =>
      rw [kept.finish_panics P n (taken ▸ decoded)]
      exact .stops rfl
    | ok result =>
      obtain ⟨block,u⟩ := result
      by_cases room : kept.decoded_count + 1 < 2 ^ 64 ∧ n + 1 < 2 ^ 64
      · rw [kept.finish_advances P n (taken ▸ decoded) room.1 room.2]
        have buffered : kept.buffer = self.buffer := by rw [kept_is,named]; rfl
        simp only [buffered]
        refine .closes n t u block sent rng rfl working ran batch (silent complete) complete decoded ?_ rfl
        rw [kept_is,named] at logged ⊢
        simp only [Receiver.record] at logged ⊢
        rw [logged]
        simp
      · obtain ⟨_,stopped⟩ := kept.finish_overflows P n (taken ▸ decoded) (by omega)
        rw [stopped]
        exact .stops rfl
  · rw [if_neg complete]
    refine .takes n t sent forwarded rng rfl working ran batch (by simpa using complete) ?_ rfl
    rw [kept_is,named] at logged ⊢
    simp only [Receiver.record] at logged ⊢
    rw [logged]

/-- A message does one of these things. -/
theorem process_did (channel : Channel) (data : Bytes) (sender : Option K) :
    Did P self channel data (self.process P channel data sender).1 (self.process P channel data sender).2 := by
  cases waiting : self.state with
  | Init n =>
    cases channel with
    | Data =>
      simp only [Receiver.process,waiting]
      exact .holds n rfl waiting (by rw [waiting]) rfl
    | Announce =>
      simp only [Receiver.process,waiting]
      cases ran : P.ingest self.protocol .Announce n data with
      | error p =>
        rw [self.on_announce_panics P ran]
        exact .stops rfl
      | ok result =>
        obtain ⟨t,r⟩ := result
        by_cases accepted : r = .ok true
        · rw [accepted] at ran
          rw [self.on_announce_accepts P ran]
          refine .opens n t rfl waiting ran ?_ rfl
          simp [Receiver.record]
        · rw [self.on_announce_refuses P ran accepted]
          exact .refuses n t r ran accepted rfl rfl
  | Decoding n =>
    cases channel with
    | Announce =>
      simp only [Receiver.process,waiting]
      exact .ignores rfl rfl rfl
    | Data =>
      simp only [Receiver.process,waiting]
      cases ran : P.ingest self.protocol .Data n data with
      | error p =>
        rw [self.on_data_panics P sender ran]
        exact .stops rfl
      | ok result =>
        obtain ⟨t,r⟩ := result
        by_cases useful : r = .ok true
        · rw [useful] at ran
          rw [self.on_data_useful P sender ran]
          exact on_useful_did waiting ran sender
        · rw [self.on_data_refuses P sender ran useful]
          exact .refuses n t r ran useful rfl rfl

/-! ### What the counters tell -/

/-- How far the protocol is with its block. -/
structure Tallied (P : Protocol σ) (Inv : σ → Prop) (used : σ → Nat) (limit : Nat) : Prop where
  ingest : ∀ s channel n data s' r, Inv s → P.ingest s channel n data = .ok (s',r) →
    Inv s' ∧ used s' = used s + if channel = .Data ∧ r = .ok true then 1 else 0
  within : ∀ s, Inv s → used s ≤ limit
  complete : ∀ s, Inv s → used s = limit → P.is_complete s = true
  full : ∀ s, Inv s → P.is_complete s = true → used s = limit
  finish : ∀ s block s', Inv s → P.decode s = .ok (block,s') → Inv (P.reset s') ∧ used (P.reset s') = 0

/-- The announcements that were accepted before this state. -/
def opened : ActorState → Nat
  | .Init n => n
  | .Decoding n => n + 1

/-- What the counters of a receiver tell, which completes a block with `limit` useful packets and
    has `used` of them for the current one, saves `spare` batches for each block, and reaches at
    most `reach` peers with an announcement. -/
structure Reports (limit used spare degree reach : Nat) (state : ActorState) (decoded_count : Nat) (metrics : Metrics) : Prop where
  decoded : metrics.blocks_decoded = decoded_count
  useful : metrics.packets_useful = limit * metrics.blocks_decoded + used
  incomplete : used < limit
  sent : metrics.packets_sent + degree * spare * metrics.blocks_decoded ≤ degree * metrics.packets_useful
  announced : metrics.announcements_sent ≤ reach * opened state
  current : metrics.current_block = gauge (opened state - 1)

/-- The messages of a channel that wait in the buffer and the queue. -/
def held (channel : Channel) (items : List Item) : Nat := items.countP (fun item => item.1 = channel)

@[simp] theorem held_nil (channel : Channel) : held channel [] = 0 := rfl

@[simp] theorem held_append (channel : Channel) (items more : List Item) :
    held channel (items ++ more) = held channel items + held channel more := List.countP_append

@[simp] theorem held_cons (channel : Channel) (item : Item) (items : List Item) :
    held channel (item :: items) = held channel items + if item.1 = channel then 1 else 0 := by
  simp [held,List.countP_cons]

@[simp] theorem held_on_channel (channel : Channel) (items : List Item) : held channel (on_channel channel items) = held channel items := by
  simp [held,on_channel,List.countP_filter]

theorem held_on_other {channel other : Channel} (different : other ≠ channel) (items : List Item) :
    held channel (on_channel other items) = 0 := by
  simp only [held,on_channel,List.countP_filter,List.countP_eq_zero]
  grind

theorem held_remove (channel : Channel) (buffer : Buffer) (n : Nat) :
    held channel (buffer.remove n).1 + held channel (buffer.remove n).2 = held channel buffer := by
  simp only [held,Buffer.remove]
  rw [List.countP_eq_countP_filter_add buffer _ (fun item => item.2.1 = n)]
  simp

/-- A batch raises `packets_sent` by at most its length. -/
theorem send_all (batch : List (K × Bytes)) (meter : Meter) : ∃ packets bytes reached,
    packets ≤ batch.length ∧ (∀ reach, (∀ i, meter.reached.get i ≤ reach) → ∀ i, Stream'.get reached i ≤ reach) ∧
      batch.foldl (fun self entry => self.send entry.2) meter = ⟨{ meter.metrics with
        packets_sent := meter.metrics.packets_sent + packets, bytes_uploaded := meter.metrics.bytes_uploaded + bytes },reached⟩ := by
  induction batch generalizing meter with
  | nil => exact ⟨0,0,meter.reached,Nat.zero_le _,fun _ all => all,rfl⟩
  | cons entry batch ih =>
    obtain ⟨packets,bytes,reached,few,bounded,same⟩ := ih (meter.send entry.2)
    rw [List.foldl_cons,same]
    have tail : ∀ reach, (∀ i, meter.reached.get i ≤ reach) → ∀ i, Stream'.get reached i ≤ reach :=
      fun reach all => bounded reach fun i => all (i + 1)
    by_cases lost : meter.reached.head = 0
    · refine ⟨packets,bytes,reached,by simp; omega,tail,?_⟩
      simp [Meter.send,lost]
    · refine ⟨packets + 1,bytes + entry.2.length,reached,by simpa using few,tail,?_⟩
      simp [Meter.send,lost,Nat.add_comm,Nat.add_left_comm]

/-- A receiver in a run, with its queue and its meter. -/
structure Truthful (P : Protocol σ) (Inv : σ → Prop) (used : σ → Nat) (limit spare degree reach : Nat) (meter : Meter)
    (node : Receiver σ K) (work : List Item) : Prop where
  inv : Inv node.protocol
  mesh : node.mesh_degree = degree
  counted : node.decoded_count = node.state.current_block
  reports : Reports limit (used node.protocol) spare degree reach node.state node.decoded_count meter.metrics
  taken : meter.metrics.packets_useful + meter.metrics.packets_redundant + meter.metrics.packets_failed +
    held .Data (node.buffer ++ work) ≤ meter.metrics.packets_received
  heard : opened node.state + held .Announce (node.buffer ++ work) ≤ meter.metrics.announcements_received
  bounded : ∀ i, meter.reached.get i ≤ reach
  never : (∀ s n data t, Inv s → used s < limit → P.ingest s .Data n data ≠ .ok (t,.ok false)) →
    meter.metrics.packets_redundant = 0

/-- What a useful packet counts with the batch that it causes. -/
theorem observe_useful {s t : σ} {n : Nat} {data : Bytes} (ran : P.ingest s .Data n data = .ok (t,.ok true))
    {sent : List (Event σ K)} (batch : Batch self n sent) (meter : Meter) : ∃ packets bytes reached,
    packets ≤ self.mesh_degree ∧ (sent = [] → packets = 0) ∧
      (∀ reach, (∀ i, meter.reached.get i ≤ reach) → ∀ i, Stream'.get reached i ≤ reach) ∧
      (Event.ingest s .Data n data :: sent).foldl (Meter.observe P) meter = ⟨{ meter.metrics with
        packets_useful := meter.metrics.packets_useful + 1, packets_sent := meter.metrics.packets_sent + packets,
        bytes_uploaded := meter.metrics.bytes_uploaded + bytes },reached⟩ := by
  obtain rfl | ⟨entries,rfl,few⟩ := batch
  · refine ⟨0,0,meter.reached,Nat.zero_le _,fun _ => rfl,fun _ all => all,?_⟩
    simp [Meter.observe,ran]
  · obtain ⟨packets,bytes,reached,less,bounded,same⟩ := send_all entries
      { meter with metrics := { meter.metrics with packets_useful := meter.metrics.packets_useful + 1 } }
    refine ⟨packets,bytes,reached,less.trans few,nofun,bounded,?_⟩
    rw [List.foldl_cons,List.foldl_cons,List.foldl_nil]
    simp only [Meter.observe,ran]
    exact same

variable {Inv : σ → Prop} {used : σ → Nat} {limit spare degree reach : Nat} {meter : Meter} {work : List Item} {channel : Channel}
  {bn : Nat} {data : Bytes} {after : Receiver σ K} {more : List Item}

/-- What a message that is not useful counts. -/
theorem observe_useless {s t : σ} {n : Nat} {r : Except String Bool} (ran : P.ingest s channel n data = .ok (t,r))
    (useless : r ≠ .ok true) (meter : Meter) : ∃ redundant failed,
    redundant + failed = (if channel = .Data then 1 else 0) ∧
      ((∀ t, P.ingest s .Data n data ≠ .ok (t,.ok false)) → redundant = 0) ∧
      meter.observe P (Event.ingest (K := K) s channel n data) = { meter with metrics := { meter.metrics with
        packets_redundant := meter.metrics.packets_redundant + redundant,
        packets_failed := meter.metrics.packets_failed + failed } } := by
  cases channel with
  | Announce =>
    refine ⟨0,0,rfl,fun _ => rfl,?_⟩
    cases r with
    | error e => simp only [Meter.observe,ran,Nat.add_zero]
    | ok useful =>
      cases useful with
      | false => simp only [Meter.observe,ran,Nat.add_zero]
      | true => exact absurd rfl useless
  | Data =>
    cases r with
    | error e =>
      refine ⟨0,1,rfl,fun _ => rfl,?_⟩
      simp only [Meter.observe,ran,Nat.add_zero]
    | ok useful =>
      cases useful with
      | false =>
        refine ⟨1,0,rfl,fun never => absurd ran (never t),?_⟩
        simp only [Meter.observe,ran,Nat.add_zero]
      | true => exact absurd rfl useless

/-- What an accepted announcement counts with its broadcast. -/
theorem observe_opens {s t : σ} {n : Nat} (ran : P.ingest s .Announce n data = .ok (t,.ok true)) (meter : Meter) (msg : Bytes) :
    ∃ bytes, [Event.ingest (K := K) s .Announce n data,.announced msg].foldl (Meter.observe P) meter = ⟨{ meter.metrics with
      announcements_sent := meter.metrics.announcements_sent + meter.reached.head,
      bytes_uploaded := meter.metrics.bytes_uploaded + bytes, current_block := gauge n },meter.reached.tail⟩ := by
  refine ⟨msg.length * meter.reached.head,?_⟩
  simp only [List.foldl_cons,List.foldl_nil,Meter.observe,ran,Meter.broadcast]
  by_cases lost : meter.reached.head = 0
  · simp [lost]
  · simp [lost]

/-- A message of the current block that does not stop the receiver leaves its counters truthful. -/
theorem Truthful.step (tallied : Tallied P Inv used limit)
    (sparing : spare = 0 ∨ spare = 1 ∧ ∀ s, P.forward_condition s = .UntilDecode)
    (truthful : Truthful P Inv used limit spare degree reach meter self ((channel,bn,data) :: work))
    (did : Did P self channel data after more) (goes : after.panicked.isSome = false) :
    ∃ events, after.log = self.log ++ events ∧
      Truthful P Inv used limit spare degree reach (events.foldl (Meter.observe P) meter) after (work ++ more) := by
  obtain ⟨inv,mesh,counted,reports,taken,heard,bounded,never⟩ := truthful
  cases did with
  | stops dead =>
    rw [dead] at goes
    cases goes
  | ignores late same added =>
    subst same added
    refine ⟨[],by simp,inv,mesh,counted,reports,?_,?_,bounded,never⟩
    · simp at taken ⊢
      omega
    · simp at heard ⊢
      omega
  | holds n packet waiting same added =>
    subst same added packet
    refine ⟨[],by simp,inv,mesh,counted,reports,?_,?_,bounded,never⟩
    · simp at taken ⊢
      omega
    · simp at heard ⊢
      omega
  | refuses n t r ran useless same added =>
    subst same added
    obtain ⟨inv',kept⟩ := tallied.ingest _ _ _ _ _ _ inv ran
    rw [if_neg (fun useful => useless useful.2),Nat.add_zero] at kept
    obtain ⟨redundant,failed,counts,clear,same⟩ := observe_useless (K := K) ran useless meter
    refine ⟨[.ingest self.protocol channel n data],rfl,?_⟩
    rw [List.foldl_cons,List.foldl_nil,same]
    refine ⟨inv',mesh,counted,?_,?_,?_,bounded,fun all => ?_⟩
    · refine ⟨reports.decoded,?_,?_,reports.sent,reports.announced,reports.current⟩
      · exact reports.useful.trans (by simp only [kept])
      · simp only [kept]
        exact reports.incomplete
    · simp at taken ⊢
      omega
    · simp at heard ⊢
      omega
    · have before := never all
      have more := clear fun t => all _ _ _ t inv reports.incomplete
      simp only
      omega
  | opens n t announcement waiting ran same added =>
    subst same added announcement
    obtain ⟨inv',kept⟩ := tallied.ingest _ _ _ _ _ _ inv ran
    rw [if_neg (by simp),Nat.add_zero] at kept
    obtain ⟨bytes,same⟩ := observe_opens (K := K) ran meter (message n data)
    refine ⟨[.ingest self.protocol .Announce n data,.announced (message n data)],rfl,?_⟩
    rw [same]
    have reaches : meter.reached.head ≤ reach := bounded 0
    have announced := reports.announced
    rw [waiting] at announced heard
    refine ⟨inv',mesh,?_,⟨reports.decoded,?_,?_,reports.sent,?_,rfl⟩,?_,?_,fun i => bounded (i + 1),never⟩
    · rw [counted,waiting]
      rfl
    · exact reports.useful.trans (by simp only [kept])
    · simp only [kept]
      exact reports.incomplete
    · simp only [opened] at announced ⊢
      rw [Nat.mul_add]
      omega
    · have split := held_remove .Data self.buffer n
      simp at taken ⊢
      omega
    · have split := held_remove .Announce self.buffer n
      have others := held_on_other (show Channel.Data ≠ .Announce by simp) (self.buffer.remove n).1
      simp [opened,others] at heard ⊢
      omega
  | takes n t sent forwarded rng packet working ran batch lacking same added =>
    subst same added packet
    obtain ⟨inv',raised⟩ := tallied.ingest _ _ _ _ _ _ inv ran
    rw [if_pos ⟨rfl,rfl⟩] at raised
    obtain ⟨packets,bytes,reached,few,none,bounded',same⟩ := observe_useful ran batch meter
    refine ⟨.ingest self.protocol .Data n data :: sent,rfl,?_⟩
    rw [same]
    have below : used t ≠ limit := fun full => by
      rw [tallied.complete t inv' full] at lacking
      cases lacking
    have within := tallied.within t inv'
    refine ⟨inv',mesh,counted,⟨reports.decoded,?_,?_,?_,reports.announced,reports.current⟩,?_,?_,bounded' reach bounded,never⟩
    · have useful := reports.useful
      simp only [raised]
      omega
    · simp only
      omega
    · have sent := reports.sent
      simp only
      rw [Nat.mul_add]
      omega
    · simp at taken ⊢
      omega
    · simp at heard ⊢
      omega
  | closes n t u block sent rng packet working ran batch silent complete decoded same added =>
    subst same added packet
    obtain ⟨inv',raised⟩ := tallied.ingest _ _ _ _ _ _ inv ran
    rw [if_pos ⟨rfl,rfl⟩] at raised
    obtain ⟨packets,bytes,reached,few,none,bounded',same⟩ := observe_useful ran batch meter
    obtain ⟨clean,spent⟩ := tallied.finish _ _ _ inv' decoded
    have full := tallied.full t inv' complete
    have split := fun channel => held_remove channel self.buffer (n + 1)
    refine ⟨.ingest self.protocol .Data n data :: (sent ++ [.decoded n block]),rfl,?_⟩
    rw [← List.cons_append,List.foldl_append,same,List.foldl_cons,List.foldl_nil]
    simp only [Meter.observe]
    have below := reports.incomplete
    have useful := reports.useful
    rw [working] at counted heard
    refine ⟨clean,mesh,congrArg (· + 1) counted,⟨congrArg (· + 1) reports.decoded,?_,?_,?_,?_,?_⟩,?_,?_,bounded' reach bounded,never⟩
    · simp only [spent]
      rw [Nat.mul_add]
      omega
    · simp only [spent]
      omega
    · have sent := reports.sent
      obtain rfl | ⟨rfl,until_decode⟩ := sparing
      · simp only
        rw [Nat.mul_add degree]
        simp at sent ⊢
        omega
      · obtain rfl := none (silent (until_decode t))
        simp only
        rw [Nat.mul_add,Nat.mul_add]
        simp at sent ⊢
        omega
    · exact reports.announced.trans (by simp [opened,working])
    · exact reports.current.trans (by simp [opened,working])
    · have data := split .Data
      have others := held_on_other (show Channel.Announce ≠ .Data by simp) (self.buffer.remove (n + 1)).1
      simp [others] at taken ⊢
      omega
    · have announcements := split .Announce
      have others := held_on_other (show Channel.Data ≠ .Announce by simp) (self.buffer.remove (n + 1)).1
      simp [others,opened] at heard ⊢
      omega

/-- A discarded message is not counted further. -/
theorem Truthful.skip {item : Item} (truthful : Truthful P Inv used limit spare degree reach meter self (item :: work)) :
    Truthful P Inv used limit spare degree reach meter self work := by
  obtain ⟨inv,mesh,counted,reports,taken,heard,bounded,never⟩ := truthful
  refine ⟨inv,mesh,counted,reports,?_,?_,bounded,never⟩
  · simp at taken ⊢
    omega
  · simp at heard ⊢
    omega

theorem Truthful.hold {item : Item} (truthful : Truthful P Inv used limit spare degree reach meter self [item]) :
    Truthful P Inv used limit spare degree reach meter { self with buffer := self.buffer ++ [item] } [] := by
  obtain ⟨inv,mesh,counted,reports,taken,heard,bounded,never⟩ := truthful
  refine ⟨inv,mesh,counted,reports,?_,?_,bounded,never⟩
  · rw [List.append_nil]
    exact taken
  · rw [List.append_nil]
    exact heard

/-- A received message is counted, and is work. -/
theorem Truthful.arrive (truthful : Truthful P Inv used limit spare degree reach meter self []) (channel : Channel) (msg : Bytes)
    (bn : Nat) (data : Bytes) :
    Truthful P Inv used limit spare degree reach (meter.receive channel msg) self [(channel,bn,data)] := by
  obtain ⟨inv,mesh,counted,⟨decoded,useful,incomplete,sent,announced,current⟩,taken,heard,bounded,never⟩ := truthful
  rw [List.append_nil] at taken heard
  cases channel with
  | Announce =>
    refine ⟨inv,mesh,counted,⟨decoded,useful,incomplete,sent,announced,current⟩,?_,?_,bounded,never⟩
    · simpa [Meter.receive] using taken
    · simp [Meter.receive]
      omega
  | Data =>
    refine ⟨inv,mesh,counted,⟨decoded,useful,incomplete,sent,announced,current⟩,?_,?_,bounded,never⟩
    · simp [Meter.receive]
      omega
    · simpa [Meter.receive] using heard

/-- The counters are truthful after the queue. -/
theorem Truthful.drain (tallied : Tallied P Inv used limit)
    (sparing : spare = 0 ∨ spare = 1 ∧ ∀ s, P.forward_condition s = .UntilDecode)
    (truthful : Truthful P Inv used limit spare degree reach meter self work) (sender : Option K) (alive : self.panicked = none)
    (survives : (self.drain P work sender).panicked = none) : ∃ events, (self.drain P work sender).log = self.log ++ events ∧
      Truthful P Inv used limit spare degree reach (events.foldl (Meter.observe P) meter) (self.drain P work sender) [] := by
  have drained := Receiver.drain_keeps P
    (fun node work => ∃ events, node.log = self.log ++ events ∧
      Truthful P Inv used limit spare degree reach (events.foldl (Meter.observe P) meter) node work)
    (fun node => node.panicked.isSome = true) ?_ ?_ self work sender alive ⟨[],by simp,truthful⟩
  · obtain ⟨_,kept⟩ | dead := drained
    · exact kept
    · rw [survives] at dead
      cases dead
  · rintro node channel bn data work _ ⟨events,logged,kept⟩
    exact ⟨events,logged,kept.skip⟩
  · rintro node channel bn data work sender _ ⟨events,logged,kept⟩
    by_cases dead : (node.process P channel data sender).1.panicked.isSome = true
    · rw [if_pos dead]
      exact dead
    · rw [if_neg dead]
      obtain ⟨further,longer,after⟩ := kept.step tallied sparing (process_did channel data sender) (by simpa using dead)
      refine ⟨events ++ further,by rw [longer,logged,List.append_assoc],?_⟩
      rw [List.foldl_append]
      exact after

/-- The counters are truthful after a turn of the loop. -/
theorem Truthful.receive (tallied : Tallied P Inv used limit)
    (sparing : spare = 0 ∨ spare = 1 ∧ ∀ s, P.forward_condition s = .UntilDecode) {node : Metered σ K} (num_blocks : Nat)
    (truthful : Truthful P Inv used limit spare degree reach node.meter node.receiver []) (sender : K) (channel : Channel)
    (msg : Bytes) (survives : (node.receive P num_blocks sender channel msg).receiver.panicked = none) :
    Truthful P Inv used limit spare degree reach (node.receive P num_blocks sender channel msg).meter
      (node.receive P num_blocks sender channel msg).receiver [] := by
  unfold Metered.receive at survives ⊢
  by_cases stopped : node.receiver.panicked.isSome ∨ num_blocks ≤ node.receiver.decoded_count
  · rw [if_pos stopped]
    exact truthful
  rw [if_neg stopped] at survives ⊢
  have alive : node.receiver.panicked = none := by
    cases panicked : node.receiver.panicked with
    | none => rfl
    | some p => exact absurd (.inl (by rw [panicked]; rfl)) stopped
  have arrived := truthful.arrive channel msg (of_be (msg.take 8)) (msg.drop 8)
  simp only [Receiver.receive,if_neg stopped] at survives ⊢
  by_cases short : msg.length < 8
  · rw [if_pos short,List.drop_length]
    exact arrived.skip
  rw [if_neg short] at survives ⊢
  unfold Receiver.route at survives ⊢
  by_cases past : of_be (msg.take 8) < node.receiver.state.current_block
  · simp only [if_pos past,List.drop_length]
    exact arrived.skip
  by_cases later : of_be (msg.take 8) > node.receiver.state.current_block
  · simp only [if_neg past,if_pos later,List.drop_length]
    exact arrived.hold
  · simp only [if_neg past,if_neg later] at survives ⊢
    obtain ⟨events,logged,kept⟩ := arrived.drain tallied sparing (some sender) alive survives
    rw [logged,List.drop_left]
    exact kept

/-- A receiver that has panicked stays as it is. -/
theorem metered_all_dead {node : Metered σ K} (dead : node.receiver.panicked.isSome = true) (num_blocks : Nat)
    (messages : List (K × Channel × Bytes)) : metered_all P num_blocks node messages = node := by
  induction messages with
  | nil => rfl
  | cons message messages ih =>
    obtain ⟨sender,channel,msg⟩ := message
    have same : node.receive P num_blocks sender channel msg = node := if_pos (.inl dead)
    rw [metered_all,List.foldl_cons]
    simp only [same]
    exact ih

theorem Truthful.receive_all (tallied : Tallied P Inv used limit)
    (sparing : spare = 0 ∨ spare = 1 ∧ ∀ s, P.forward_condition s = .UntilDecode) {node : Metered σ K} (num_blocks : Nat)
    (truthful : Truthful P Inv used limit spare degree reach node.meter node.receiver []) (messages : List (K × Channel × Bytes))
    (survives : (metered_all P num_blocks node messages).receiver.panicked = none) :
    Truthful P Inv used limit spare degree reach (metered_all P num_blocks node messages).meter
      (metered_all P num_blocks node messages).receiver [] := by
  induction messages generalizing node with
  | nil => exact truthful
  | cons message messages ih =>
    obtain ⟨sender,channel,msg⟩ := message
    refine ih ?_ survives
    by_cases dead : (node.receive P num_blocks sender channel msg).receiver.panicked.isSome = true
    · have stays := metered_all_dead (P := P) dead num_blocks messages
      have survives : (metered_all P num_blocks (node.receive P num_blocks sender channel msg) messages).receiver.panicked = none :=
        survives
      rw [stays] at survives
      rw [survives] at dead
      cases dead
    · exact truthful.receive tallied sparing num_blocks sender channel msg (by simpa using dead)

/-- The meter does not change what the receiver does. -/
theorem metered_all_receiver (num_blocks : Nat) (node : Metered σ K) (messages : List (K × Channel × Bytes)) :
    (metered_all P num_blocks node messages).receiver = Runs.receive_all P num_blocks node.receiver messages := by
  induction messages generalizing node with
  | nil => rfl
  | cons message messages ih =>
    obtain ⟨sender,channel,msg⟩ := message
    refine (ih _).trans ?_
    have same : (node.receive P num_blocks sender channel msg).receiver = node.receiver.receive P num_blocks sender channel msg := by
      unfold Metered.receive Receiver.receive
      by_cases stopped : node.receiver.panicked.isSome ∨ num_blocks ≤ node.receiver.decoded_count
      · rw [if_pos stopped,if_pos stopped]
      · rw [if_neg stopped]
    rw [same]
    rfl

/-- A receiver with its meter, after messages have arrived. -/
def metered_run (P : Protocol σ) (protocol : σ) (peers : List K) (degree : Nat) (rng : Rng) (reached : Stream' Nat)
    (num_blocks : Nat) (messages : List (K × Channel × Bytes)) : Metered σ K :=
  metered_all P num_blocks ⟨Receiver.new (NodeActor.new protocol peers degree rng),⟨Metrics.default,reached⟩⟩ messages

/-- The counters of a receiver tell how far it is, and count nothing that did not arrive. -/
structure Accounted (limit used spare degree reach : Nat) (node : Metered σ K) : Prop where
  reports : Reports limit used spare degree reach node.receiver.state node.receiver.decoded_count node.meter.metrics
  taken : node.meter.metrics.packets_useful + node.meter.metrics.packets_redundant + node.meter.metrics.packets_failed ≤
    node.meter.metrics.packets_received
  heard : opened node.receiver.state ≤ node.meter.metrics.announcements_received

theorem run_truthful (tallied : Tallied P Inv used limit)
    (sparing : spare = 0 ∨ spare = 1 ∧ ∀ s, P.forward_condition s = .UntilDecode) {protocol : σ} (inv : Inv protocol)
    (empty : used protocol = 0) (positive : 0 < limit) (peers : List K) (rng : Rng) {reached : Stream' Nat}
    (bounded : ∀ i, reached.get i ≤ reach) (num_blocks : Nat) (messages : List (K × Channel × Bytes))
    (survives : (metered_run P protocol peers degree rng reached num_blocks messages).receiver.panicked = none) :
    Truthful P Inv used limit spare degree reach (metered_run P protocol peers degree rng reached num_blocks messages).meter
      (metered_run P protocol peers degree rng reached num_blocks messages).receiver [] := by
  refine Truthful.receive_all tallied sparing num_blocks ?_ messages survives
  refine ⟨inv,rfl,rfl,⟨rfl,?_,?_,?_,Nat.zero_le _,?_⟩,Nat.zero_le _,Nat.zero_le _,bounded,fun _ => rfl⟩
  · simp [Receiver.new,NodeActor.new,empty,Metrics.default]
  · rw [← empty] at positive
    exact positive
  · simp [Metrics.default]
  · rfl

theorem Truthful.accounted (truthful : Truthful P Inv used limit spare degree reach meter self []) :
    Accounted limit (used self.protocol) spare degree reach (⟨self,meter⟩ : Metered σ K) where
  reports := truthful.reports
  taken := (Nat.le_add_right _ _).trans truthful.taken
  heard := (Nat.le_add_right _ _).trans truthful.heard

/-! ### What a proposer counts -/

/-- `run_proposer`, with what it counts. -/
def metered_proposals (P : Protocol σ) (block_size : Nat) : Nat → NodeActor σ K × Meter → Rust (NodeActor σ K × Meter)
  | 0, start => .ok start
  | num_blocks + 1, start => do
    let (actor,meter) ← metered_proposals P block_size num_blocks start
    let (actor,sent) ← propose_block P block_size actor num_blocks
    return (actor,meter.propose num_blocks sent)

/-- What a sender counts with a message that it puts in flight. -/
def Meter.post (self : Meter) (e : Envelope K) : Meter :=
  match e.channel with
  | .Announce => self.broadcast e.msg
  | .Data => self.send e.msg

def count (channel : Channel) (sent : List (Envelope K)) : Nat := sent.countP fun e => e.channel = channel

def volume (channel : Channel) (sent : List (Envelope K)) : Nat :=
  ((sent.filter fun e => e.channel = channel).map fun e => e.msg.length).sum

/-- A sender has counted what it sent, as far as each message reached a peer. -/
structure Billed (reached : Stream' Nat) (sent : List (Envelope K)) (meter : Meter) : Prop where
  left : ∃ used, meter.reached = reached.drop used
  packets : meter.metrics.packets_sent ≤ count .Data sent
  most : ∀ reach, (∀ i, reached.get i ≤ reach) → meter.metrics.announcements_sent ≤ reach * count .Announce sent ∧
    meter.metrics.bytes_uploaded ≤ reach * volume .Announce sent + volume .Data sent
  least : ∀ reach, 0 < reach → (∀ i, reach ≤ reached.get i) → meter.metrics.packets_sent = count .Data sent ∧
    reach * count .Announce sent ≤ meter.metrics.announcements_sent ∧
    reach * volume .Announce sent + volume .Data sent ≤ meter.metrics.bytes_uploaded

theorem Billed.start (reached : Stream' Nat) : Billed reached ([] : List (Envelope K)) ⟨Metrics.default,reached⟩ :=
  ⟨⟨0,rfl⟩,le_rfl,fun _ _ => ⟨le_rfl,le_rfl⟩,fun _ _ _ => ⟨rfl,le_rfl,le_rfl⟩⟩

/-- An announcement that is lost counts for nothing, as if it had reached no peer. -/
theorem broadcast_counts (meter : Meter) (msg : Bytes) : meter.broadcast msg = ⟨{ meter.metrics with
    bytes_uploaded := meter.metrics.bytes_uploaded + msg.length * meter.reached.head,
    announcements_sent := meter.metrics.announcements_sent + meter.reached.head },meter.reached.tail⟩ := by
  by_cases lost : meter.reached.head = 0 <;> simp [Meter.broadcast,lost]

theorem send_counts (meter : Meter) (msg : Bytes) : meter.send msg = ⟨{ meter.metrics with
    bytes_uploaded := meter.metrics.bytes_uploaded + min 1 meter.reached.head * msg.length,
    packets_sent := meter.metrics.packets_sent + min 1 meter.reached.head },meter.reached.tail⟩ := by
  by_cases lost : meter.reached.head = 0
  · simp [Meter.send,lost]
  · have some : min 1 meter.reached.head = 1 := by omega
    simp [Meter.send,lost,some]

theorem Billed.post {reached : Stream' Nat} {sent : List (Envelope K)} {meter : Meter} (billed : Billed reached sent meter)
    (e : Envelope K) : Billed reached (sent ++ [e]) (meter.post e) := by
  obtain ⟨⟨used,left⟩,packets,most,least⟩ := billed
  have head : meter.reached.head = reached.get used := by rw [left,Stream'.head_drop]
  have tail : meter.reached.tail = reached.drop (used + 1) := by rw [left,Stream'.tail_eq_drop,Stream'.drop_drop]
  have counted : ∀ channel, count channel (sent ++ [e]) = count channel sent + if e.channel = channel then 1 else 0 := by
    intro channel
    simp [count,List.countP_append,List.countP_singleton]
  have measured : ∀ channel, volume channel (sent ++ [e]) = volume channel sent + if e.channel = channel then e.msg.length else 0 := by
    intro channel
    by_cases same : e.channel = channel <;> simp [volume,List.filter_append,same]
  cases channel : e.channel with
  | Announce =>
    have posted : meter.post e = meter.broadcast e.msg := by simp only [Meter.post,channel]
    have counts : count .Announce (sent ++ [e]) = count .Announce sent + 1 ∧ count .Data (sent ++ [e]) = count .Data sent := by
      simp [counted,channel]
    have volumes : volume .Announce (sent ++ [e]) = volume .Announce sent + e.msg.length ∧
        volume .Data (sent ++ [e]) = volume .Data sent := by
      simp [measured,channel]
    rw [posted,broadcast_counts,head,tail]
    refine ⟨⟨used + 1,rfl⟩,by rw [counts.2]; exact packets,fun reach all => ?_,fun reach some all => ?_⟩
    · obtain ⟨few,bytes⟩ := most reach all
      have share : e.msg.length * reached.get used ≤ reach * e.msg.length := by
        rw [Nat.mul_comm]
        exact Nat.mul_le_mul_right _ (all used)
      have reaches := all used
      simp only [counts,volumes,Nat.mul_add]
      omega
    · obtain ⟨same,many,bytes⟩ := least reach some all
      have share : reach * e.msg.length ≤ e.msg.length * reached.get used := by
        rw [Nat.mul_comm]
        exact Nat.mul_le_mul_left _ (all used)
      have reaches := all used
      simp only [counts,volumes,Nat.mul_add]
      omega
  | Data =>
    have posted : meter.post e = meter.send e.msg := by simp only [Meter.post,channel]
    have counts : count .Announce (sent ++ [e]) = count .Announce sent ∧ count .Data (sent ++ [e]) = count .Data sent + 1 := by
      simp [counted,channel]
    have volumes : volume .Announce (sent ++ [e]) = volume .Announce sent ∧
        volume .Data (sent ++ [e]) = volume .Data sent + e.msg.length := by
      simp [measured,channel]
    have share : min 1 (reached.get used) * e.msg.length ≤ 1 * e.msg.length := Nat.mul_le_mul_right _ (Nat.min_le_left _ _)
    rw [posted,send_counts,head,tail]
    refine ⟨⟨used + 1,rfl⟩,?_,fun reach all => ?_,fun reach some all => ?_⟩
    · simp only [counts]
      omega
    · obtain ⟨few,bytes⟩ := most reach all
      simp only [counts,volumes]
      omega
    · obtain ⟨same,many,bytes⟩ := least reach some all
      have one : min 1 (reached.get used) = 1 := by have reaches := all used; omega
      simp only [counts,volumes,one]
      omega

theorem Billed.post_all {reached : Stream' Nat} {sent : List (Envelope K)} {meter : Meter} (billed : Billed reached sent meter)
    (more : List (Envelope K)) : Billed reached (sent ++ more) (more.foldl Meter.post meter) := by
  induction more generalizing sent meter with
  | nil => rwa [List.append_nil]
  | cons e more ih =>
    have next := ih (billed.post e)
    rwa [List.append_assoc] at next

/-- The messages of a block are counted as they are sent, and so is the block. -/
theorem propose_posts (meter : Meter) (source : K) (block_num : Nat) (proposed : Proposed K) :
    meter.propose block_num proposed = (proposal_of source proposed).foldl Meter.post
      { meter with metrics := { meter.metrics with
          blocks_proposed := meter.metrics.blocks_proposed + 1, current_block := gauge block_num } } := by
  simp only [Meter.propose,proposal_of,List.foldl_cons,List.foldl_map]
  rfl

theorem post_all_fixed (more : List (Envelope K)) (meter : Meter) :
    (more.foldl Meter.post meter).metrics.blocks_proposed = meter.metrics.blocks_proposed ∧
      (more.foldl Meter.post meter).metrics.current_block = meter.metrics.current_block := by
  induction more generalizing meter with
  | nil => exact ⟨rfl,rfl⟩
  | cons e more ih =>
    have same : (meter.post e).metrics.blocks_proposed = meter.metrics.blocks_proposed ∧
        (meter.post e).metrics.current_block = meter.metrics.current_block := by
      unfold Meter.post
      cases e.channel with
      | Announce => by_cases lost : meter.reached.head = 0 <;> simp [Meter.broadcast,lost]
      | Data => by_cases lost : meter.reached.head = 0 <;> simp [Meter.send,lost]
    rw [List.foldl_cons,(ih _).1,(ih _).2]
    exact same

variable {config : Config σ K} {net : Network σ K}

/-- The proposer of a network after a run, with what it has counted. -/
structure ProposerMetered (P : Protocol σ) (config : Config σ K) (reached : Stream' Nat) (net : Network σ K) (meter : Meter) :
    Prop where
  ran : metered_proposals P config.block_size net.blocks.length (config.start.proposer,⟨Metrics.default,reached⟩) =
    .ok (net.proposer,meter)
  proposed : meter.metrics.blocks_proposed = net.blocks.length
  current : meter.metrics.current_block = gauge (net.blocks.length - 1)
  billed : Billed reached (posted config.source net.sent) meter
  announcements : count .Announce (posted config.source net.sent) = net.blocks.length
  packets : count .Data (posted config.source net.sent) ≤ config.mesh_degree config.source * net.blocks.length
  mesh : net.proposer.mesh_degree = config.mesh_degree config.source

theorem count_proposal (source : K) (proposed : Proposed K) : count .Announce (proposal_of source proposed) = 1 ∧
    count .Data (proposal_of source proposed) = proposed.packets.length := by
  simp [count,proposal_of,List.countP_map,List.countP_eq_zero,List.countP_eq_length]

theorem ProposerMetered.propose {reached : Stream' Nat} {meter : Meter} (metered : ProposerMetered P config reached net meter)
    {next : Network σ K} (ran : net.propose P config = some next) :
    ∃ meter', ProposerMetered P config reached next meter' := by
  obtain ⟨proposer,proposed,_,made,rfl⟩ := Network.propose_cases ran
  obtain ⟨kept,_⟩ := propose_block_frame made
  have few := propose_block_few made
  have sent : posted config.source (net.sent ++ proposal_of config.source proposed) =
      posted config.source net.sent ++ proposal_of config.source proposed := Network.posted_proposal _ _ _
  obtain ⟨one,many⟩ := count_proposal config.source proposed
  obtain ⟨counted,number⟩ := post_all_fixed (proposal_of config.source proposed) { meter with metrics := { meter.metrics with
    blocks_proposed := meter.metrics.blocks_proposed + 1, current_block := gauge net.blocks.length } }
  refine ⟨meter.propose net.blocks.length proposed,?_,?_,?_,?_,?_,?_,kept.trans metered.mesh⟩
  · simp only [List.length_append,List.length_singleton,metered_proposals,metered.ran,ok_bind,made,pure_eq]
  · rw [propose_posts meter config.source,counted,List.length_append,List.length_singleton,metered.proposed]
  · rw [propose_posts meter config.source,number,List.length_append,List.length_singleton,Nat.add_sub_cancel]
  · rw [propose_posts meter config.source]
    show Billed reached (posted config.source (net.sent ++ proposal_of config.source proposed)) _
    rw [sent]
    obtain ⟨left,packets,most,least⟩ := metered.billed
    refine Billed.post_all ?_ _
    exact ⟨left,packets,most,least⟩
  · show count .Announce (posted config.source (net.sent ++ proposal_of config.source proposed)) = _
    rw [sent,count,List.countP_append,← count,← count,metered.announcements,one,List.length_append,List.length_singleton]
  · show count .Data (posted config.source (net.sent ++ proposal_of config.source proposed)) ≤ _
    rw [sent,count,List.countP_append,← count,← count,many,List.length_append,List.length_singleton,Nat.mul_succ]
    rw [metered.mesh] at few
    exact Nat.add_le_add metered.packets few

/-- In every run, with any protocol, the counters of the proposer are those of its loop, and they tell
    what it has sent: its blocks, and the messages that reached a peer. -/
theorem proposer_counted (P : Protocol σ) (config : Config σ K) (reached : Stream' Nat) {actions : List (Action K)}
    (ran : config.start.run P config actions = some net) : ∃ meter, ProposerMetered P config reached net meter := by
  have kept : ∀ net action next, (∃ meter, ProposerMetered P config reached net meter) → net.step P config action = some next →
      ∃ meter, ProposerMetered P config reached next meter := by
    rintro net action next ⟨meter,metered⟩ stepped
    cases action with
    | propose => exact metered.propose stepped
    | deliver k i =>
      obtain ⟨e,_,receives,_,rfl⟩ := Network.deliver_cases stepped
      have same : posted config.source (net.deliver P config k e).sent = posted config.source net.sent :=
        Network.posted_deliver receives e
      obtain ⟨ran,proposed,current,billed,announcements,packets,mesh⟩ := metered
      rw [← same] at billed announcements packets
      exact ⟨meter,ran,proposed,current,billed,announcements,packets,mesh⟩
  have started : ∃ meter, ProposerMetered P config reached config.start meter :=
    ⟨⟨Metrics.default,reached⟩,rfl,rfl,rfl,Billed.start reached,rfl,Nat.zero_le _,rfl⟩
  exact Network.run_keeps P config kept started ran

end

section
open Rlnc.Reference

/-- A proposer with two peers, both of which are reached each time. -/
private def both_reached : Config BaselineProtocol Nat :=
  ⟨0,fun _ => BaselineProtocol.new,fun k => if k = 0 then [1,2] else [0],fun _ => 2,fun _ => Stream'.const 1,fun _ => 3,0⟩

theorem proposer_counted_twice : ∃ net, both_reached.start.run BaselineProtocol.protocol both_reached [.propose,.propose] = some net ∧
    ∃ meter, metered_proposals BaselineProtocol.protocol 0 2 (both_reached.start.proposer,
        ⟨Metrics.default,fun i => if i % 3 = 0 then 2 else 1⟩) = .ok (net.proposer,meter) ∧
      meter.metrics.packets_sent = 4 ∧ 2 ≤ meter.metrics.announcements_sent ∧ meter.metrics.announcements_sent ≤ 4 := by
  have ran : (both_reached.start.run BaselineProtocol.protocol both_reached [.propose,.propose]).map (fun net =>
      (net.blocks.length,count .Data (posted 0 net.sent))) = some (2,4) := by decide +kernel
  obtain ⟨net,proposed,counted⟩ := Option.map_eq_some_iff.mp ran
  obtain ⟨two,four⟩ := Prod.mk.inj counted
  obtain ⟨meter,metered⟩ := proposer_counted BaselineProtocol.protocol both_reached
    (fun i => if i % 3 = 0 then 2 else 1) proposed
  have some_peer : ∀ i, 1 ≤ Stream'.get (fun i => if i % 3 = 0 then 2 else 1) i := fun i => by
    show 1 ≤ if i % 3 = 0 then 2 else 1
    split <;> omega
  have both_peers : ∀ i, Stream'.get (fun i => if i % 3 = 0 then 2 else 1) i ≤ 2 := fun i => by
    show (if i % 3 = 0 then 2 else 1) ≤ 2
    split <;> omega
  obtain ⟨all,many,_⟩ := metered.billed.least 1 Nat.one_pos some_peer
  obtain ⟨few,_⟩ := metered.billed.most 2 both_peers
  have once := metered.announcements
  have loop := metered.ran
  rw [two] at once loop
  rw [once] at many few
  exact ⟨net,proposed,meter,loop,all.trans four,many,few⟩

end

/-! ### The protocols -/

section
variable {σ F : Type} [Field F] [DecidableEq F] [PackableField F] [FixedCodec F] [Random F] {N : Nat}
  {Context Proof Error : Type} [IntegrityProof Proof] [FixedCodec UInt64] [BytesCodec]
  {S : IntegrityScheme F N Context Proof Error} {P : Protocol σ} {view : σ → CodedState F N Context Proof}

/-- Each useful packet raises the rank by one, and nothing else changes it. -/
theorem coded_tallied (coded : Coded P S view) :
    Tallied P (fun s => Sound (view s).decoder) (fun s => (view s).decoder.rank) N where
  ingest s channel n data s' r sound ran := by
    obtain ⟨sound',_,raised⟩ := ingest_ranks coded sound ran
    refine ⟨sound',?_⟩
    cases channel with
    | Announce =>
      have seen := coded.announce s n data
      rw [ran] at seen
      have same : view s' = ((view s).announce n data).1 := congrArg Prod.fst (Except.ok.inj seen)
      rw [if_neg (by simp),same,CodedState.announce]
      split <;> rfl
    | Data =>
      by_cases useful : r = .ok true
      · rw [if_pos ⟨rfl,useful⟩]
        exact raised rfl useful
      · rw [if_neg (fun both => useful both.2)]
        rcases (coded.ingest_cases ran).2 with ⟨kept,_⟩ | ⟨packet,ctx,_,received⟩
        · rw [kept]
          rfl
        · rcases coded_receive_cases received with ⟨_,kept⟩ | ⟨counted,_⟩
          · rw [(Prod.mk.inj kept).1]
            rfl
          · exact absurd counted useful
  within s sound := BlockDecoder.rank_le sound
  complete s sound full := by
    rw [BlockDecoder.rank_eq sound] at full
    rw [coded.is_complete]
    exact (BlockDecoder.is_complete_iff sound).mpr full
  full s sound complete := by
    rw [coded.is_complete] at complete
    rw [BlockDecoder.rank_eq sound]
    exact (BlockDecoder.is_complete_iff sound).mp complete
  finish s block s' sound ran := by
    obtain rfl := coded.decode_same ran
    simp only [(coded.reset_block s').1,BlockDecoder.sound_reset sound]
    exact ⟨BlockDecoder.sound_new,BlockDecoder.rank_eq BlockDecoder.sound_new⟩

/-- The full block is the one useful packet. -/
theorem baseline_tallied :
    Tallied BaselineProtocol.protocol (fun _ => True) (fun s => if s.block.isSome then 1 else 0) 1 where
  ingest s channel n data s' r _ ran := by
    refine ⟨trivial,?_⟩
    cases channel with
    | Announce =>
      simp only [BaselineProtocol.protocol,BaselineProtocol.ingest] at ran
      split at ran <;> obtain ⟨rfl,_⟩ := ok_pair ran <;> simp
    | Data =>
      simp only [BaselineProtocol.protocol,BaselineProtocol.ingest] at ran
      by_cases held : s.block.isSome = true
      · rw [if_pos held] at ran
        obtain ⟨rfl,rfl⟩ := ok_pair ran
        simp
      · rw [if_neg held] at ran
        cases read : Block.decode data with
        | error e =>
          rw [read] at ran
          obtain ⟨rfl,rfl⟩ := ok_pair ran
          simp
        | ok block =>
          rw [read] at ran
          obtain ⟨rfl,rfl⟩ := ok_pair ran
          simp [held]
  within s _ := by split <;> omega
  complete s _ full := by
    by_contra lacking
    simp [BaselineProtocol.protocol] at lacking
    simp [lacking] at full
  full s _ complete := if_pos complete
  finish s block s' _ _ := ⟨trivial,rfl⟩

end

section
variable (F G S PublicKey Signature G1 G2 : Type) [Field F] [DecidableEq F] [PackableField F] [FixedCodec F] [Random F]
  [AddCommGroup G] [DecidableEq G] [Module F G] [Space F G] [HashToGroup G] [FixedCodec G]
  [Verifier PublicKey Signature] [Signer S PublicKey Signature] [FixedCodec Signature] [AddCommGroup G1] [Module F G1]
  [AddCommGroup G2] [Module F G2] [Space F G2] [HashToGroup G2] [PairingGroup G1 G2] [FixedCodec G2] [FixedCodec UInt32]
  [FixedCodec UInt64] [BytesCodec] (N : Nat) {K : Type} [DecidableEq K] [SliceRandom]

/-- Whatever arrives at a receiver that does not panic, its counters tell how far it is. With a coded
    protocol the useful packets are `N` for each decoded block and the rank of the current one, and at
    most `mesh_degree` packets were sent for each of them that did not complete its block. With the
    full-block protocol the useful packets are the decoded blocks, for each of which at most `mesh_degree`
    packets were sent, and none is redundant. -/
theorem counters_truthful (some_chunk : 0 < N) (peers : List K) (degree : Nat) (rng : Rng) (reached : Stream' Nat) (reach : Nat)
    (bounded : ∀ i, reached.get i ≤ reach) (num_blocks : Nat) (messages : List (K × Channel × Bytes)) (m : Nat) :
    (∀ (proposer_pk : PublicKey) (signer : Option (Pedersen.PedersenSigner S)),
      ∀ node, node = metered_run (PedersenProtocol.protocol F G S PublicKey Signature N)
        (PedersenProtocol.new m proposer_pk signer) peers degree rng reached num_blocks messages →
      node.receiver.panicked = none → Accounted N node.receiver.protocol.decoder.rank 1 degree reach node) ∧
    (∀ (proposer_pk : G1) (signer : Option (Bfkw.BfkwSigner F G1)),
      ∀ node, node = metered_run (BfkwProtocol.protocol F G1 G2 N)
        (BfkwProtocol.new m proposer_pk signer) peers degree rng reached num_blocks messages →
      node.receiver.panicked = none → Accounted N node.receiver.protocol.decoder.rank 1 degree reach node) ∧
    ∀ node, node = metered_run BaselineProtocol.protocol BaselineProtocol.new peers degree rng reached num_blocks messages →
      node.receiver.panicked = none → Accounted 1 0 0 degree reach node ∧ node.meter.metrics.packets_redundant = 0 := by
  refine ⟨?_,?_,?_⟩
  · rintro proposer_pk signer node rfl alive
    refine (run_truthful (coded_tallied PedersenProtocol.coded) (.inr ⟨rfl,fun _ => rfl⟩) ?_ ?_ some_chunk peers rng bounded num_blocks
      messages alive).accounted
    · exact BlockDecoder.sound_new
    · exact BlockDecoder.rank_eq BlockDecoder.sound_new
  · rintro proposer_pk signer node rfl alive
    refine (run_truthful (coded_tallied BfkwProtocol.coded) (.inr ⟨rfl,fun _ => rfl⟩) ?_ ?_ some_chunk peers rng bounded num_blocks
      messages alive).accounted
    · exact BlockDecoder.sound_new
    · exact BlockDecoder.rank_eq BlockDecoder.sound_new
  · rintro node rfl alive
    have truthful : Truthful BaselineProtocol.protocol _ _ 1 0 degree reach _ _ [] :=
      run_truthful baseline_tallied (.inl rfl) trivial rfl Nat.one_pos peers rng bounded num_blocks messages alive
    refine ⟨?_,truthful.never ?_⟩
    · have accounted := truthful.accounted
      have none := truthful.reports.incomplete
      rwa [Nat.lt_one_iff.mp none] at accounted
    · intro s n data t _ lacking ran
      have empty : s.block.isSome ≠ true := fun held => by simp [held] at lacking
      simp only [BaselineProtocol.protocol,BaselineProtocol.ingest,if_neg empty] at ran
      split at ran
      · cases (ok_pair ran).2
      · cases (ok_pair ran).2

end

section
open Rlnc.Scalars Rlnc.Reference

/-- A block of two chunks arrives, with its first packet once more. -/
private def twice_sent : List (Nat × Channel × Bytes) :=
  (propose_block (BfkwProtocol.protocol Scalar Scalar Scalar 2) 0
    (NodeActor.new (BfkwProtocol.new 2 (scalar 3) (some ⟨scalar 3,scalar 3⟩)) [1,2] 2 powers) 0).toOption.elim [] fun made =>
      (0,.Announce,made.2.ann_msg) :: (made.2.packets.take 1 ++ made.2.packets).map fun entry => (0,.Data,entry.2)

/-- A node with two peers that each send reaches. -/
private def counting : Metered (BfkwProtocol Scalar Scalar Scalar 2) Nat :=
  metered_run (BfkwProtocol.protocol Scalar Scalar Scalar 2) (BfkwProtocol.new 2 (scalar 3) none) [0,2] 1 powers
    (Stream'.const 2) 2 twice_sent

theorem counters_truthful_two : counting.meter.metrics.blocks_decoded = 1 ∧ counting.meter.metrics.packets_useful = 2 ∧
    counting.meter.metrics.packets_sent ≤ 1 ∧ counting.meter.metrics.announcements_sent ≤ 2 := by
  have seen : (counting.receiver.panicked.isNone,counting.receiver.decoded_count,counting.receiver.state,
      counting.receiver.protocol.decoder.rank) = (true,1,.Init 1,0) := by
    decide +kernel
  obtain ⟨alive,seen⟩ := Prod.mk.inj seen
  obtain ⟨count,seen⟩ := Prod.mk.inj seen
  obtain ⟨state,rank⟩ := Prod.mk.inj seen
  have accounted := (counters_truthful Scalar Scalar Bytes Bytes UInt64 Scalar Scalar 2 (by decide) [0,2] 1 powers
    (Stream'.const 2) 2 (fun _ => le_rfl) 2 twice_sent 2).2.1 (scalar 3) none counting rfl (Option.isNone_iff_eq_none.mp alive)
  have decoded := accounted.reports.decoded
  have useful := accounted.reports.useful
  have sent := accounted.reports.sent
  have announced := accounted.reports.announced
  rw [count] at decoded
  rw [rank,decoded] at useful
  rw [useful,decoded] at sent
  rw [state] at announced
  exact ⟨decoded,useful,by omega,announced⟩

end

end Rlnc.Counters
