import Rlnc.InOrder

/-!
A receiver against the reference. Messages wait in the buffer of a receiver and in its
work queue; from wherever they are, the reference would go on as the receiver does
(`resume`, `process_goes`). Whatever the order of arrival, a receiver therefore ends
as the reference does (`in_order_refined`).
-/
namespace Rlnc.Reordering
open Rlnc.Panics Rlnc.Wire Rlnc.Draws Rlnc.Blocks Rlnc.Protocols Rlnc.Actor Rlnc.Runs Rlnc.InOrder
set_option linter.unusedSectionVars false

theorem accepted_iff (r : Except String Bool) : accepted r = true ↔ r = .ok true := by
  unfold accepted
  split <;> simp_all

/-- The messages that were handed to the protocol. -/
def ingests {σ K : Type} (log : List (Event σ K)) : List Item :=
  log.filterMap fun
    | .ingest _ channel n data => some (channel,n,data)
    | _ => none

section
variable {σ K : Type} [DecidableEq K] [SliceRandom] (P : Protocol σ)

def progress (node : Receiver σ K) : Progress σ :=
  ⟨node.state,node.protocol,node.decoded_count,decodes node.log,ingests node.log⟩

/-- What the reference does from where the receiver is, with the messages that it has
    yet to handle. -/
def resume (node : Receiver σ K) (pending : List Item) : Rust (Progress σ) :=
  match node.state with
  | .Init n => in_order P pending n (progress node)
  | .Decoding n => decode_block P n (payloads .Data n pending) (in_order P pending (n + 1)) (progress node)

/-- What a receiver may hold in its buffer. -/
def Ahead : ActorState → Item → Prop
  | .Init n, item => n < item.2.1 ∨ item.2.1 = n ∧ item.1 = .Data
  | .Decoding n, item => n < item.2.1

/-- The places of the messages of a receiver: in its queue no later block and no
    announcement behind a data packet, and of its own block data packets in the buffer
    only while none is in the queue behind an announcement. -/
structure Arranged (node : Receiver σ K) (work : List Item) : Prop where
  stale : ∀ item ∈ work, item.2.1 ≤ node.state.current_block
  ahead : ∀ item ∈ node.buffer, Ahead node.state item
  sorted : work.Pairwise (fun a b => a.1 = .Data → a.2.1 = node.state.current_block →
    ¬(b.1 = .Announce ∧ b.2.1 = node.state.current_block))
  apart : ∀ n, node.state = .Init n → payloads .Data n node.buffer = [] ∨ payloads .Announce n work = [] ∨
    payloads .Data n work = []

/-- Recoding panics in the state that the receiver is in. -/
def RecodePanics (node : Receiver σ K) (p : Panic) : Prop := P.recode node.protocol node.mesh_degree node.rng = .error p

/-- A message was handled as the reference expects it, or something panicked. -/
def Goes (work : List Item) (expected : List Item → Rust (Progress σ)) (r : Receiver σ K × List Item) : Prop :=
  match r.1.panicked with
  | none => Arranged r.1 (work ++ r.2) ∧ ∀ later, expected later = resume P r.1 (r.1.buffer ++ (work ++ r.2) ++ later)
  | some p => (∀ later, expected later = .error p) ∨ RecodePanics P r.1 p

variable {P} {self : Receiver σ K}

/-- Only messages from the current block on matter. -/
theorem resume_congr {pending pending' : List Item}
    (same : ∀ channel k, (match self.state with
      | .Init n => n ≤ k
      | .Decoding n => n < k ∨ k = n ∧ channel = .Data) → payloads channel k pending = payloads channel k pending') :
    resume P self pending = resume P self pending' := by
  unfold resume
  cases state : self.state with
  | Init n =>
    rw [state] at same
    exact congrFun (in_order_congr n same) _
  | Decoding n =>
    rw [state] at same
    have later : in_order P pending (n + 1) = in_order P pending' (n + 1) :=
      in_order_congr (n + 1) (fun channel k from_next => same channel k (.inl (by omega)))
    simp only [same .Data n (.inr ⟨rfl,rfl⟩),later]

/-- Nothing of the next block is in the queue, and its messages come from the buffer. -/
theorem drained_payloads {buffer work later : List Item} {n : Nat} (stale : ∀ item ∈ work, item.2.1 ≤ n)
    (channel : Channel) {k : Nat} (from_next : n + 1 ≤ k) :
    payloads channel k (buffer ++ work ++ later) =
      payloads channel k ((Buffer.remove buffer (n + 1)).2 ++ (work ++ (on_channel .Announce (Buffer.remove buffer (n + 1)).1 ++
        on_channel .Data (Buffer.remove buffer (n + 1)).1)) ++ later) := by
  have none_old : payloads channel k work = [] := payloads_none (fun item member same => by
    have old := stale item member
    omega)
  simp only [payloads_append,Buffer.remove,payloads_removed,payloads_on_channel,none_old]
  by_cases here : k = n + 1
  · subst here
    cases channel <;> simp
  · simp [here,Ne.symm here]

theorem Goes.alive {work : List Item} {expected : List Item → Rust (Progress σ)} {r : Receiver σ K × List Item}
    (alive : r.1.panicked = none) (arranged : Arranged r.1 (work ++ r.2))
    (same : ∀ later, expected later = resume P r.1 (r.1.buffer ++ (work ++ r.2) ++ later)) : Goes P work expected r := by
  rw [Goes,alive]
  exact ⟨arranged,same⟩

theorem Goes.panicked {work : List Item} {expected : List Item → Rust (Progress σ)} {r : Receiver σ K × List Item} {p : Panic}
    (stopped : r.1.panicked = some p)
    (same : (∀ later, expected later = .error p) ∨ RecodePanics P r.1 p) :
    Goes P work expected r := by
  rw [Goes,stopped]
  exact same

theorem on_channel_members {buffer : Buffer} {channel : Channel} {n : Nat} {item : Item}
    (member : item ∈ on_channel channel (buffer.remove n).1) : item.1 = channel ∧ item.2.1 = n := by
  obtain ⟨held,same⟩ := List.mem_filter.mp member
  exact ⟨by simpa using same,by simpa using (List.mem_filter.mp held).2⟩

/-- The drained messages come behind stale ones, with the announcements in front. -/
theorem drained_sorted {buffer : Buffer} {work : List Item} {n : Nat} (stale : ∀ item ∈ work, item.2.1 ≤ n) :
    (work ++ (on_channel .Announce (buffer.remove (n + 1)).1 ++ on_channel .Data (buffer.remove (n + 1)).1)).Pairwise
      (fun a b => a.1 = .Data → a.2.1 = n + 1 → ¬(b.1 = .Announce ∧ b.2.1 = n + 1)) := by
  have old : ∀ a ∈ work, a.2.1 ≠ n + 1 := fun a member => by
    have known := stale a member
    omega
  have announcement : ∀ a ∈ on_channel .Announce (buffer.remove (n + 1)).1, a.1 ≠ .Data := fun a member => by
    rw [(on_channel_members member).1]
    decide
  have packet : ∀ b ∈ on_channel .Data (buffer.remove (n + 1)).1, b.1 ≠ .Announce := fun b member => by
    rw [(on_channel_members member).1]
    decide
  refine List.pairwise_append.mpr ⟨?_,List.pairwise_append.mpr ⟨?_,?_,?_⟩,?_⟩
  · exact List.pairwise_of_forall_mem_list fun a member _ _ _ same => absurd same (old a member)
  · exact List.pairwise_of_forall_mem_list fun a member _ _ data => absurd data (announcement a member)
  · exact List.pairwise_of_forall_mem_list fun _ _ b member _ _ both => packet b member both.1
  · exact fun a member _ _ data => absurd data (announcement a member)
  · exact fun a member _ _ _ same => absurd same (old a member)

/-- The buffered messages of the next block become its queue. -/
theorem finish_goes (alive : self.panicked = none) {n : Nat} (ahead : ∀ item ∈ self.buffer, n < item.2.1)
    {work : List Item} (stale : ∀ item ∈ work, item.2.1 ≤ n) :
    Goes P work (fun later => advance P n (progress self) >>= in_order P (self.buffer ++ work ++ later) (n + 1))
      (self.finish P n) := by
  cases decoded : P.decode self.protocol with
  | error p =>
    rw [self.finish_panics P n decoded]
    refine .panicked rfl (.inl fun later => ?_)
    simp only [advance,progress,decoded,error_bind]
  | ok result =>
    obtain ⟨block,protocol⟩ := result
    by_cases more : self.decoded_count + 1 < 2 ^ 64 ∧ n + 1 < 2 ^ 64
    · have new_items : ∀ item ∈ on_channel .Announce (self.buffer.remove (n + 1)).1 ++
          on_channel .Data (self.buffer.remove (n + 1)).1, item.2.1 = n + 1 := fun item new => by
        rcases List.mem_append.mp new with announcement | packet
        · exact (on_channel_members announcement).2
        · exact (on_channel_members packet).2
      rw [self.finish_advances P n decoded more.1 more.2]
      refine .alive alive ⟨?_,?_,?_,?_⟩ fun later => ?_
      · intro item member
        change item.2.1 ≤ n + 1
        rcases List.mem_append.mp member with old | new
        · have known := stale item old
          omega
        · exact (new_items item new).le
      · intro item member
        obtain ⟨held,other⟩ := List.mem_filter.mp member
        have known := ahead item held
        refine .inl ?_
        simp only [ne_eq,decide_not,Bool.not_eq_eq_eq_not,Bool.not_true,decide_eq_false_iff_not] at other
        omega
      · exact drained_sorted stale
      · rintro k ⟨⟩
        left
        exact (payloads_removed self.buffer).trans (if_pos rfl)
      · have logged : decodes (self.log ++ [.decoded n block]) = decodes self.log ++ [(n,block)] ∧
            ingests (self.log ++ [.decoded n block]) = ingests self.log := by
          simp [decodes,ingests]
        have going : advance P n (progress self) = _ := advance_ok decoded more.1 more.2
        rw [going,ok_bind,in_order_congr (n + 1) (fun channel k from_next => drained_payloads stale channel from_next)]
        simp only [resume,progress,Receiver.record,logged.1,logged.2]
    · obtain ⟨count,stopped⟩ := self.finish_overflows P n decoded (by omega)
      rw [stopped]
      refine .panicked rfl (.inl fun later => ?_)
      have last : advance P n (progress self) = _ := advance_overflows decoded (by simp only [progress]; omega)
      rw [last,error_bind]

/-- Forwarding is not seen by the reference. -/
theorem forward_progress (alive : self.panicked = none) (n : Nat) (sender : Option K) :
    (∃ p, (self.forward P n sender).panicked = some p ∧ RecodePanics P (self.forward P n sender) p) ∨
    (self.forward P n sender).panicked = none ∧ progress (self.forward P n sender) = progress self ∧
      (self.forward P n sender).buffer = self.buffer := by
  rcases self.forward_spec P n sender with ⟨p,failed,sent⟩ | ⟨packets,rng,targets,_,sent⟩
  · exact .inl ⟨p,by rw [sent]; rfl,by rw [sent]; exact failed⟩
  · have logged : ∀ batch, decodes (self.log ++ [Event.forwarded n batch]) = decodes self.log ∧
        ingests (self.log ++ [Event.forwarded n batch]) = ingests self.log := by
      simp [decodes,ingests]
    refine .inr ⟨by rw [sent]; exact alive,?_,by rw [sent]; rfl⟩
    rw [sent]
    simp only [progress,Receiver.record,(logged _).1,(logged _).2]

/-- Where the messages are depends on the state and the buffer only. -/
theorem Arranged.of_same {node : Receiver σ K} {work : List Item} (arranged : Arranged self work)
    (state : node.state = self.state) (buffer : node.buffer = self.buffer) : Arranged node work :=
  ⟨by rw [state]; exact arranged.stale,by rw [state,buffer]; exact arranged.ahead,by rw [state]; exact arranged.sorted,
    by rw [state,buffer]; exact arranged.apart⟩

theorem resume_same {node : Receiver σ K} (same : progress node = progress self) (pending : List Item) :
    resume P node pending = resume P self pending := by
  have state : node.state = self.state := congrArg Progress.state same
  simp only [resume,state,same]

/-- After a packet that brought something the block goes on or is finished. -/
theorem on_useful_goes (alive : self.panicked = none) {n : Nat} (state : self.state = .Decoding n)
    {work : List Item} (arranged : Arranged self work) (sender : Option K) :
    Goes P work (fun later =>
      if P.is_complete self.protocol then
        advance P n (progress self) >>= in_order P (self.buffer ++ work ++ later) (n + 1)
      else resume P self (self.buffer ++ work ++ later)) (self.on_useful P n sender) := by
  obtain ⟨sent,named⟩ : ∃ sent, sent = if self.should_forward P then self.forward P n sender else self := ⟨_,rfl⟩
  have forwarded : (∃ p, sent.panicked = some p ∧ RecodePanics P sent p) ∨
      sent.panicked = none ∧ progress sent = progress self ∧ sent.buffer = self.buffer := by
    rw [named]
    split
    · exact forward_progress alive n sender
    · exact .inr ⟨alive,rfl,rfl⟩
  simp only [Receiver.on_useful,← named]
  rcases forwarded with ⟨p,stopped,failed⟩ | ⟨alive,same,buffer⟩
  · rw [if_pos (by rw [stopped]; rfl)]
    exact .panicked stopped (.inr failed)
  · have same_state : sent.state = self.state := congrArg Progress.state same
    have same_protocol : sent.protocol = self.protocol := congrArg Progress.protocol same
    rw [if_neg (by rw [alive]; decide),same_protocol]
    by_cases complete : P.is_complete self.protocol = true
    · simp only [if_pos complete,← same,← buffer]
      refine finish_goes alive ?_ ?_
      · intro item member
        have held := arranged.ahead item (buffer ▸ member)
        rwa [state] at held
      · intro item member
        have old := arranged.stale item member
        rwa [state] at old
    · simp only [if_neg complete]
      refine .alive alive ?_ fun later => ?_
      · rw [List.append_nil]
        exact arranged.of_same same_state buffer
      · rw [List.append_nil,buffer]
        exact (resume_same same _).symm

/-- The receiver after its protocol took a message. -/
def heard (self : Receiver σ K) (channel : Channel) (n : Nat) (data : Bytes) (protocol : σ) : Receiver σ K :=
  { self.record (.ingest self.protocol channel n data) with protocol }

theorem progress_heard (channel : Channel) (n : Nat) (data : Bytes) (protocol : σ) :
    progress (heard self channel n data protocol) = (progress self).hear channel n data protocol := by
  simp [progress,Progress.hear,heard,Receiver.record,decodes,ingests]

theorem Arranged.heard {work : List Item} (arranged : Arranged self work) (channel : Channel) (n : Nat) (data : Bytes)
    (protocol : σ) : Arranged (heard self channel n data protocol) work := arranged.of_same rfl rfl

theorem Goes.congr {work : List Item} {expected expected' : List Item → Rust (Progress σ)} {r : Receiver σ K × List Item}
    (goes : Goes P work expected r) (same : ∀ later, expected' later = expected later) : Goes P work expected' r := by
  obtain rfl : expected' = expected := funext same
  exact goes

theorem Arranged.tail {item : Item} {work : List Item} (arranged : Arranged self (item :: work)) : Arranged self work := by
  refine ⟨fun other member => arranged.stale other (List.mem_cons_of_mem item member),arranged.ahead,
    (List.pairwise_cons.mp arranged.sorted).2,fun n state => ?_⟩
  obtain ⟨channel,k,data⟩ := item
  have known := arranged.apart n state
  simp only [payloads_cons] at known
  rcases known with none | none | none
  · exact .inl none
  · split at none
    · cases none
    · exact .inr (.inl none)
  · split at none
    · cases none
    · exact .inr (.inr none)

/-- A data packet of the block that is decoded. -/
theorem on_data_goes (alive : self.panicked = none) {n : Nat} (state : self.state = .Decoding n) {data : Bytes}
    {work : List Item} (arranged : Arranged self ((.Data,n,data) :: work)) (sender : Option K) :
    Goes P work (fun later => resume P self (self.buffer ++ (.Data,n,data) :: work ++ later))
      (self.on_data P n data sender) := by
  have none_held : payloads .Data n self.buffer = [] := payloads_none fun item member same => by
    have held := arranged.ahead item member
    rw [state] at held
    exact absurd same.2 (Nat.ne_of_gt held)
  have opened : ∀ later, resume P self (self.buffer ++ (.Data,n,data) :: work ++ later) =
      decode_block P n (data :: payloads .Data n (self.buffer ++ work ++ later))
        (in_order P (self.buffer ++ work ++ later) (n + 1)) (progress self) := by
    intro later
    have next : in_order P (self.buffer ++ (.Data,n,data) :: work ++ later) (n + 1) =
        in_order P (self.buffer ++ work ++ later) (n + 1) := in_order_congr (n + 1) fun channel k from_next => by
      simp only [payloads_append,payloads_other (.inl (show n ≠ k by omega))]
    simp only [resume,state,next,payloads_append,payloads_here,none_held,List.nil_append,List.cons_append]
  simp only [opened,decode_block_cons]
  cases ran : P.ingest self.protocol .Data n data with
  | error p =>
    rw [self.on_data_panics P sender ran]
    refine .panicked rfl (.inl fun later => ?_)
    simp only [progress,ran,error_bind]
  | ok result =>
    obtain ⟨s',r⟩ := result
    have same : progress (heard self .Data n data s') = (progress self).hear .Data n data s' :=
      progress_heard .Data n data s'
    have going : ∀ later, resume P (heard self .Data n data s') (self.buffer ++ work ++ later) =
        decode_block P n (payloads .Data n (self.buffer ++ work ++ later))
          (in_order P (self.buffer ++ work ++ later) (n + 1)) ((progress self).hear .Data n data s') := by
      intro later
      have state' : (heard self .Data n data s').state = .Decoding n := state
      simp only [resume,state',same]
    have handed : P.ingest (progress self).protocol .Data n data = .ok (s',r) := ran
    have arranged' := arranged.tail.heard .Data n data s'
    simp only [handed,ok_bind]
    by_cases useful : r = .ok true
    · subst useful
      rw [self.on_data_useful P sender ran]
      have alive' : (heard self .Data n data s').panicked = none := alive
      refine (on_useful_goes alive' state arranged' sender).congr fun later => ?_
      change (if true && P.is_complete s' then _ else _) = if P.is_complete s' then _ else _
      rw [Bool.true_and,same,← going]
      rfl
    · rw [self.on_data_refuses P sender ran useful]
      have idle : accepted r = false := by
        rw [Bool.eq_false_iff,ne_eq,accepted_iff]
        exact useful
      refine .alive (r := (heard self .Data n data s',[])) alive (by rwa [List.append_nil]) fun later => ?_
      simp only [idle,Bool.false_and,Bool.false_eq_true,if_false,List.append_nil]
      exact (going later).symm

/-- The buffered data packets of the announced block go behind the queue. -/
theorem announced_payloads {buffer work : List Item} {n : Nat}
    (apart : payloads .Data n buffer = [] ∨ payloads .Data n work = []) (later : List Item) {channel : Channel} {k : Nat}
    (matters : n < k ∨ k = n ∧ channel = .Data) :
    payloads channel k (buffer ++ work ++ later) =
      payloads channel k ((Buffer.remove buffer n).2 ++ (work ++ on_channel .Data (Buffer.remove buffer n).1) ++ later) := by
  simp only [payloads_append,Buffer.remove,payloads_removed,payloads_on_channel]
  rcases matters with later | ⟨rfl,rfl⟩
  · rw [if_neg (by omega),if_neg (by omega),List.append_nil]
  · rw [if_pos rfl,if_pos ⟨rfl,rfl⟩,List.nil_append]
    rcases apart with none | none <;> simp [none]

/-- An announcement of the block that is waited for. -/
theorem on_announce_goes (alive : self.panicked = none) {n : Nat} (state : self.state = .Init n) {data : Bytes}
    {work : List Item} (arranged : Arranged self ((.Announce,n,data) :: work)) :
    Goes P work (fun later => resume P self (self.buffer ++ (.Announce,n,data) :: work ++ later))
      (self.on_announce P n data) := by
  have none_held : payloads .Announce n self.buffer = [] := payloads_none fun item member same => by
    have held := arranged.ahead item member
    rw [state] at held
    rcases held with later | packet
    · exact absurd same.2 (Nat.ne_of_gt later)
    · exact absurd (same.1.symm.trans packet.2) (by decide)
  have opened : ∀ later, resume P self (self.buffer ++ (.Announce,n,data) :: work ++ later) =
      handle_block P n (data :: payloads .Announce n (self.buffer ++ work ++ later))
        (payloads .Data n (self.buffer ++ work ++ later)) (in_order P (self.buffer ++ work ++ later) (n + 1)) (progress self) := by
    intro later
    have next : in_order P (self.buffer ++ (.Announce,n,data) :: work ++ later) (n + 1) =
        in_order P (self.buffer ++ work ++ later) (n + 1) := in_order_congr (n + 1) fun channel k from_next => by
      simp only [payloads_append,payloads_other (.inl (show n ≠ k by omega))]
    have packets : payloads .Data n ((.Announce,n,data) :: work) = payloads .Data n work := payloads_other (.inr (by decide))
    simp only [resume,state,in_order_eq (n := n),next,payloads_append,payloads_here,packets,none_held,List.nil_append,
      List.cons_append]
  simp only [opened,handle_block_cons]
  cases ran : P.ingest self.protocol .Announce n data with
  | error p =>
    rw [self.on_announce_panics P ran]
    refine .panicked rfl (.inl fun later => ?_)
    simp only [progress,ran,error_bind]
  | ok result =>
    obtain ⟨s',r⟩ := result
    have handed : P.ingest (progress self).protocol .Announce n data = .ok (s',r) := ran
    simp only [handed,ok_bind]
    have same : progress (heard self .Announce n data s') = (progress self).hear .Announce n data s' :=
      progress_heard .Announce n data s'
    by_cases useful : r = .ok true
    · subst useful
      rw [self.on_announce_accepts P ran]
      have new_items : ∀ item ∈ on_channel .Data (self.buffer.remove n).1, item.1 = .Data ∧ item.2.1 = n :=
        fun item new => on_channel_members new
      refine .alive alive ⟨?_,?_,?_,?_⟩ fun later => ?_
      · intro item member
        change item.2.1 ≤ n
        rcases List.mem_append.mp member with old | new
        · have known := arranged.tail.stale item old
          rwa [state] at known
        · exact (new_items item new).2.le
      · intro item member
        obtain ⟨held,other⟩ := List.mem_filter.mp member
        have known := arranged.ahead item held
        rw [state] at known
        have different : item.2.1 ≠ n := by simpa using other
        rcases known with later | packet
        · exact later
        · exact absurd packet.1 different
      · have sorted := arranged.tail.sorted
        rw [state] at sorted
        refine List.pairwise_append.mpr ⟨sorted,?_,?_⟩
        · exact List.pairwise_of_forall_mem_list fun _ _ b new _ _ both =>
            absurd (both.1.symm.trans (new_items b new).1) (by decide)
        · exact fun _ _ b new _ _ both => absurd (both.1.symm.trans (new_items b new).1) (by decide)
      · rintro k ⟨⟩
      · have placed : payloads .Data n self.buffer = [] ∨ payloads .Data n work = [] := by
          rcases arranged.apart n state with none | none | none
          · exact .inl none
          · simp at none
          · exact .inr (by rwa [payloads_other (.inr (by decide))] at none)
        have packets := announced_payloads placed later (.inr ⟨rfl,rfl⟩)
        have next := in_order_congr (P := P) (n + 1) fun channel k from_next =>
          announced_payloads placed later (.inl from_next)
        have logged : ∀ log : List (Event σ K), decodes (log ++ [.announced (message n data)]) = decodes log ∧
            ingests (log ++ [.announced (message n data)]) = ingests log := by
          simp [decodes,ingests]
        change decode_block P n _ _ { (progress self).hear .Announce n data s' with state := .Decoding n } = _
        rw [packets,next,← same]
        simp only [resume,progress,Receiver.record_log,(logged _).1,(logged _).2]
        rfl
    · rw [self.on_announce_refuses P ran useful]
      have idle : accepted r = false := by
        rw [Bool.eq_false_iff,ne_eq,accepted_iff]
        exact useful
      refine .alive (r := (heard self .Announce n data s',[])) alive ?_ fun later => ?_
      · rw [List.append_nil]
        exact arranged.tail.heard .Announce n data s'
      · have state' : (heard self .Announce n data s').state = .Init n := state
        simp only [idle,Bool.false_eq_true,if_false,List.append_nil,resume,state',same,in_order_eq (n := n)]
        rfl

/-- One message is handled as the reference expects it. -/
theorem process_goes (alive : self.panicked = none) {channel : Channel} {data : Bytes} {work : List Item}
    (arranged : Arranged self ((channel,self.state.current_block,data) :: work)) (sender : Option K) :
    Goes P work (fun later => resume P self (self.buffer ++ (channel,self.state.current_block,data) :: work ++ later))
      (self.process P channel data sender) := by
  cases state : self.state with
  | Init n =>
    rw [state] at arranged
    simp only [ActorState.current_block] at arranged ⊢
    cases channel with
    | Announce =>
      simp only [Receiver.process,state]
      exact on_announce_goes alive state arranged
    | Data =>
      have ran : self.process P .Data data sender =
          (({ self with buffer := self.buffer ++ [(.Data,n,data)] } : Receiver σ K),[]) := by
        simp only [Receiver.process,state]
      rw [ran]
      have behind : payloads .Announce n work = [] := payloads_none fun item member same => by
        have sorted := (List.pairwise_cons.mp arranged.sorted).1 item member rfl
        rw [state] at sorted
        exact sorted rfl same
      refine .alive alive ⟨?_,?_,?_,?_⟩ fun later => ?_
      · rw [List.append_nil]
        exact arranged.tail.stale
      · intro item member
        rcases List.mem_append.mp member with old | new
        · exact arranged.ahead item old
        · rw [List.mem_singleton.mp new]
          change Ahead self.state _
          rw [state]
          exact .inr ⟨rfl,rfl⟩
      · rw [List.append_nil]
        exact arranged.tail.sorted
      · intro k waits
        obtain rfl : n = k := ActorState.Init.inj (state.symm.trans waits)
        exact .inr (.inl (by rwa [List.append_nil]))
      · simp only [List.append_nil,List.append_assoc,List.cons_append]
        rfl
  | Decoding n =>
    rw [state] at arranged
    simp only [ActorState.current_block] at arranged ⊢
    cases channel with
    | Announce =>
      simp only [Receiver.process,state]
      refine .alive alive ?_ fun later => ?_
      · rw [List.append_nil]
        exact arranged.tail
      · rw [List.append_nil]
        refine resume_congr fun channel k matters => ?_
        rw [state] at matters
        have other : n ≠ k ∨ Channel.Announce ≠ channel := by
          rcases matters with later | ⟨rfl,rfl⟩
          · exact .inl (by omega)
          · exact .inr (by decide)
        simp only [payloads_append,payloads_other other]
    | Data =>
      simp only [Receiver.process,state]
      exact on_data_goes alive state arranged sender

/-- The queue is handled as the reference expects it. -/
theorem drain_goes (alive : self.panicked = none) {work : List Item} (arranged : Arranged self work) (sender : Option K) :
    Goes P [] (fun later => resume P self (self.buffer ++ work ++ later)) (self.drain P work sender,[]) := by
  obtain ⟨expected,named⟩ : ∃ expected : List Item → Rust (Progress σ),
    expected = fun later => resume P self (self.buffer ++ work ++ later) := ⟨_,rfl⟩
  rw [← named]
  let Inv (node : Receiver σ K) (queue : List Item) : Prop :=
    node.panicked = none ∧ Arranged node queue ∧ ∀ later, expected later = resume P node (node.buffer ++ queue ++ later)
  let Stopped (node : Receiver σ K) : Prop := ∃ p, node.panicked = some p ∧
    ((∀ later, expected later = .error p) ∨ RecodePanics P node p)
  have kept := self.drain_keeps P Inv Stopped ?_ ?_ work sender alive ⟨alive,arranged,fun later => by rw [named]⟩
  · rcases kept with ⟨_,alive',arranged',same⟩ | ⟨p,stopped,failed⟩
    · exact .alive alive' arranged' same
    · exact .panicked stopped failed
  · rintro node channel bn data queue stale ⟨alive,arranged,same⟩
    refine ⟨alive,arranged.tail,fun later => (same later).trans (resume_congr fun channel' k matters => ?_)⟩
    have small : bn ≤ node.state.current_block := arranged.stale _ (List.mem_cons_self ..)
    have other : bn ≠ k := by
      revert matters small stale
      cases node.state with
      | Init n => simp only [ActorState.current_block]; omega
      | Decoding n => simp only [ActorState.current_block]; omega
    simp only [payloads_append,payloads_other (.inl other)]
  · rintro node channel bn data queue from_sender rfl ⟨alive,arranged,same⟩
    have goes := process_goes (P := P) alive arranged from_sender
    cases panicked : (node.process P channel data from_sender).1.panicked with
    | none =>
      rw [Goes,panicked] at goes
      rw [if_neg (by simp)]
      exact ⟨panicked,goes.1,fun later => (same later).trans (goes.2 later)⟩
    | some p =>
      rw [Goes,panicked] at goes
      rw [if_pos (by simp)]
      refine ⟨p,panicked,goes.imp (fun failed later => ?_) id⟩
      exact (same later).trans (failed later)

/-- A message that arrives is kept, dropped or handled as the reference expects it. -/
theorem route_goes (alive : self.panicked = none) (arranged : Arranged self []) (channel : Channel) (n : Nat) (data : Bytes)
    (sender : Option K) :
    Goes P [] (fun later => resume P self (self.buffer ++ (channel,n,data) :: later))
      (self.route P channel n data sender,[]) := by
  have none_queued : ∀ {node : Receiver σ K}, (∀ item ∈ node.buffer, Ahead node.state item) → Arranged node [] :=
    fun ahead => ⟨by simp,ahead,.nil,fun k _ => .inr (.inl rfl)⟩
  rcases lt_trichotomy n self.state.current_block with old | rfl | ahead
  · have ran : self.route P channel n data sender = self := if_pos old
    rw [ran]
    refine .alive alive arranged fun later => resume_congr fun channel' k matters => ?_
    have other : n ≠ k := by
      revert matters old
      cases self.state with
      | Init n => simp only [ActorState.current_block]; omega
      | Decoding n => simp only [ActorState.current_block]; omega
    simp only [payloads_append,payloads_other (.inl other),List.append_nil]
  · have ran : self.route P channel self.state.current_block data sender =
        self.drain P [(channel,self.state.current_block,data)] sender :=
      (if_neg (lt_irrefl _)).trans (if_neg (lt_irrefl _))
    rw [ran]
    refine (drain_goes alive ⟨by simp,arranged.ahead,List.pairwise_singleton _ _,fun k _ => ?_⟩ sender).congr fun later => ?_
    · right
      cases channel with
      | Announce => exact .inr (payloads_other (.inr (by decide)))
      | Data => exact .inl (payloads_other (.inr (by decide)))
    · rw [List.append_assoc,List.singleton_append]
  · have ran : self.route P channel n data sender =
        ({ self with buffer := self.buffer ++ [(channel,n,data)] } : Receiver σ K) :=
      (if_neg (by omega)).trans (if_pos ahead)
    rw [ran]
    refine .alive alive (none_queued fun item member => ?_) fun later => ?_
    · rcases List.mem_append.mp member with old | new
      · exact arranged.ahead item old
      · rw [List.mem_singleton.mp new]
        change Ahead self.state _
        revert ahead
        cases self.state with
        | Init k => exact fun ahead => .inl ahead
        | Decoding k => exact fun ahead => ahead
    · simp only [List.append_nil,List.append_assoc,List.singleton_append]
      rfl

/-- Messages fed to `route` one by one, each with its sender, until one panics. -/
def route_all (P : Protocol σ) (self : Receiver σ K) (arrivals : List (Option K × Item)) : Receiver σ K :=
  arrivals.foldl (fun self (sender,channel,n,payload) =>
    if self.panicked.isSome then self else self.route P channel n payload sender) self

theorem route_all_panicked {p : Panic} (panicked : self.panicked = some p) (arrivals : List (Option K × Item)) :
    route_all P self arrivals = self := by
  induction arrivals with
  | nil => rfl
  | cons arrival arrivals ih =>
    refine Eq.trans ?_ ih
    simp only [route_all,List.foldl_cons,panicked,Option.isSome_some,if_true]

theorem route_all_goes (alive : self.panicked = none) (arranged : Arranged self []) (arrivals : List (Option K × Item)) :
    Goes P [] (fun later => resume P self (self.buffer ++ (arrivals.map Prod.snd ++ later))) (route_all P self arrivals,[]) := by
  induction arrivals generalizing self with
  | nil => exact .alive alive arranged fun later => by simp [route_all]
  | cons arrival arrivals ih =>
    obtain ⟨sender,channel,n,data⟩ := arrival
    have first := route_goes (P := P) alive arranged channel n data sender
    have ran : route_all P self ((sender,channel,n,data) :: arrivals) =
        route_all P (self.route P channel n data sender) arrivals := by
      simp only [route_all,List.foldl_cons,alive,Option.isSome_none,Bool.false_eq_true,if_false]
    rw [ran]
    cases panicked : (self.route P channel n data sender).panicked with
    | none =>
      rw [Goes,panicked] at first
      refine (ih panicked first.1).congr fun later => ?_
      exact (first.2 _).trans (by simp)
    | some p =>
      rw [Goes,panicked] at first
      rw [route_all_panicked panicked]
      exact .panicked panicked (first.imp (fun failed later => failed _) id)

/-- Nothing is left to do with what the receiver holds. -/
theorem resume_held (arranged : Arranged self []) : resume P self self.buffer = .ok (progress self) := by
  have ahead := arranged.ahead
  unfold resume
  cases state : self.state with
  | Init n =>
    rw [state] at ahead
    have none_held : payloads .Announce n self.buffer = [] := payloads_none fun item member same => by
      rcases ahead item member with later | packet
      · exact absurd same.2 (Nat.ne_of_gt later)
      · exact absurd (same.1.symm.trans packet.2) (by decide)
    simp only [in_order_eq (n := n),none_held,handle_block_nil]
  | Decoding n =>
    rw [state] at ahead
    have none_held : payloads .Data n self.buffer = [] := payloads_none fun item member same =>
      absurd same.2 (Nat.ne_of_gt (ahead item member))
    simp only [none_held,decode_block_nil]

/-- The receiver ends as the reference does; or it panicked with it, or because recoding panicked. -/
def Agrees (P : Protocol σ) (node : Receiver σ K) (r : Rust (Progress σ)) : Prop :=
  match node.panicked with
  | none => r = .ok (progress node)
  | some p => r = .error p ∨ RecodePanics P node p

/-- For every protocol and all arrivals, a receiver agrees with the reference that handles
    the blocks in order, and its messages are accounted for. -/
theorem in_order_refined (P : Protocol σ) (protocol : σ) (peers : List K) (mesh_degree : Nat) (rng : Rng)
    (arrivals : List (Option K × Item)) :
    let node := route_all P (Receiver.new (NodeActor.new protocol peers mesh_degree rng)) arrivals
    Agrees P node (reference P protocol (arrivals.map Prod.snd)) ∧
      (node.panicked = none → Accounted (arrivals.map Prod.snd) (progress node)) := by
  intro node
  have arranged : Arranged (Receiver.new (NodeActor.new protocol peers mesh_degree rng) : Receiver σ K) [] :=
    ⟨by simp,by simp [Receiver.new,NodeActor.new],.nil,fun _ _ => .inl rfl⟩
  have goes := route_all_goes (P := P) rfl arranged arrivals
  have whole : resume P (Receiver.new (NodeActor.new protocol peers mesh_degree rng) : Receiver σ K)
      ([] ++ (arrivals.map Prod.snd ++ [])) = reference P protocol (arrivals.map Prod.snd) := by
    rw [List.nil_append,List.append_nil]
    rfl
  cases panicked : node.panicked with
  | none =>
    rw [Goes,panicked] at goes
    have held := resume_held (P := P) goes.1
    have same : reference P protocol (arrivals.map Prod.snd) = .ok (progress node) :=
      (whole.symm.trans (goes.2 [])).trans (by simpa using held)
    have before : Before (arrivals.map Prod.snd) 0 ⟨.Init 0,protocol,0,[],[]⟩ :=
      ⟨rfl,fun channel k => List.nil_prefix,fun channel k _ => rfl⟩
    rw [Agrees,panicked]
    exact ⟨same,fun _ => in_order_accounted before same⟩
  | some p =>
    rw [Goes,panicked] at goes
    rw [Agrees,panicked]
    exact ⟨goes.imp (fun failed => whole.symm.trans (failed [])) id,fun alive => by cases alive⟩

end

end Rlnc.Reordering
