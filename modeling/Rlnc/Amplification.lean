import Rlnc.BfkwProtocol
import Rlnc.PedersenProtocol
import Rlnc.Runs

/-!
How much a receiver sends. Every batch of packets is paid for by what the protocol
has used up for its block (`Budgeted`): the coded protocols forward only while their
rank grows below `N`, and the full-block protocol forwards once. A receiver passes
through the blocks in order and through each phase of a block once, so that this
bounds what it sends with the number of a block, whatever arrives
(`bounded_amplification`).
-/
namespace Rlnc.Amplification
open Rlnc.Panics Rlnc.Wire Rlnc.Packing Rlnc.Coding Rlnc.Draws Rlnc.Blocks Rlnc.Groups Rlnc.Integrity Rlnc.Protocols
open Rlnc.Actor Rlnc.Runs
set_option linter.unusedSectionVars false

/-! ### What is sent -/

/-- The block number in front of a message. -/
def number (msg : Bytes) : Nat := of_be (msg.take 8)

section
variable {σ K : Type}

def announces (n : Nat) : Event σ K → Nat
  | .announced msg => if number msg = n then 1 else 0
  | _ => 0

def sends (n : Nat) : Event σ K → Nat
  | .forwarded _ batch => batch.countP (fun entry => number entry.2 = n)
  | _ => 0

/-- The announcements of block `n` that were broadcast. -/
def announcements (n : Nat) (log : List (Event σ K)) : Nat := (log.map (announces n)).sum

/-- The data packets with the number of block `n` that were sent. -/
def data_sent (n : Nat) (log : List (Event σ K)) : Nat := (log.map (sends n)).sum

/-- The state that an event leads to: an announcement is broadcast on the transition to
    decoding, and a decoded block is followed by the next one. -/
def after (state : ActorState) : Event σ K → ActorState
  | .announced msg => .Decoding (number msg)
  | .decoded n _ => .Init (n + 1)
  | _ => state

/-- The state after all events of a log. -/
def phase (log : List (Event σ K)) : ActorState := log.foldl after (.Init 0)

/-- An announcement leaves the wait for it; packets leave while their block is decoded. -/
def Timely (state : ActorState) : Event σ K → Prop
  | .announced msg => state = .Init (number msg)
  | .forwarded n batch => state = .Decoding n ∧ ∀ entry ∈ batch, number entry.2 = n
  | _ => True

/-- Every event came in its time. -/
def Orderly (log : List (Event σ K)) : Prop :=
  ∀ before event later, log = before ++ event :: later → Timely (phase before) event

@[simp] theorem announcements_snoc (n : Nat) (log : List (Event σ K)) (event : Event σ K) :
    announcements n (log ++ [event]) = announcements n log + announces n event := by
  simp [announcements]

@[simp] theorem data_sent_snoc (n : Nat) (log : List (Event σ K)) (event : Event σ K) :
    data_sent n (log ++ [event]) = data_sent n log + sends n event := by
  simp [data_sent]

@[simp] theorem phase_snoc (log : List (Event σ K)) (event : Event σ K) :
    phase (log ++ [event]) = after (phase log) event := by
  simp [phase]

theorem Orderly.snoc {log : List (Event σ K)} {event : Event σ K} (orderly : Orderly log)
    (timely : Timely (phase log) event) : Orderly (log ++ [event]) := by
  intro before e later split
  rcases List.eq_nil_or_concat later with rfl | ⟨later,last,rfl⟩
  · obtain ⟨rfl,same⟩ := List.append_inj' split rfl
    obtain rfl := List.singleton_inj.mp same
    exact timely
  · rw [List.concat_eq_append,← List.cons_append,← List.append_assoc] at split
    obtain ⟨split,_⟩ := List.append_inj' split rfl
    exact orderly before e later split

/-- What is sent for each block stays within the limits. -/
structure Bounded (limit degree : Nat) (log : List (Event σ K)) : Prop where
  orderly : Orderly log
  announced : ∀ n, announcements n log ≤ 1
  sent : ∀ n, data_sent n log ≤ limit * degree

/-- An event that sends nothing stays within the limits. -/
theorem Bounded.silent {limit degree : Nat} {log : List (Event σ K)} (bounded : Bounded limit degree log)
    {event : Event σ K} (timely : Timely (phase log) event) (nothing : ∀ n, announces n event = 0 ∧ sends n event = 0) :
    Bounded limit degree (log ++ [event]) where
  orderly := bounded.orderly.snoc timely
  announced k := by
    rw [announcements_snoc,(nothing k).1]
    exact bounded.announced k
  sent k := by
    rw [data_sent_snoc,(nothing k).2]
    exact bounded.sent k

theorem Bounded.hear {limit degree : Nat} {log : List (Event σ K)} (bounded : Bounded limit degree log) (s : σ)
    (channel : Channel) (n : Nat) (data : Bytes) : Bounded limit degree (log ++ [.ingest s channel n data]) :=
  bounded.silent trivial (fun _ => ⟨rfl,rfl⟩)

end

/-! ### One receiver -/

section
variable {σ K : Type} [DecidableEq K] [SliceRandom]

/-- What the protocol has used up for its block, given whether something was forwarded for it. -/
structure Budgeted (K : Type) (P : Protocol σ) (Inv : σ → Prop) (used : σ → Bool → Nat) (limit : Nat) : Prop where
  within : ∀ s forwarded, Inv s → used s forwarded ≤ limit
  ingest : ∀ s channel n data s' r, Inv s → P.ingest s channel n data = .ok (s',r) →
    Inv s' ∧ ∀ forwarded, used s forwarded ≤ used s' forwarded
  pays : ∀ (self : Receiver σ K) s n data, Inv s → P.ingest s .Data n data = .ok (self.protocol,.ok true) →
    self.should_forward P = true → used s self.forwarded + 1 ≤ used self.protocol true
  decode : ∀ s block s', Inv s → P.decode s = .ok (block,s') → Inv (P.reset s')

/-- What may have been sent for block `k`. -/
def allowance (used : σ → Bool → Nat) (limit : Nat) (self : Receiver σ K) (k : Nat) : Nat :=
  if k < self.state.current_block then limit
  else if self.state = .Decoding k then used self.protocol self.forwarded
  else 0

/-- A receiver in a run. -/
structure Paced (Inv : σ → Prop) (used : σ → Bool → Nat) (limit degree : Nat) (node : Receiver σ K) : Prop where
  inv : Inv node.protocol
  mesh : node.mesh_degree = degree
  small : node.state.current_block < 2 ^ 64
  phased : phase node.log = node.state
  orderly : Orderly node.log
  announced : ∀ k, announcements k node.log ≤ if k < node.state.current_block ∨ node.state = .Decoding k then 1 else 0
  sent : ∀ k, data_sent k node.log ≤ allowance used limit node k * degree

variable {P : Protocol σ} {Inv : σ → Prop} {used : σ → Bool → Nat} {limit degree : Nat} {self : Receiver σ K}

theorem allowance_le (budgeted : Budgeted K P Inv used limit) (inv : Inv self.protocol) (k : Nat) :
    allowance used limit self k ≤ limit := by
  unfold allowance
  split
  · exact le_rfl
  · split
    · exact budgeted.within _ _ inv
    · exact Nat.zero_le _

/-- In the same state a protocol that has used up more may have sent more. -/
theorem allowance_mono {node : Receiver σ K} (same : node.state = self.state)
    (more : used self.protocol self.forwarded ≤ used node.protocol node.forwarded) (k : Nat) :
    allowance used limit self k ≤ allowance used limit node k := by
  simp only [allowance,same]
  by_cases past : k < self.state.current_block
  · rw [if_pos past,if_pos past]
  · rw [if_neg past,if_neg past]
    by_cases here : self.state = .Decoding k
    · rw [if_pos here,if_pos here]
      exact more
    · rw [if_neg here,if_neg here]

theorem Paced.number_small (paced : Paced Inv used limit degree self) {n : Nat}
    (state : self.state = .Init n ∨ self.state = .Decoding n) : n < 2 ^ 64 := by
  have current := paced.small
  rcases state with state | state <;> rwa [state] at current

theorem Paced.bounded (budgeted : Budgeted K P Inv used limit) (paced : Paced Inv used limit degree self) :
    Bounded limit degree self.log where
  orderly := paced.orderly
  announced k := by
    refine (paced.announced k).trans ?_
    split <;> omega
  sent k := (paced.sent k).trans (Nat.mul_le_mul_right degree (allowance_le budgeted paced.inv k))

/-- The protocol took a message. -/
theorem Paced.hear (paced : Paced Inv used limit degree self) {s' : σ} (inv : Inv s')
    (more : ∀ forwarded, used self.protocol forwarded ≤ used s' forwarded) (channel : Channel) (n : Nat) (data : Bytes) :
    Paced Inv used limit degree { self.record (.ingest self.protocol channel n data) with protocol := s' } where
  inv := inv
  mesh := paced.mesh
  small := paced.small
  phased := (phase_snoc _ _).trans paced.phased
  orderly := paced.orderly.snoc trivial
  announced k := by
    simp only [Receiver.record_log,announcements_snoc,announces,Nat.add_zero]
    exact paced.announced k
  sent k := by
    simp only [Receiver.record_log,data_sent_snoc,sends,Nat.add_zero]
    refine (paced.sent k).trans (Nat.mul_le_mul_right degree ?_)
    refine allowance_mono ?_ ?_ k
    · rfl
    · exact more _

/-- What handling a message leaves. -/
def Held (Inv : σ → Prop) (used : σ → Bool → Nat) (limit degree : Nat) (r : Receiver σ K) : Prop :=
  if r.panicked.isSome then Bounded limit degree r.log else Paced Inv used limit degree r

theorem on_announce_held (budgeted : Budgeted K P Inv used limit) (paced : Paced Inv used limit degree self)
    (alive : self.panicked = none) {n : Nat} (state : self.state = .Init n) (data : Bytes) :
    Held Inv used limit degree (self.on_announce P n data).1 := by
  have bounded := paced.bounded budgeted
  have small := paced.number_small (.inl state)
  cases ran : P.ingest self.protocol .Announce n data with
  | error p =>
    rw [self.on_announce_panics P ran,Held,if_pos (by simp)]
    exact bounded.hear _ _ _ _
  | ok result =>
    obtain ⟨s',r⟩ := result
    obtain ⟨inv,more⟩ := budgeted.ingest _ _ _ _ _ _ paced.inv ran
    by_cases accepted : r = .ok true
    · subst accepted
      rw [self.on_announce_accepts P ran,Held,if_neg (by simp [alive])]
      have heard := paced.hear inv more .Announce n data
      have numbered : number (message n data) = n := (message_number small data).1
      have waiting : phase (self.log ++ [.ingest self.protocol .Announce n data]) = .Init n := heard.phased.trans state
      refine ⟨inv,paced.mesh,small,?_,?_,?_,?_⟩
      · simp only [Receiver.record_log,phase_snoc,after,numbered]
        rfl
      · refine heard.orderly.snoc ?_
        rw [Timely,numbered]
        exact waiting
      · intro k
        have earlier := heard.announced k
        simp only [Receiver.record,state] at earlier
        simp only [Receiver.record,announcements_snoc,announces,numbered] at earlier ⊢
        simp only [ActorState.current_block,reduceCtorEq,or_false,ActorState.Decoding.injEq] at earlier ⊢
        split at earlier <;> split <;> split <;> omega
      · intro k
        have earlier := heard.sent k
        simp only [Receiver.record,allowance,state,data_sent_snoc,sends] at earlier ⊢
        simp only [ActorState.current_block,reduceCtorEq,if_false,ActorState.Decoding.injEq] at earlier ⊢
        refine earlier.trans (Nat.mul_le_mul_right degree ?_)
        split
        · exact le_rfl
        · exact Nat.zero_le _
    · rw [self.on_announce_refuses P ran accepted,Held,if_neg (by simp [alive])]
      exact paced.hear inv more .Announce n data

/-- A batch goes to at most `mesh_degree` peers. -/
theorem forward_batch (node : Receiver σ K) (n : Nat) (sender : Option K) :
    (∃ p, node.forward P n sender = ({ node with forwarded := true } : Receiver σ K).panic p) ∨
    ∃ batch rng, batch.length ≤ node.mesh_degree ∧ (∀ entry ∈ batch, ∃ payload, entry.2 = message n payload) ∧
      node.forward P n sender = ({ node with forwarded := true, rng := rng } : Receiver σ K).record (.forwarded n batch) := by
  unfold Receiver.forward
  cases recoded : P.recode node.protocol node.mesh_degree node.rng with
  | error p => exact .inl ⟨p,by simp only [recoded]⟩
  | ok result =>
    refine .inr ⟨_,_,?_,?_,by simp only [recoded]; rfl⟩
    · rw [List.length_zip]
      exact (Nat.min_le_left _ _).trans (List.length_take_le _ _)
    · intro entry member
      obtain ⟨payload,_,same⟩ := List.mem_map.mp (List.of_mem_zip member).2
      exact ⟨payload,same.symm⟩

/-- A batch is sent when there is room for it. -/
theorem Paced.forward (budgeted : Budgeted K P Inv used limit) (paced : Paced Inv used limit degree self)
    (alive : self.panicked = none) {n : Nat} (state : self.state = .Decoding n)
    (room : data_sent n self.log + degree ≤ used self.protocol true * degree) (sender : Option K) :
    Held Inv used limit degree (self.forward P n sender) := by
  have small := paced.number_small (.inr state)
  rcases forward_batch (P := P) self n sender with ⟨p,ran⟩ | ⟨batch,rng,few,labelled,ran⟩
  · have bounded := paced.bounded budgeted
    rw [ran,Held,if_pos (by simp)]
    exact bounded
  · rw [paced.mesh] at few
    have numbered : ∀ entry ∈ batch, number entry.2 = n := by
      intro entry member
      obtain ⟨payload,same⟩ := labelled entry member
      rw [same]
      exact (message_number small payload).1
    rw [ran,Held,if_neg (by simp [alive])]
    refine ⟨paced.inv,paced.mesh,paced.small,?_,?_,?_,?_⟩
    · simp only [Receiver.record_log,phase_snoc,after]
      exact paced.phased
    · exact paced.orderly.snoc ⟨paced.phased.trans state,numbered⟩
    · intro k
      simp only [Receiver.record_log,announcements_snoc,announces,Nat.add_zero]
      exact paced.announced k
    · intro k
      simp only [Receiver.record_log,data_sent_snoc,sends]
      by_cases here : k = n
      · subst here
        have counted : batch.countP (fun entry => number entry.2 = k) ≤ degree := List.countP_le_length.trans few
        have allowed : allowance used limit (({ self with forwarded := true, rng := rng } : Receiver σ K).record
            (.forwarded k batch)) k = used self.protocol true := by
          simp only [allowance,Receiver.record,state,ActorState.current_block,Nat.lt_irrefl,if_false,if_true]
        rw [allowed]
        omega
      · have none : batch.countP (fun entry => number entry.2 = k) = 0 := by
          rw [List.countP_eq_zero]
          intro entry member
          simp only [numbered entry member,decide_eq_true_eq]
          exact fun same => here same.symm
        have allowed : allowance used limit (({ self with forwarded := true, rng := rng } : Receiver σ K).record
            (.forwarded n batch)) k = allowance used limit self k := by
          simp only [allowance,Receiver.record,state,ActorState.Decoding.injEq,Ne.symm here,if_false]
        rw [none,allowed]
        exact paced.sent k

/-- A decoded block is followed by the next one, for which nothing was sent yet. -/
theorem Paced.finish (budgeted : Budgeted K P Inv used limit) (paced : Paced Inv used limit degree self)
    (alive : self.panicked = none) {n : Nat} (state : self.state = .Decoding n) :
    Held Inv used limit degree (self.finish P n).1 := by
  have bounded := paced.bounded budgeted
  cases decoded : P.decode self.protocol with
  | error p =>
    rw [self.finish_panics P n decoded,Held,if_pos (by simp)]
    exact bounded
  | ok result =>
    obtain ⟨block,protocol⟩ := result
    have logged : Bounded limit degree (self.log ++ [.decoded n block]) := bounded.silent trivial (fun _ => ⟨rfl,rfl⟩)
    by_cases more : self.decoded_count + 1 < 2 ^ 64 ∧ n + 1 < 2 ^ 64
    · rw [self.finish_advances P n decoded more.1 more.2,Held,if_neg (by simp [alive])]
      refine ⟨budgeted.decode _ _ _ paced.inv decoded,paced.mesh,more.2,by simp [after],logged.orderly,?_,?_⟩
      · intro k
        have earlier := paced.announced k
        simp only [Receiver.record,announcements_snoc,announces,state,ActorState.current_block,reduceCtorEq,or_false,
          ActorState.Decoding.injEq] at earlier ⊢
        split at earlier <;> split <;> omega
      · intro k
        have earlier := paced.sent k
        simp only [Receiver.record,data_sent_snoc,sends,allowance,state,ActorState.current_block,reduceCtorEq,if_false,
          ActorState.Decoding.injEq,Nat.add_zero] at earlier ⊢
        by_cases past : k < n + 1
        · rw [if_pos past]
          exact bounded.sent k
        · rw [if_neg past]
          rwa [if_neg (by omega),if_neg (by omega)] at earlier
    · obtain ⟨count,stopped⟩ := self.finish_overflows P n decoded (by omega)
      rw [stopped,Held,if_pos (by simp)]
      exact logged

theorem forward_state (node : Receiver σ K) (n : Nat) (sender : Option K) : (node.forward P n sender).state = node.state := by
  rcases forward_batch (P := P) node n sender with ⟨p,ran⟩ | ⟨batch,rng,_,_,ran⟩
  · rw [ran]; rfl
  · rw [ran]; rfl

theorem on_useful_held (budgeted : Budgeted K P Inv used limit) (paced : Paced Inv used limit degree self)
    (alive : self.panicked = none) {n : Nat} (state : self.state = .Decoding n)
    (room : self.should_forward P = true → data_sent n self.log + degree ≤ used self.protocol true * degree)
    (sender : Option K) : Held Inv used limit degree (self.on_useful P n sender).1 := by
  have sent : Held Inv used limit degree (if self.should_forward P then self.forward P n sender else self) ∧
      (if self.should_forward P then self.forward P n sender else self).state = .Decoding n := by
    by_cases should : self.should_forward P = true
    · rw [if_pos should]
      exact ⟨paced.forward budgeted alive state (room should) sender,(forward_state self n sender).trans state⟩
    · rw [if_neg should,Held,if_neg (by simp [alive])]
      exact ⟨paced,state⟩
  unfold Receiver.on_useful
  generalize (if self.should_forward P then self.forward P n sender else self) = node at sent
  obtain ⟨held,decoding⟩ := sent
  simp only
  by_cases dead : node.panicked.isSome = true
  · rw [if_pos dead]
    exact held
  · rw [if_neg dead]
    have goes : node.panicked = none := by simpa using dead
    by_cases complete : P.is_complete node.protocol = true
    · rw [if_pos complete]
      rw [Held,if_neg dead] at held
      exact held.finish budgeted goes decoding
    · rw [if_neg complete]
      exact held

theorem on_data_held (budgeted : Budgeted K P Inv used limit) (paced : Paced Inv used limit degree self)
    (alive : self.panicked = none) {n : Nat} (state : self.state = .Decoding n) (data : Bytes) (sender : Option K) :
    Held Inv used limit degree (self.on_data P n data sender).1 := by
  have bounded := paced.bounded budgeted
  cases ran : P.ingest self.protocol .Data n data with
  | error p =>
    rw [self.on_data_panics P sender ran,Held,if_pos (by simp)]
    exact bounded.hear _ _ _ _
  | ok result =>
    obtain ⟨s',r⟩ := result
    obtain ⟨inv,more⟩ := budgeted.ingest _ _ _ _ _ _ paced.inv ran
    have heard := paced.hear inv more .Data n data
    by_cases useful : r = .ok true
    · subst useful
      rw [self.on_data_useful P sender ran]
      refine on_useful_held budgeted heard alive state (fun should => ?_) sender
      have earlier := paced.sent n
      have allowed : allowance used limit self n = used self.protocol self.forwarded := by
        simp only [allowance,state,ActorState.current_block,Nat.lt_irrefl,if_false,if_true]
      have paid := budgeted.pays _ self.protocol n data paced.inv ran should
      have enough := Nat.mul_le_mul_right degree paid
      rw [allowed] at earlier
      rw [Nat.succ_mul] at enough
      simp only [Receiver.record,data_sent_snoc,sends] at enough ⊢
      omega
    · rw [self.on_data_refuses P sender ran useful,Held,if_neg (by simp [alive])]
      exact heard

theorem process_held (budgeted : Budgeted K P Inv used limit) (paced : Paced Inv used limit degree self)
    (alive : self.panicked = none) (channel : Channel) (data : Bytes) (sender : Option K) :
    Held Inv used limit degree (self.process P channel data sender).1 := by
  unfold Receiver.process
  split
  · rename_i n state
    exact on_announce_held budgeted paced alive state data
  · rw [Held,if_neg (by simp [alive])]
    exact ⟨paced.inv,paced.mesh,paced.small,paced.phased,paced.orderly,paced.announced,paced.sent⟩
  · rw [Held,if_neg (by simp [alive])]
    exact paced
  · rename_i n state
    exact on_data_held budgeted paced alive state data sender

/-- One turn of the receiver loop. -/
theorem receive_held (budgeted : Budgeted K P Inv used limit) (num_blocks : Nat) (held : Held Inv used limit degree self)
    (sender : K) (channel : Channel) (msg : Bytes) :
    Held Inv used limit degree (self.receive P num_blocks sender channel msg) := by
  unfold Receiver.receive
  split
  · exact held
  · rename_i goes
    have alive : self.panicked = none := by
      by_contra dead
      exact goes (.inl (Option.isSome_iff_ne_none.mpr dead))
    rw [Held,if_neg (by simp [alive])] at held
    split
    · rw [Held,if_neg (by simp [alive])]
      exact held
    · unfold Receiver.route
      simp only
      split
      · rw [Held,if_neg (by simp [alive])]
        exact held
      · split
        · rw [Held,if_neg (by simp [alive])]
          exact ⟨held.inv,held.mesh,held.small,held.phased,held.orderly,held.announced,held.sent⟩
        · have drained := Receiver.drain_keeps P
            (fun node _ => node.panicked = none ∧ Paced Inv used limit degree node)
            (fun node => node.panicked.isSome ∧ Bounded limit degree node.log) ?_ ?_ self
            [(channel,of_be (msg.take 8),msg.drop 8)] (some sender) alive ⟨alive,held⟩
          · rcases drained with ⟨alive',_,paced⟩ | ⟨dead,bounded⟩
            · rw [Held,if_neg (by simp [alive'])]
              exact paced
            · rw [Held,if_pos dead]
              exact bounded
          · rintro node channel bn data work _ kept
            exact kept
          · rintro node channel bn data work sender _ ⟨alive,paced⟩
            have kept := process_held budgeted paced alive channel data sender
            rw [Held] at kept
            split at kept
            · rename_i dead
              rw [if_pos dead]
              exact ⟨dead,kept⟩
            · rename_i goes
              rw [if_neg goes]
              exact ⟨by simpa using goes,kept⟩

/-- Whatever arrives, a receiver stays within the limits. -/
theorem receive_all_held (budgeted : Budgeted K P Inv used limit) (num_blocks : Nat)
    (held : Held Inv used limit degree self) (messages : List (K × Channel × Bytes)) :
    Held Inv used limit degree (receive_all P num_blocks self messages) := by
  induction messages generalizing self with
  | nil => exact held
  | cons message messages ih =>
    obtain ⟨sender,channel,msg⟩ := message
    exact ih (receive_held budgeted num_blocks held sender channel msg)

theorem new_held (protocol : σ) (peers : List K) (degree : Nat) (rng : Rng) (inv : Inv protocol) :
    Held Inv used limit degree (Receiver.new (NodeActor.new protocol peers degree rng)) := by
  rw [Held,if_neg (by simp [Receiver.new])]
  refine ⟨inv,rfl,by simp [Receiver.new,NodeActor.new,ActorState.current_block],rfl,?_,?_,?_⟩
  · intro before event later split
    simp [Receiver.new] at split
  · intro k
    simp [Receiver.new,announcements]
  · intro k
    simp [Receiver.new,data_sent]

end

/-! ### The proposer -/

section
variable {σ K : Type} [DecidableEq K] [SliceRandom] {P : Protocol σ}

theorem between_blocks_frame (P : Protocol σ) (self : NodeActor σ K) (block_num : Nat) :
    (between_blocks P self block_num).mesh_degree = self.mesh_degree ∧ (between_blocks P self block_num).peers = self.peers := by
  unfold between_blocks
  split <;> exact ⟨rfl,rfl⟩

theorem propose_block_frame {block_size block_num : Nat} {self next : NodeActor σ K} {sent : Proposed K}
    (ran : propose_block P block_size self block_num = .ok (next,sent)) :
    next.mesh_degree = self.mesh_degree ∧ next.peers = self.peers := by
  simp only [propose_block,bind_ok] at ran
  obtain ⟨⟨⟨protocol,proposal⟩,rest⟩,_,ran⟩ := ran
  simp only [NodeActor.select_peers,pure_eq,Except.ok.injEq,Prod.mk.injEq] at ran
  obtain ⟨rfl,_⟩ := ran
  exact between_blocks_frame P self block_num

/-- A proposer sends at most `mesh_degree` packets for a block. -/
theorem propose_block_few {block_size block_num : Nat} {self next : NodeActor σ K} {sent : Proposed K}
    (ran : propose_block P block_size self block_num = .ok (next,sent)) : sent.packets.length ≤ self.mesh_degree := by
  obtain ⟨degree,_⟩ := between_blocks_frame P self block_num
  simp only [propose_block,bind_ok] at ran
  obtain ⟨⟨⟨protocol,proposal⟩,rest⟩,_,ran⟩ := ran
  simp only [NodeActor.select_peers,pure_eq,Except.ok.injEq,Prod.mk.injEq] at ran
  obtain ⟨_,rfl⟩ := ran
  rw [List.length_zip,degree]
  exact (Nat.min_le_left _ _).trans (List.length_take_le _ _)

end

/-! ### The protocols -/

section
variable {σ F : Type} [Field F] [DecidableEq F] [PackableField F] [FixedCodec F] [Random F] {N : Nat}
  {Context Proof Error : Type} [IntegrityProof Proof] [FixedCodec UInt64] [BytesCodec]
  {S : IntegrityScheme F N Context Proof Error} {P : Protocol σ} {view : σ → CodedState F N Context Proof}

/-- A message leaves the decoder sound; a useful packet raises its rank by one. -/
theorem ingest_ranks (coded : Coded P S view) {s s' : σ} {channel : Channel} {n : Nat} {data : Bytes}
    {r : Except String Bool} (sound : Sound (view s).decoder) (ran : P.ingest s channel n data = .ok (s',r)) :
    Sound (view s').decoder ∧ (view s).decoder.rank ≤ (view s').decoder.rank ∧
    (channel = .Data → r = .ok true → (view s').decoder.rank = (view s).decoder.rank + 1) := by
  rcases (coded.ingest_cases ran).2 with ⟨kept,idle⟩ | ⟨packet,ctx,_,received⟩
  · rw [kept]
    exact ⟨sound,le_rfl,fun data useful => absurd useful (idle data)⟩
  · refine ⟨coded_receive_sound sound received,?_⟩
    rcases coded_receive_cases received with ⟨idle,kept⟩ | ⟨_,_,_,raised⟩
    · rw [(Prod.mk.inj kept).1]
      exact ⟨le_rfl,fun _ useful => absurd useful idle⟩
    · rw [raised]
      exact ⟨Nat.le_succ _,fun _ _ => rfl⟩

/-- A coded protocol forwards while its rank grows below `N`. -/
theorem coded_budgeted (K : Type) [DecidableEq K] [SliceRandom] (coded : Coded P S view) :
    Budgeted K P (fun s => Sound (view s).decoder) (fun s _ => min (view s).decoder.rank (N - 1)) (N - 1) where
  within s _ _ := Nat.min_le_right _ _
  ingest s channel n data s' r sound ran := by
    obtain ⟨sound',ranks,_⟩ := ingest_ranks coded sound ran
    exact ⟨sound',fun _ => min_le_min_right _ ranks⟩
  pays self s n data sound ran should := by
    obtain ⟨sound',_,raised⟩ := ingest_ranks coded sound ran
    have incomplete : (view self.protocol).decoder.is_complete ≠ true := by
      simpa [Receiver.should_forward,coded.forward_condition,coded.is_complete] using should
    have below : (view self.protocol).decoder.rank ≠ N := by
      intro full
      rw [BlockDecoder.rank_eq sound',← BlockDecoder.is_complete_iff sound'] at full
      exact incomplete full
    have most := BlockDecoder.rank_le sound'
    have more := raised rfl rfl
    omega
  decode s block s' sound ran := by
    obtain rfl := coded.decode_same ran
    rw [(coded.reset_block s').1,BlockDecoder.sound_reset sound]
    exact BlockDecoder.sound_new

/-- The full-block protocol forwards once. -/
theorem baseline_budgeted (K : Type) [DecidableEq K] [SliceRandom] :
    Budgeted K BaselineProtocol.protocol (fun _ => True) (fun _ forwarded => if forwarded then 1 else 0) 1 where
  within s forwarded _ := by split <;> omega
  ingest s channel n data s' r _ _ := ⟨trivial,fun _ => le_rfl⟩
  pays self s n data _ ran should := by
    have once : self.forwarded = false := by
      simp only [Receiver.should_forward,BaselineProtocol.protocol,Bool.and_eq_true,Bool.not_eq_true'] at should
      exact should.2
    rw [once]
    simp
  decode _ _ _ _ _ := trivial

end

section
variable {F G S PublicKey Signature G1 G2 : Type} [Field F] [DecidableEq F] [PackableField F] [FixedCodec F] [Random F]
  [AddCommGroup G] [DecidableEq G] [Module F G] [Space F G] [HashToGroup G] [FixedCodec G]
  [Verifier PublicKey Signature] [Signer S PublicKey Signature] [FixedCodec Signature] [AddCommGroup G1] [Module F G1]
  [AddCommGroup G2] [Module F G2] [Space F G2] [HashToGroup G2] [PairingGroup G1 G2] [FixedCodec G2] [FixedCodec UInt32]
  [FixedCodec UInt64] [BytesCodec] {N : Nat} {K : Type} [DecidableEq K] [SliceRandom]

/-- The receiver went through the phases in order, is in the one that its log says, and sent no
    more than the limits. -/
structure Limited {σ : Type} (limit degree : Nat) (node : Receiver σ K) : Prop where
  bounded : Bounded limit degree node.log
  phased : node.panicked = none → phase node.log = node.state

theorem run_limited {σ : Type} {P : Protocol σ} {Inv : σ → Prop} {used : σ → Bool → Nat} {limit : Nat}
    (budgeted : Budgeted K P Inv used limit) {protocol : σ} (inv : Inv protocol) (peers : List K) (degree : Nat) (rng : Rng)
    (num_blocks : Nat) (messages : List (K × Channel × Bytes)) :
    Limited limit degree (receive_all P num_blocks (Receiver.new (NodeActor.new protocol peers degree rng)) messages) := by
  have held : Held Inv used limit degree
      (receive_all P num_blocks (Receiver.new (NodeActor.new protocol peers degree rng)) messages) :=
    receive_all_held budgeted num_blocks (new_held protocol peers degree rng inv) messages
  rw [Held] at held
  split at held
  · rename_i dead
    exact ⟨held,fun alive => by simp [alive] at dead⟩
  · exact ⟨held.bounded budgeted,fun _ => held.phased⟩

variable (F G S PublicKey Signature G1 G2 N) in
/-- Whatever a receiver is sent, by whom and in whatever order: for each block it broadcasts one
    announcement at most, on the transition to decoding the block, and while it decodes the
    block it sends at most `mesh_degree` packets for each of `N - 1` ranks, or once. -/
theorem bounded_amplification (peers : List K) (degree : Nat) (rng : Rng) (num_blocks : Nat)
    (messages : List (K × Channel × Bytes)) (m : Nat) :
    (∀ (proposer_pk : PublicKey) (signer : Option (Pedersen.PedersenSigner S)),
      Limited (N - 1) degree (receive_all (PedersenProtocol.protocol F G S PublicKey Signature N) num_blocks
        (Receiver.new (NodeActor.new (PedersenProtocol.new m proposer_pk signer) peers degree rng))
        messages)) ∧
    (∀ (proposer_pk : G1) (signer : Option (Bfkw.BfkwSigner F G1)),
      Limited (N - 1) degree (receive_all (BfkwProtocol.protocol F G1 G2 N) num_blocks
        (Receiver.new (NodeActor.new (BfkwProtocol.new m proposer_pk signer) peers degree rng)) messages)) ∧
    Limited 1 degree (receive_all BaselineProtocol.protocol num_blocks
      (Receiver.new (NodeActor.new BaselineProtocol.new peers degree rng)) messages) := by
  refine ⟨fun proposer_pk signer => ?_,fun proposer_pk signer => ?_,?_⟩
  · refine run_limited (coded_budgeted K PedersenProtocol.coded) ?_ peers degree rng num_blocks messages
    exact BlockDecoder.sound_new
  · refine run_limited (coded_budgeted K BfkwProtocol.coded) ?_ peers degree rng num_blocks messages
    exact BlockDecoder.sound_new
  · exact run_limited (baseline_budgeted K) trivial peers degree rng num_blocks messages

end

end Rlnc.Amplification
