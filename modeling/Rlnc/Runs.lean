import Rlnc.Actor

/-!
What holds in every run of a receiver. `Keeps` lists what a protocol has to
guarantee block by block: while it waits for the announcement of a block, while
it takes data packets, and when it completes. From it follows what every run
keeps (`receive_all_keeps`), whatever admissible messages arrive in whatever order.
-/
namespace Rlnc.Runs
open Rlnc.Panics Rlnc.Wire Rlnc.Draws Rlnc.Blocks Rlnc.Protocols Rlnc.Actor
set_option linter.unusedSectionVars false

/-- The decoded blocks in the log, in order, with their numbers. -/
def decodes {σ K : Type} (log : List (Event σ K)) : List (Nat × Block) :=
  log.filterMap fun
    | .decoded n block => some (n,block)
    | _ => none

/-- A receiver run over arrived messages. -/
def receive_all {σ K : Type} [DecidableEq K] [SliceRandom] (P : Protocol σ) (num_blocks : Nat) (self : Receiver σ K)
    (messages : List (K × Channel × Bytes)) : Receiver σ K :=
  messages.foldl (fun self (sender,channel,msg) => self.receive P num_blocks sender channel msg) self

section
variable {σ K : Type} [DecidableEq K] [SliceRandom]

/-- What an announcement does that is handed to the protocol while it waits. -/
structure AnnounceKept (P : Protocol σ) (Idle Busy : Nat → σ → Prop) (Logged Fault : Event σ K → Prop) (n : Nat) (s : σ)
    (data : Bytes) : Prop where
  heard : Logged (.ingest s .Announce n data)
  panics : ∀ p, P.ingest s .Announce n data = .error p → Fault (.ingest s .Announce n data)
  accepts : ∀ t, P.ingest s .Announce n data = .ok (t,.ok true) → Busy n t ∧ Logged (.announced (message n data))
  refuses : ∀ t r, P.ingest s .Announce n data = .ok (t,r) → r ≠ .ok true → Idle n t

/-- What follows when a data packet raised the rank: forwarding, and decoding
    once the block is complete. -/
structure UsefulKept (P : Protocol σ) (Idle Busy : Nat → σ → Prop) (Logged : Event σ K → Prop) (fault : Prop) (n : Nat)
    (t : σ) : Prop where
  recode_panics : ∀ count rng p, P.recode t count rng = .error p → fault
  forwards : ∀ count rng packets rest (targets : List K), P.recode t count rng = .ok (packets,rest) →
    Logged (.forwarded n (targets.zip (packets.map (message n))))
  goes_on : P.is_complete t = false → Busy n t
  decode_panics : ∀ p, P.is_complete t = true → P.decode t = .error p → fault
  decodes : ∀ block u, P.is_complete t = true → P.decode t = .ok (block,u) → Logged (.decoded n block)
  advances : ∀ block u, P.is_complete t = true → P.decode t = .ok (block,u) →
    if n + 1 < 2 ^ 64 then Idle (n + 1) (P.reset u) else fault

/-- What a data packet does that is handed to the protocol while it takes them. -/
structure DataKept (P : Protocol σ) (Idle Busy : Nat → σ → Prop) (Logged Fault : Event σ K → Prop) (n : Nat) (s : σ)
    (data : Bytes) : Prop where
  heard : Logged (.ingest s .Data n data)
  panics : ∀ p, P.ingest s .Data n data = .error p → Fault (.ingest s .Data n data)
  useful : ∀ t, P.ingest s .Data n data = .ok (t,.ok true) →
    UsefulKept P Idle Busy Logged (Fault (.ingest s .Data n data)) n t
  refuses : ∀ t r, P.ingest s .Data n data = .ok (t,r) → r ≠ .ok true → Busy n t

/-- `Idle n` holds of a protocol that waits for the announcement of block `n`,
    `Busy n` of one that takes its packets. `Fault` logged of which handed messages
    the handling may panic. -/
structure Keeps (P : Protocol σ) (Idle Busy : Nat → σ → Prop) (Admissible : Item → Prop)
    (Logged Fault : Event σ K → Prop) : Prop where
  announce : ∀ n s data, Idle n s → Admissible (.Announce,n,data) → AnnounceKept P Idle Busy Logged Fault n s data
  data : ∀ n s data, Busy n s → Admissible (.Data,n,data) → DataKept P Idle Busy Logged Fault n s data

/-- A receiver in the middle of a run. -/
structure Steady (Idle Busy : Nat → σ → Prop) (Admissible : Item → Prop) (Logged : Event σ K → Prop)
    (node : Receiver σ K) : Prop where
  waiting : ∀ n, node.state = .Init n → Idle n node.protocol
  working : ∀ n, node.state = .Decoding n → Busy n node.protocol
  count : node.decoded_count = node.state.current_block
  buffered : ∀ item ∈ node.buffer, Admissible item
  logged : ∀ event ∈ node.log, Logged event
  numbered : (decodes node.log).map Prod.fst = List.range node.decoded_count

/-- A receiver that panicked. -/
structure Stopped (Logged Fault : Event σ K → Prop) (node : Receiver σ K) : Prop where
  logged : ∀ event ∈ node.log, Logged event
  fault : ∃ event ∈ node.log, Fault event
  numbered : ∃ count, (decodes node.log).map Prod.fst = List.range count

variable {P : Protocol σ} {Idle Busy : Nat → σ → Prop} {Admissible : Item → Prop} {Logged Fault : Event σ K → Prop}

theorem remove_members {buffer : Buffer} {n : Nat} (admissible : ∀ item ∈ buffer, Admissible item) :
    (∀ item ∈ (buffer.remove n).1, Admissible item) ∧ ∀ item ∈ (buffer.remove n).2, Admissible item :=
  ⟨fun item member => admissible item (List.mem_of_mem_filter member),
    fun item member => admissible item (List.mem_of_mem_filter member)⟩

theorem logged_append {log : List (Event σ K)} (logged : ∀ event ∈ log, Logged event) {event : Event σ K} (new : Logged event) :
    ∀ e ∈ log ++ [event], Logged e := by
  intro e member
  rcases List.mem_append.mp member with old | last
  · exact logged e old
  · rw [List.mem_singleton.mp last]; exact new

/-- What a handled message leaves: a steady receiver with admissible new work, or
    a panic that a handed message accounts for. -/
def Kept (Idle Busy : Nat → σ → Prop) (Admissible : Item → Prop) (Logged Fault : Event σ K → Prop)
    (r : Receiver σ K × List Item) : Prop :=
  if r.1.panicked.isSome then Stopped Logged Fault r.1
  else Steady Idle Busy Admissible Logged r.1 ∧ ∀ item ∈ r.2, Admissible item

theorem Steady.hear {self : Receiver σ K} (steady : Steady Idle Busy Admissible Logged self) {channel : Channel} {n : Nat}
    {data : Bytes} (heard : Logged (.ingest self.protocol channel n data)) (fault : Fault (.ingest self.protocol channel n data))
    (p : Panic) : Stopped Logged Fault ((self.record (.ingest self.protocol channel n data)).panic p) :=
  ⟨logged_append steady.logged heard,⟨_,List.mem_append_right _ (List.mem_singleton_self _),fault⟩,
    self.decoded_count,by simpa [decodes] using steady.numbered⟩

theorem on_announce_keeps {self : Receiver σ K} {n : Nat} {data : Bytes}
    (steady : Steady Idle Busy Admissible Logged self) (alive : self.panicked = none) (state : self.state = .Init n)
    (kept : AnnounceKept P Idle Busy Logged Fault n self.protocol data) :
    Kept Idle Busy Admissible Logged Fault (self.on_announce P n data) := by
  have heard := logged_append steady.logged kept.heard
  have parts := remove_members (n := n) steady.buffered
  have numbered : (decodes (self.log ++ [.ingest self.protocol .Announce n data])).map Prod.fst =
      List.range self.decoded_count := by
    simpa [decodes] using steady.numbered
  unfold Kept
  cases ran : P.ingest self.protocol .Announce n data with
  | error p =>
    rw [self.on_announce_panics P ran,if_pos (by simp)]
    exact steady.hear kept.heard (kept.panics p ran) p
  | ok result =>
    obtain ⟨protocol,r⟩ := result
    by_cases accepted : r = .ok true
    · subst accepted
      obtain ⟨busy,logged⟩ := kept.accepts protocol ran
      rw [self.on_announce_accepts P ran,if_neg (by simp [alive])]
      refine ⟨⟨by simp,?_,?_,parts.2,logged_append heard logged,?_⟩,?_⟩
      · intro k same
        obtain rfl : n = k := by simpa using same
        exact busy
      · simp [steady.count,state,ActorState.current_block]
      · simpa [decodes] using steady.numbered
      · exact fun item member => parts.1 item (List.mem_of_mem_filter member)
    · rw [self.on_announce_refuses P ran accepted,if_neg (by simp [alive])]
      refine ⟨⟨?_,?_,steady.count,steady.buffered,heard,numbered⟩,by simp⟩
      · intro k same
        obtain rfl : n = k := by simpa [state] using same
        exact kept.refuses protocol r ran accepted
      · intro k same
        simp [state] at same

/-- A receiver that has handed over a useful packet of block `n`. -/
structure Handling (Admissible : Item → Prop) (Logged : Event σ K → Prop) (event : Event σ K) (n : Nat) (t : σ)
    (node : Receiver σ K) : Prop where
  alive : node.panicked = none
  state : node.state = .Decoding n
  protocol : node.protocol = t
  count : node.decoded_count = n
  buffered : ∀ item ∈ node.buffer, Admissible item
  logged : ∀ event ∈ node.log, Logged event
  member : event ∈ node.log
  numbered : (decodes node.log).map Prod.fst = List.range node.decoded_count

theorem Handling.stopped {event : Event σ K} {n : Nat} {t : σ} {self : Receiver σ K}
    (handling : Handling Admissible Logged event n t self) (fault : Fault event) (p : Panic) :
    Stopped Logged Fault (self.panic p) :=
  ⟨handling.logged,⟨event,handling.member,fault⟩,self.decoded_count,handling.numbered⟩

theorem Handling.forward {event : Event σ K} {n : Nat} {t : σ} {self : Receiver σ K}
    (handling : Handling Admissible Logged event n t self)
    (kept : UsefulKept P Idle Busy Logged (Fault event) n t) (sender : Option K) :
    Stopped Logged Fault (self.forward P n sender) ∧ (self.forward P n sender).panicked.isSome ∨
      Handling Admissible Logged event n t (self.forward P n sender) := by
  have protocol := handling.protocol
  rcases self.forward_spec P n sender with ⟨p,recoded,sent⟩ | ⟨packets,rng,targets,recoded,sent⟩
  · left
    rw [protocol] at recoded
    rw [sent]
    exact ⟨⟨handling.logged,⟨event,handling.member,kept.recode_panics _ _ p recoded⟩,_,handling.numbered⟩,rfl⟩
  · right
    rw [protocol] at recoded
    rw [sent]
    refine ⟨handling.alive,handling.state,protocol,handling.count,handling.buffered,?_,?_,?_⟩
    · exact logged_append handling.logged (kept.forwards _ _ packets rng targets recoded)
    · exact List.mem_append_left _ handling.member
    · simpa [decodes] using handling.numbered

theorem Handling.finish {event : Event σ K} {n : Nat} {t : σ} {self : Receiver σ K}
    (handling : Handling Admissible Logged event n t self) (complete : P.is_complete t = true)
    (kept : UsefulKept P Idle Busy Logged (Fault event) n t) :
    Kept Idle Busy Admissible Logged Fault (self.finish P n) := by
  unfold Kept
  cases decoded : P.decode t with
  | error p =>
    rw [self.finish_panics P n (by rw [handling.protocol]; exact decoded),if_pos (by simp)]
    exact handling.stopped (kept.decode_panics p complete decoded) p
  | ok result =>
    obtain ⟨block,u⟩ := result
    have done := kept.decodes block u complete decoded
    have next := kept.advances block u complete decoded
    have logged := logged_append handling.logged done
    have numbered : (decodes (self.log ++ [.decoded n block])).map Prod.fst = List.range (self.decoded_count + 1) := by
      rw [List.range_succ,← handling.numbered,handling.count]
      simp [decodes]
    rw [← handling.protocol] at decoded
    by_cases more : n + 1 < 2 ^ 64
    · rw [if_pos more] at next
      rw [self.finish_advances P n decoded (by rw [handling.count]; exact more) more,if_neg (by simp [handling.alive])]
      have parts := remove_members (n := n + 1) handling.buffered
      refine ⟨⟨?_,by simp,?_,parts.2,logged,numbered⟩,?_⟩
      · intro k same
        obtain rfl : n + 1 = k := by simpa using same
        exact next
      · simp [handling.count,ActorState.current_block]
      · intro item member
        rcases List.mem_append.mp member with announced | data
        · exact parts.1 item (List.mem_of_mem_filter announced)
        · exact parts.1 item (List.mem_of_mem_filter data)
    · rw [if_neg more] at next
      obtain ⟨count,stopped⟩ := self.finish_overflows P n decoded (by omega)
      rw [stopped,if_pos (by simp)]
      exact ⟨logged,⟨event,List.mem_append_left _ handling.member,next⟩,_,numbered⟩

theorem Handling.steady {event : Event σ K} {n : Nat} {t : σ} {self : Receiver σ K}
    (handling : Handling Admissible Logged event n t self) (busy : Busy n t) :
    Steady Idle Busy Admissible Logged self := by
  refine ⟨?_,?_,?_,handling.buffered,handling.logged,handling.numbered⟩
  · intro k same
    simp [handling.state] at same
  · intro k same
    obtain rfl : n = k := by simpa [handling.state] using same
    rw [handling.protocol]
    exact busy
  · rw [handling.state]; exact handling.count

theorem on_useful_keeps {event : Event σ K} {n : Nat} {t : σ} {self : Receiver σ K}
    (handling : Handling Admissible Logged event n t self)
    (kept : UsefulKept P Idle Busy Logged (Fault event) n t) (sender : Option K) :
    Kept Idle Busy Admissible Logged Fault (self.on_useful P n sender) := by
  unfold Receiver.on_useful
  have sent : Stopped Logged Fault (if self.should_forward P then self.forward P n sender else self) ∧
        (if self.should_forward P then self.forward P n sender else self).panicked.isSome ∨
      Handling Admissible Logged event n t (if self.should_forward P then self.forward P n sender else self) := by
    split
    · exact handling.forward kept sender
    · exact .inr handling
  generalize (if self.should_forward P then self.forward P n sender else self) = next at sent
  rcases sent with ⟨stopped,dead⟩ | handling
  · simp only [dead,if_true]
    rw [Kept,if_pos dead]
    exact stopped
  · simp only [handling.alive,handling.protocol,Option.isSome_none,Bool.false_eq_true,if_false]
    by_cases complete : P.is_complete t = true
    · rw [if_pos complete]
      exact handling.finish complete kept
    · rw [if_neg complete,Kept,if_neg (by simp [handling.alive])]
      exact ⟨handling.steady (kept.goes_on (by simpa using complete)),by simp⟩

theorem on_data_keeps {self : Receiver σ K} {n : Nat} {data : Bytes} (sender : Option K)
    (steady : Steady Idle Busy Admissible Logged self) (alive : self.panicked = none) (state : self.state = .Decoding n)
    (kept : DataKept P Idle Busy Logged Fault n self.protocol data) :
    Kept Idle Busy Admissible Logged Fault (self.on_data P n data sender) := by
  have heard := logged_append steady.logged kept.heard
  have numbered : (decodes (self.log ++ [.ingest self.protocol .Data n data])).map Prod.fst =
      List.range self.decoded_count := by
    simpa [decodes] using steady.numbered
  cases ran : P.ingest self.protocol .Data n data with
  | error p =>
    rw [self.on_data_panics P sender ran,Kept,if_pos (by simp)]
    exact steady.hear kept.heard (kept.panics p ran) p
  | ok result =>
    obtain ⟨protocol,r⟩ := result
    by_cases useful : r = .ok true
    · subst useful
      rw [self.on_data_useful P sender ran]
      have handling : Handling Admissible Logged (.ingest self.protocol .Data n data) n protocol
          { self.record (.ingest self.protocol .Data n data) with protocol } :=
        ⟨alive,state,rfl,steady.count.trans (by rw [state]; rfl),steady.buffered,heard,
          List.mem_append_right _ (List.mem_singleton_self _),numbered⟩
      exact on_useful_keeps handling (kept.useful protocol ran) sender
    · rw [self.on_data_refuses P sender ran useful,Kept,if_neg (by simp [alive])]
      refine ⟨⟨?_,?_,steady.count,steady.buffered,heard,numbered⟩,by simp⟩
      · intro k same
        simp [state] at same
      · intro k same
        obtain rfl : n = k := by simpa [state] using same
        exact kept.refuses protocol r ran useful

theorem process_keeps (keeps : Keeps P Idle Busy Admissible Logged Fault) {self : Receiver σ K} {channel : Channel}
    {data : Bytes} (sender : Option K) (steady : Steady Idle Busy Admissible Logged self) (alive : self.panicked = none)
    (admissible : Admissible (channel,self.state.current_block,data)) :
    Kept Idle Busy Admissible Logged Fault (self.process P channel data sender) := by
  unfold Receiver.process
  split
  · rename_i n state
    rw [state] at admissible
    exact on_announce_keeps steady alive state (keeps.announce n _ data (steady.waiting n state) admissible)
  · rename_i n state
    rw [state] at admissible
    rw [Kept,if_neg (by simp [alive])]
    refine ⟨⟨steady.waiting,steady.working,steady.count,?_,steady.logged,steady.numbered⟩,by simp⟩
    intro item member
    rcases List.mem_append.mp member with old | new
    · exact steady.buffered item old
    · rw [List.mem_singleton.mp new]; exact admissible
  · rw [Kept,if_neg (by simp [alive])]
    exact ⟨steady,by simp⟩
  · rename_i n state
    rw [state] at admissible
    exact on_data_keeps sender steady alive state (keeps.data n _ data (steady.working n state) admissible)

/-- A receiver in a run: steady, or stopped by a panic that a handed message
    accounts for. -/
def Run (Idle Busy : Nat → σ → Prop) (Admissible : Item → Prop) (Logged Fault : Event σ K → Prop)
    (self : Receiver σ K) : Prop :=
  self.panicked = none ∧ Steady Idle Busy Admissible Logged self ∨ self.panicked.isSome ∧ Stopped Logged Fault self

theorem drain_run (keeps : Keeps P Idle Busy Admissible Logged Fault) {self : Receiver σ K} {work : List Item}
    (sender : Option K) (steady : Steady Idle Busy Admissible Logged self) (alive : self.panicked = none)
    (admissible : ∀ item ∈ work, Admissible item) :
    Run Idle Busy Admissible Logged Fault (self.drain P work sender) := by
  have drained := Receiver.drain_keeps P
    (fun self work => self.panicked = none ∧ Steady Idle Busy Admissible Logged self ∧ ∀ item ∈ work, Admissible item)
    (fun self => self.panicked.isSome ∧ Stopped Logged Fault self) ?_ ?_ self work sender alive ⟨alive,steady,admissible⟩
  · rcases drained with ⟨alive,_,steady,_⟩ | stopped
    · exact .inl ⟨alive,steady⟩
    · exact .inr stopped
  · rintro self channel bn data work _ ⟨alive,steady,all⟩
    exact ⟨alive,steady,fun item member => all item (List.mem_cons_of_mem _ member)⟩
  · rintro self channel bn data work sender current ⟨alive,steady,all⟩
    have here := all _ List.mem_cons_self
    rw [current] at here
    have kept := process_keeps keeps sender steady alive here
    unfold Kept at kept
    split at kept
    · rename_i dead
      rw [if_pos dead]
      exact ⟨dead,kept⟩
    · rename_i goes
      rw [if_neg goes]
      refine ⟨by simpa using goes,kept.1,?_⟩
      intro item member
      rcases List.mem_append.mp member with old | new
      · exact all item (List.mem_cons_of_mem _ old)
      · exact kept.2 item new

theorem route_run (keeps : Keeps P Idle Busy Admissible Logged Fault) {self : Receiver σ K} {channel : Channel}
    {block_num : Nat} {payload : Bytes} (sender : Option K) (steady : Steady Idle Busy Admissible Logged self)
    (alive : self.panicked = none) (admissible : Admissible (channel,block_num,payload)) :
    Run Idle Busy Admissible Logged Fault (self.route P channel block_num payload sender) := by
  unfold Receiver.route
  simp only
  split
  · exact .inl ⟨alive,steady⟩
  · split
    · refine .inl ⟨alive,steady.waiting,steady.working,steady.count,?_,steady.logged,steady.numbered⟩
      intro item member
      rcases List.mem_append.mp member with old | new
      · exact steady.buffered item old
      · rw [List.mem_singleton.mp new]; exact admissible
    · exact drain_run keeps sender steady alive (by simpa using admissible)

/-- What a message may be for the receiver, cut as `run_receiver` cuts it. -/
def Arrives (Admissible : Item → Prop) (channel : Channel) (msg : Bytes) : Prop :=
  8 ≤ msg.length → Admissible (channel,of_be (msg.take 8),msg.drop 8)

/-- One turn of the receiver loop. -/
theorem receive_run (keeps : Keeps P Idle Busy Admissible Logged Fault) (num_blocks : Nat) {self : Receiver σ K}
    (sender : K) {channel : Channel} {msg : Bytes} (run : Run Idle Busy Admissible Logged Fault self)
    (arrives : Arrives Admissible channel msg) :
    Run Idle Busy Admissible Logged Fault (self.receive P num_blocks sender channel msg) := by
  unfold Receiver.receive
  split
  · exact run
  · rename_i goes
    split
    · exact run
    · rename_i long
      rcases run with ⟨alive,steady⟩ | ⟨dead,_⟩
      · exact route_run keeps (some sender) steady alive (arrives (by omega))
      · exact absurd (.inl dead) goes

/-- A whole run, from any receiver in a run. -/
theorem receive_all_run (keeps : Keeps P Idle Busy Admissible Logged Fault) (num_blocks : Nat) {self : Receiver σ K}
    (messages : List (K × Channel × Bytes)) (run : Run Idle Busy Admissible Logged Fault self)
    (arrive : ∀ message ∈ messages, Arrives Admissible message.2.1 message.2.2) :
    Run Idle Busy Admissible Logged Fault (receive_all P num_blocks self messages) := by
  induction messages generalizing self with
  | nil => exact run
  | cons message messages ih =>
    obtain ⟨sender,channel,msg⟩ := message
    exact ih (receive_run keeps num_blocks sender run (arrive _ List.mem_cons_self))
      (fun message member => arrive message (List.mem_cons_of_mem _ member))

/-- A fresh receiver. -/
theorem run_new (actor : NodeActor σ K) (fresh : actor.state = .Init 0) (empty : actor.buffer = [])
    (idle : Idle 0 actor.protocol) : Run Idle Busy Admissible Logged Fault (Receiver.new actor) := by
  refine .inl ⟨rfl,?_,?_,?_,?_,by simp [Receiver.new],rfl⟩
  · intro n same
    obtain rfl : 0 = n := by simpa [Receiver.new,fresh] using same
    exact idle
  · intro n same
    simp [Receiver.new,fresh] at same
  · simp [Receiver.new,fresh,ActorState.current_block]
  · simp [Receiver.new,empty]

/-- More may be known later. -/
theorem Run.mono {Idle' Busy' : Nat → σ → Prop} {Admissible' : Item → Prop} {Logged' Fault' : Event σ K → Prop}
    (idle : ∀ n s, Idle n s → Idle' n s) (busy : ∀ n s, Busy n s → Busy' n s)
    (admissible : ∀ item, Admissible item → Admissible' item) (logged : ∀ event, Logged event → Logged' event)
    (fault : ∀ event, Fault event → Fault' event) {node : Receiver σ K} (run : Run Idle Busy Admissible Logged Fault node) :
    Run Idle' Busy' Admissible' Logged' Fault' node := by
  rcases run with ⟨alive,steady⟩ | ⟨dead,stopped⟩
  · exact .inl ⟨alive,fun n same => idle n _ (steady.waiting n same),fun n same => busy n _ (steady.working n same),
      steady.count,fun item member => admissible item (steady.buffered item member),
      fun event member => logged event (steady.logged event member),steady.numbered⟩
  · obtain ⟨event,member,faulty⟩ := stopped.fault
    exact .inr ⟨dead,fun event member => logged event (stopped.logged event member),
      ⟨event,member,fault event faulty⟩,stopped.numbered⟩

end

end Rlnc.Runs
