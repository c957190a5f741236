import Rlnc.Network

/-!
Receivers among hostile peers. Announcements are not authenticated, so that a receiver
decodes with whatever length it heard first. A receiver therefore survives everything that
arrives except a packet that completes its block (`Breaks`): if the recovered bytes are no
block at that length, decoding panics. `panics_iff` says that nothing else does.
-/
namespace Rlnc.Robustness
open Rlnc.Panics Rlnc.Combination Rlnc.Wire Rlnc.Packing Rlnc.Coding Rlnc.Draws Rlnc.Blocks Rlnc.Groups Rlnc.Integrity
open Rlnc.Bfkw Rlnc.Pedersen Rlnc.Protocols Rlnc.PedersenProtocol Rlnc.BfkwProtocol Rlnc.Actor Rlnc.Runs Rlnc.CodedRuns
open Rlnc.Agreement Rlnc.Network
set_option linter.unusedSectionVars false

/-- The data packets that were handed to the protocol, with its state before each. -/
def taken {σ K : Type} (log : List (Event σ K)) : List (σ × Nat × Bytes) :=
  log.filterMap fun
    | .ingest s .Data n data => some (s,n,data)
    | _ => none

/-- No packet that was handed to the protocol breaks it. -/
def Unbroken {σ K : Type} (Breaks : Nat → σ → Bytes → Prop) (log : List (Event σ K)) : Prop :=
  ∀ s n data, (s,n,data) ∈ taken log → ¬Breaks n s data

section
variable {σ K : Type} [DecidableEq K] [SliceRandom] {P : Protocol σ}

theorem taken_snoc (log : List (Event σ K)) (event : Event σ K) : taken (log ++ [event]) = taken log ++ taken [event] :=
  List.filterMap_append

/-! ### What handling a message adds to the log -/

theorem forward_taken (self : Receiver σ K) (n : Nat) (sender : Option K) :
    taken (self.forward P n sender).log = taken self.log ∧ (self.forward P n sender).protocol = self.protocol ∧
      (self.forward P n sender).decoded_count = self.decoded_count := by
  rcases self.forward_spec P n sender with ⟨p,_,sent⟩ | ⟨packets,rng,targets,_,sent⟩
  · rw [sent]
    exact ⟨rfl,rfl,rfl⟩
  · rw [sent]
    refine ⟨?_,rfl,rfl⟩
    rw [Receiver.record_log,taken_snoc]
    exact List.append_nil _

theorem finish_taken (self : Receiver σ K) (n : Nat) : taken (self.finish P n).1.log = taken self.log := by
  have silent : ∀ block, taken (self.log ++ [.decoded n block]) = taken self.log := fun block => by
    rw [taken_snoc]
    exact List.append_nil _
  cases decoded : P.decode self.protocol with
  | error p => rw [self.finish_panics P n decoded,Receiver.panic_log]
  | ok result =>
    by_cases more : self.decoded_count + 1 < 2 ^ 64 ∧ n + 1 < 2 ^ 64
    · rw [self.finish_advances P n decoded more.1 more.2]
      exact silent result.1
    · obtain ⟨count,stopped⟩ := self.finish_overflows P n decoded (by omega)
      rw [stopped]
      exact silent result.1

theorem on_useful_taken (self : Receiver σ K) (n : Nat) (sender : Option K) :
    taken (self.on_useful P n sender).1.log = taken self.log := by
  have kept : taken (if self.should_forward P then self.forward P n sender else self).log = taken self.log := by
    split
    · exact (forward_taken self n sender).1
    · rfl
  unfold Receiver.on_useful
  generalize (if self.should_forward P then self.forward P n sender else self) = sent at kept
  simp only
  split
  · exact kept
  · split
    · rw [finish_taken,kept]
    · exact kept

theorem on_data_taken (self : Receiver σ K) (n : Nat) (data : Bytes) (sender : Option K) :
    taken (self.on_data P n data sender).1.log = taken self.log ++ [(self.protocol,n,data)] := by
  have heard : taken (self.record (.ingest self.protocol .Data n data)).log = taken self.log ++ [(self.protocol,n,data)] := by
    rw [Receiver.record_log,taken_snoc]
    rfl
  simp only [Receiver.on_data]
  split
  · exact heard
  · rw [on_useful_taken]
    exact heard
  · exact heard

/-- Handling a message hands over no data packet but this one, and this one only while
    the receiver takes the packets of its block. -/
theorem process_taken (self : Receiver σ K) (channel : Channel) (data : Bytes) (sender : Option K) :
    taken (self.process P channel data sender).1.log = taken self.log ∨
      ∃ n, self.state = .Decoding n ∧ channel = .Data ∧ self.process P channel data sender = self.on_data P n data sender ∧
        taken (self.process P channel data sender).1.log = taken self.log ++ [(self.protocol,n,data)] := by
  unfold Receiver.process
  split
  · rename_i n _
    have heard : taken (self.record (.ingest self.protocol .Announce n data)).log = taken self.log := by
      rw [Receiver.record_log,taken_snoc]
      exact List.append_nil _
    left
    simp only [Receiver.on_announce]
    split
    · exact heard
    · simp only [Receiver.record_log]
      rw [taken_snoc]
      exact (List.append_nil _).trans heard
    · exact heard
  · exact .inl rfl
  · exact .inl rfl
  · rename_i n state
    exact .inr ⟨n,state,rfl,rfl,on_data_taken self n data sender⟩

/-! ### Runs in which all packets that are handed over are known -/

variable {Idle Busy : Nat → σ → Prop} {Admissible : Item → Prop} {Logged Fault : Event σ K → Prop}
  {Breaks Allowed : Nat → σ → Bytes → Prop}

/-- Every data packet that was handed to the protocol was allowed in the state before it. -/
def Handed (Allowed : Nat → σ → Bytes → Prop) (log : List (Event σ K)) : Prop :=
  ∀ s n data, (s,n,data) ∈ taken log → Allowed n s data

/-- What a protocol has to guarantee when it is handed allowed packets only. -/
structure KeepsHanded (P : Protocol σ) (Idle Busy : Nat → σ → Prop) (Allowed : Nat → σ → Bytes → Prop)
    (Logged Fault : Event σ K → Prop) : Prop where
  announce : ∀ n s data, Idle n s → AnnounceKept P Idle Busy Logged Fault n s data
  data : ∀ n s data, Busy n s → Allowed n s data → DataKept P Idle Busy Logged Fault n s data

theorem process_handed (keeps : KeepsHanded P Idle Busy Allowed Logged Fault) {self : Receiver σ K} {channel : Channel}
    {data : Bytes} (sender : Option K) (steady : Steady Idle Busy (fun _ => True) Logged self) (alive : self.panicked = none)
    (handed : Handed Allowed (self.process P channel data sender).1.log) :
    Kept Idle Busy (fun _ => True) Logged Fault (self.process P channel data sender) := by
  unfold Receiver.process at handed ⊢
  split at handed
  · rename_i n state
    exact on_announce_keeps steady alive state (keeps.announce n _ data (steady.waiting n state))
  · rw [Kept,if_neg (by simp [alive])]
    exact ⟨⟨steady.waiting,steady.working,steady.count,fun _ _ => trivial,steady.logged,steady.numbered⟩,fun _ _ => trivial⟩
  · rw [Kept,if_neg (by simp [alive])]
    exact ⟨steady,fun _ _ => trivial⟩
  · rename_i n state
    rw [Handed,on_data_taken] at handed
    have allowed := handed self.protocol n data (List.mem_append_right _ (List.mem_singleton_self _))
    exact on_data_keeps sender steady alive state (keeps.data n _ data (steady.working n state) allowed)

/-- What was handed over before a message was handed over after it. -/
theorem Handed.before {self : Receiver σ K} {channel : Channel} {data : Bytes} {sender : Option K}
    (handed : Handed Allowed (self.process P channel data sender).1.log) : Handed Allowed self.log := by
  intro s n packet listed
  refine handed s n packet ?_
  rcases process_taken (P := P) self channel data sender with same | ⟨_,_,_,_,more⟩
  · rw [same]; exact listed
  · rw [more]; exact List.mem_append_left _ listed

/-- A receiver in a run, as far as the packets that it was handed were allowed. -/
def RunHanded (Idle Busy : Nat → σ → Prop) (Allowed : Nat → σ → Bytes → Prop) (Logged Fault : Event σ K → Prop)
    (self : Receiver σ K) : Prop :=
  Handed Allowed self.log → Run Idle Busy (fun _ => True) Logged Fault self

theorem route_handed (keeps : KeepsHanded P Idle Busy Allowed Logged Fault) {self : Receiver σ K} (channel : Channel)
    (block_num : Nat) (payload : Bytes) (sender : Option K) (alive : self.panicked = none)
    (run : RunHanded Idle Busy Allowed Logged Fault self) :
    RunHanded Idle Busy Allowed Logged Fault (self.route P channel block_num payload sender) := by
  have steady : Handed Allowed self.log → Steady Idle Busy (fun _ => True) Logged self := by
    intro handed
    rcases run handed with ⟨_,steady⟩ | ⟨dead,_⟩
    · exact steady
    · rw [alive] at dead
      cases dead
  unfold Receiver.route
  simp only
  split
  · exact run
  · split
    · intro handed
      obtain ⟨waiting,working,count,_,logged,numbered⟩ := steady handed
      exact .inl ⟨alive,waiting,working,count,fun _ _ => trivial,logged,numbered⟩
    · have drained := Receiver.drain_keeps P
        (fun self _ => self.panicked = none ∧ (Handed Allowed self.log → Steady Idle Busy (fun _ => True) Logged self))
        (fun self => self.panicked.isSome ∧ (Handed Allowed self.log → Stopped Logged Fault self)) ?_ ?_ self
        [(channel,block_num,payload)] sender alive ⟨alive,steady⟩
      · intro handed
        rcases drained with ⟨alive,_,steady⟩ | ⟨dead,stopped⟩
        · exact .inl ⟨alive,steady handed⟩
        · exact .inr ⟨dead,stopped handed⟩
      · rintro self channel bn data work _ ⟨alive,steady⟩
        exact ⟨alive,steady⟩
      · rintro self channel bn data work sender _ ⟨alive,steady⟩
        have kept : Handed Allowed (self.process P channel data sender).1.log →
            Kept Idle Busy (fun _ => True) Logged Fault (self.process P channel data sender) :=
          fun handed => process_handed keeps sender (steady handed.before) alive handed
        unfold Kept at kept
        split
        · rename_i dead
          refine ⟨dead,fun handed => ?_⟩
          have stopped := kept handed
          rwa [if_pos dead] at stopped
        · rename_i goes
          refine ⟨by simpa using goes,fun handed => ?_⟩
          have next := kept handed
          rw [if_neg goes] at next
          exact next.1

theorem receive_handed (keeps : KeepsHanded P Idle Busy Allowed Logged Fault) (num_blocks : Nat) {self : Receiver σ K}
    (sender : K) (channel : Channel) (msg : Bytes) (run : RunHanded Idle Busy Allowed Logged Fault self) :
    RunHanded Idle Busy Allowed Logged Fault (self.receive P num_blocks sender channel msg) := by
  unfold Receiver.receive
  split
  · exact run
  · rename_i goes
    split
    · exact run
    · have alive : self.panicked = none := by
        rw [← Option.not_isSome_iff_eq_none]
        exact fun dead => goes (.inl dead)
      exact route_handed keeps channel _ _ (some sender) alive run

/-- A whole run is as the packets that were handed over in it allow, whatever else arrived. -/
theorem receive_all_handed (keeps : KeepsHanded P Idle Busy Allowed Logged Fault) (num_blocks : Nat) {self : Receiver σ K}
    (messages : List (K × Channel × Bytes)) (run : RunHanded Idle Busy Allowed Logged Fault self) :
    RunHanded Idle Busy Allowed Logged Fault (receive_all P num_blocks self messages) := by
  induction messages generalizing self with
  | nil => exact run
  | cons message messages ih =>
    obtain ⟨sender,channel,msg⟩ := message
    exact ih (receive_handed keeps num_blocks sender channel msg run)

/-! ### A packet that breaks its receiver -/

/-- A packet that breaks the protocol completes its block, which is not decoded or is
    the last one that has a number. -/
def Stops (P : Protocol σ) (Busy : Nat → σ → Prop) (Breaks : Nat → σ → Bytes → Prop) : Prop :=
  ∀ n s data, Busy n s → Breaks n s data → ∃ t, P.ingest s .Data n data = .ok (t,.ok true) ∧ P.is_complete t = true ∧
    ∀ block u, P.decode t = .ok (block,u) → 2 ^ 64 ≤ n + 1

theorem finish_stops {self : Receiver σ K} {n : Nat}
    (last : ∀ block u, P.decode self.protocol = .ok (block,u) → 2 ^ 64 ≤ n + 1) :
    (self.finish P n).1.panicked.isSome := by
  cases decoded : P.decode self.protocol with
  | error p => rw [self.finish_panics P n decoded]; rfl
  | ok result =>
    obtain ⟨count,stopped⟩ := self.finish_overflows P n decoded (.inr (last _ _ decoded))
    rw [stopped]
    rfl

theorem on_data_stops (stops : Stops P Busy Breaks) {self : Receiver σ K} {n : Nat} {data : Bytes} (sender : Option K)
    (busy : Busy n self.protocol) (breaks : Breaks n self.protocol data) :
    (self.on_data P n data sender).1.panicked.isSome := by
  obtain ⟨t,accepted,complete,last⟩ := stops n _ data busy breaks
  rw [self.on_data_useful P sender accepted,Receiver.on_useful]
  generalize starts : ({ self.record (.ingest self.protocol .Data n data) with protocol := t } : Receiver σ K) = handed
  have protocol : handed.protocol = t := by rw [← starts]
  have kept : (if handed.should_forward P then handed.forward P n sender else handed).protocol = t := by
    split
    · exact (forward_taken handed n sender).2.1.trans protocol
    · exact protocol
  generalize (if handed.should_forward P then handed.forward P n sender else handed) = sent at kept ⊢
  split
  · assumption
  · rw [if_pos (by rw [kept]; exact complete)]
    exact finish_stops (by rw [kept]; exact last)

/-- A receiver that runs on was handed nothing that breaks it. -/
structure Survived (Idle Busy : Nat → σ → Prop) (Admissible : Item → Prop) (Logged : Event σ K → Prop)
    (Breaks : Nat → σ → Bytes → Prop) (node : Receiver σ K) : Prop where
  alive : node.panicked = none
  steady : Steady Idle Busy Admissible Logged node
  unbroken : Unbroken Breaks node.log

theorem process_survived (keeps : Keeps P Idle Busy Admissible Logged Fault) (stops : Stops P Busy Breaks)
    {self : Receiver σ K} {channel : Channel} {data : Bytes} (sender : Option K)
    (survived : Survived Idle Busy Admissible Logged Breaks self)
    (admissible : Admissible (channel,self.state.current_block,data))
    (alive : (self.process P channel data sender).1.panicked = none) :
    Survived Idle Busy Admissible Logged Breaks (self.process P channel data sender).1 ∧
      ∀ item ∈ (self.process P channel data sender).2, Admissible item := by
  have kept := process_keeps keeps sender survived.steady survived.alive admissible
  rw [Kept,if_neg (by simp [alive])] at kept
  refine ⟨⟨alive,kept.1,?_⟩,kept.2⟩
  intro s n data' listed breaks
  rcases process_taken (P := P) self channel data sender with same | ⟨k,state,rfl,handled,more⟩
  · rw [same] at listed
    exact survived.unbroken s n data' listed breaks
  · rw [more] at listed
    rcases List.mem_append.mp listed with old | new
    · exact survived.unbroken s n data' old breaks
    · obtain ⟨rfl,rfl,rfl⟩ : s = self.protocol ∧ n = k ∧ data' = data := by simpa using new
      have dead := on_data_stops stops sender (survived.steady.working n state) breaks
      rw [← handled,alive] at dead
      cases dead

theorem route_survived (keeps : Keeps P Idle Busy Admissible Logged Fault) (stops : Stops P Busy Breaks)
    {self : Receiver σ K} {channel : Channel} {block_num : Nat} {payload : Bytes} (sender : Option K)
    (survived : Survived Idle Busy Admissible Logged Breaks self) (admissible : Admissible (channel,block_num,payload)) :
    (self.route P channel block_num payload sender).panicked.isSome ∨
      Survived Idle Busy Admissible Logged Breaks (self.route P channel block_num payload sender) := by
  unfold Receiver.route
  simp only
  split
  · exact .inr survived
  · split
    · obtain ⟨alive,steady,unbroken⟩ := survived
      refine .inr ⟨alive,⟨steady.waiting,steady.working,steady.count,?_,steady.logged,steady.numbered⟩,unbroken⟩
      intro item member
      rcases List.mem_append.mp member with old | new
      · exact steady.buffered item old
      · rw [List.mem_singleton.mp new]
        exact admissible
    · have drained := Receiver.drain_keeps P
        (fun self work => Survived Idle Busy Admissible Logged Breaks self ∧ ∀ item ∈ work, Admissible item)
        (fun self => self.panicked.isSome) ?_ ?_ self [(channel,block_num,payload)] sender survived.alive
        ⟨survived,by simpa using admissible⟩
      · exact drained.elim (fun goes => .inr goes.2.1) .inl
      · rintro self channel bn data work _ ⟨survived,all⟩
        exact ⟨survived,fun item member => all item (List.mem_cons_of_mem _ member)⟩
      · rintro self channel bn data work sender rfl ⟨survived,all⟩
        split
        · assumption
        · rename_i goes
          obtain ⟨next,new⟩ := process_survived keeps stops sender survived (all _ List.mem_cons_self) (by simpa using goes)
          refine ⟨next,fun item member => ?_⟩
          rcases List.mem_append.mp member with old | added
          · exact all item (List.mem_cons_of_mem _ old)
          · exact new item added

theorem receive_survived (keeps : Keeps P Idle Busy Admissible Logged Fault) (stops : Stops P Busy Breaks) (num_blocks : Nat)
    {self : Receiver σ K} (sender : K) {channel : Channel} {msg : Bytes}
    (started : self.panicked.isSome ∨ Survived Idle Busy Admissible Logged Breaks self)
    (arrives : Arrives Admissible channel msg) :
    (self.receive P num_blocks sender channel msg).panicked.isSome ∨
      Survived Idle Busy Admissible Logged Breaks (self.receive P num_blocks sender channel msg) := by
  unfold Receiver.receive
  split
  · exact started
  · rename_i goes
    split
    · exact started
    · rename_i long
      rcases started with dead | survived
      · exact absurd (.inl dead) goes
      · exact route_survived keeps stops (some sender) survived (arrives (by omega))

theorem receive_all_survived (keeps : Keeps P Idle Busy Admissible Logged Fault) (stops : Stops P Busy Breaks)
    (num_blocks : Nat) {self : Receiver σ K} (messages : List (K × Channel × Bytes))
    (started : self.panicked.isSome ∨ Survived Idle Busy Admissible Logged Breaks self)
    (arrive : ∀ message ∈ messages, Arrives Admissible message.2.1 message.2.2) :
    (receive_all P num_blocks self messages).panicked.isSome ∨
      Survived Idle Busy Admissible Logged Breaks (receive_all P num_blocks self messages) := by
  induction messages generalizing self with
  | nil => exact started
  | cons message messages ih =>
    obtain ⟨sender,channel,msg⟩ := message
    exact ih (receive_survived keeps stops num_blocks sender started (arrive _ List.mem_cons_self))
      (fun message member => arrive message (List.mem_cons_of_mem _ member))

/-- A receiver panics in a run exactly if it was handed a packet that breaks it. -/
theorem runs_iff (keeps : Keeps P Idle Busy Admissible Logged Fault) (stops : Stops P Busy Breaks)
    (faults : ∀ event, Fault event → ∃ s n data, event = .ingest s .Data n data ∧ Breaks n s data) (num_blocks : Nat)
    {self : Receiver σ K} (survived : Survived Idle Busy Admissible Logged Breaks self)
    (messages : List (K × Channel × Bytes)) (arrive : ∀ message ∈ messages, Arrives Admissible message.2.1 message.2.2) :
    (receive_all P num_blocks self messages).panicked = none ↔ Unbroken Breaks (receive_all P num_blocks self messages).log := by
  constructor
  · intro alive
    rcases receive_all_survived keeps stops num_blocks messages (.inr survived) arrive with dead | survived
    · rw [alive] at dead
      cases dead
    · exact survived.unbroken
  · intro unbroken
    rcases receive_all_run keeps num_blocks messages (.inl ⟨survived.alive,survived.steady⟩) arrive with ⟨alive,_⟩ | ⟨_,stopped⟩
    · exact alive
    · -- the panic comes from a handed packet, which would have broken the receiver
      obtain ⟨event,listed,fault⟩ := stopped.fault
      obtain ⟨s,n,data,rfl,breaks⟩ := faults event fault
      exact absurd breaks (unbroken s n data (List.mem_filterMap.mpr ⟨_,listed,rfl⟩))

/-- A fresh receiver has survived. -/
theorem survived_new (protocol : σ) (peers : List K) (mesh_degree : Nat) (rng : Rng) (idle : Idle 0 protocol) :
    Survived Idle Busy Admissible Logged Breaks (Receiver.new (NodeActor.new protocol peers mesh_degree rng)) := by
  have run : Run Idle Busy Admissible Logged (fun _ => False)
      (Receiver.new (NodeActor.new protocol peers mesh_degree rng)) := run_new _ rfl rfl idle
  rcases run with ⟨alive,steady⟩ | ⟨dead,_⟩
  · exact ⟨alive,steady,fun s n data listed => by cases listed⟩
  · cases dead

end

/-! ### The protocols -/

/-- In every run, whatever arrives from whomever, the receiver panics exactly if it is
    handed a data packet that breaks it. -/
def PanicsExactly [SliceRandom] {σ : Type} (P : Protocol σ) (Fresh : σ → Prop) (Breaks : Nat → σ → Bytes → Prop) : Prop :=
  ∀ (K : Type) [DecidableEq K] (protocol : σ) (peers : List K) (mesh_degree : Nat) (rng : Rng) (num_blocks : Nat)
    (messages : List (K × Channel × Bytes)), Fresh protocol →
    let node := receive_all P num_blocks (Receiver.new (NodeActor.new protocol peers mesh_degree rng)) messages
    node.panicked = none ↔ Unbroken Breaks node.log

section
variable {F : Type} [Field F] [DecidableEq F] {N : Nat} {Context Proof Error : Type} [FixedCodec F] [IntegrityProof Proof]
  [Random F] [PackableField F] [FixedCodec UInt64] [BytesCodec] {σ : Type} {P : Protocol σ}
  {S : IntegrityScheme F N Context Proof Error} {view : σ → CodedState F N Context Proof} {derive : Nat → Context} {m : Nat}

/-- Nothing is known of what arrives. -/
def unknown (F : Type) (N : Nat) : Terms F N := ⟨fun _ _ => True,fun _ _ => True,fun _ _ => True⟩

/-- A packet that breaks a coded protocol stops it. -/
theorem coded_stops (coded : Coded P S view) :
    Stops P (Busy S view derive m (unknown F N)) (Breaks S view derive m) := by
  rintro n s data ⟨⟨wide,_⟩,known,_,packets,stored,_⟩ ⟨packet,read,good,fresh,spans,broken⟩
  have width := SignedPacket.deserialize_width read
  rcases coded_receive_spec stored packet width good with ⟨_,refused,_⟩ | ⟨_,member,_⟩ | ⟨_,_,_,decoder,proofs,received,grown⟩
  · cases refused
  · exact absurd member fresh
  have chunks : decoder.coded_chunks = (view s).decoder.coded_chunks ++ [packet.chunk] := by
    rw [grown.chunks,stored.chunks,List.map_append,List.map_singleton]
  have taken : (view s).receive S data = .ok ({ view s with decoder, proofs },.ok true) := by
    simp only [CodedState.receive,known,wide,read,ok_bind,received,pure_eq]
  have ran := coded.data s n data
  rw [taken] at ran
  obtain ⟨⟨t,r⟩,accepted,same⟩ := map_ok ran
  obtain ⟨next,rfl⟩ := Prod.mk.inj same
  have complete : (view t).decoder.is_complete = true := by
    rw [next,BlockDecoder.complete_iff_spans grown.sound,chunks]
    exact spans
  refine ⟨t,accepted,(coded.is_complete t).trans complete,fun block u decoded => ?_⟩
  rcases broken with last | ⟨originals,count,sizes,encoded,unreadable⟩
  · exact last
  · -- the chunks that the decoder gives are those that all stored chunks encode
    rw [coded.decode] at decoded
    obtain ⟨block',decoded,_⟩ := map_ok decoded
    have recovered : decoder.decode = .ok originals :=
      BlockDecoder.decode_encoded grown.sound (by rwa [next] at complete) count sizes (by rw [chunks]; exact encoded)
    simp only [CodedState.decode,next,recovered,ok_bind] at decoded
    exact absurd ((Block.from_chunks_runs_iff count _).mp ⟨block',decoded⟩) unreadable

theorem coded_panics [SliceRandom] (coded : Coded P S view) (total : Total S derive m) (positive : 0 < m) :
    PanicsExactly P (Idle view derive m 0) (Breaks S view derive m) := by
  intro K _ protocol peers mesh_degree rng num_blocks messages idle
  have lawful : Lawful S derive m (unknown F N) := ⟨fun _ _ _ _ _ _ _ _ _ _ _ => trivial,fun _ _ _ _ _ _ _ _ _ _ _ _ _ _ => trivial⟩
  let Accounted : Event σ K → Prop := fun event => ∃ s n data, event = .ingest s .Data n data ∧ Breaks S view derive m n s data
  have keeps : Keeps P (Idle view derive m) (Busy S view derive m (unknown F N)) (Admissible S derive m (unknown F N))
      (Logged S view derive m (unknown F N)) Accounted :=
    ⟨fun _ _ _ idle admissible => announce_kept coded idle admissible,
      fun n s data busy admissible => data_kept coded lawful positive busy admissible (fun undone => absurd total undone)
        fun breaks => ⟨s,n,data,rfl,breaks⟩⟩
  refine runs_iff keeps (coded_stops coded) (fun _ accounted => accounted) num_blocks
    (survived_new protocol peers mesh_degree rng idle) messages ?_
  rintro ⟨_,channel,msg⟩ _ _
  cases channel with
  | Announce => exact fun _ => trivial
  | Data => exact fun _ _ _ => trivial

end

section
variable [FixedCodec UInt64] [BytesCodec]

/-- A block arrives that is the last one with a number. -/
def baseline_breaks (n : Nat) (_s : BaselineProtocol) (data : Bytes) : Prop :=
  2 ^ 64 ≤ n + 1 ∧ ∃ block, Block.decode data = .ok block

theorem baseline_stops : Stops BaselineProtocol.protocol (fun _ s => s.block = none) baseline_breaks := by
  rintro n s data empty ⟨last,block,read⟩
  refine ⟨{ s with block_bytes := some data, block := some block },?_,rfl,fun _ _ _ => last⟩
  simp only [BaselineProtocol.protocol,BaselineProtocol.ingest,empty,Option.isSome_none,Bool.false_eq_true,if_false,read]

theorem baseline_keeps {K : Type} : Keeps (K := K) BaselineProtocol.protocol (fun _ s => s.block = none)
    (fun _ s => s.block = none) (fun _ => True) (fun _ => True)
    (fun event => ∃ s n data, event = .ingest s .Data n data ∧ baseline_breaks n s data) := by
  constructor
  · intro n s data empty _
    refine ⟨trivial,?_,?_,?_⟩
    · intro p panicked
      simp only [BaselineProtocol.protocol,BaselineProtocol.ingest] at panicked
      split at panicked <;> cases panicked
    · intro t accepted
      simp only [BaselineProtocol.protocol,BaselineProtocol.ingest] at accepted
      split at accepted
      · cases accepted
      · obtain ⟨rfl,_⟩ := ok_pair accepted
        exact ⟨empty,trivial⟩
    · intro t r answered _
      simp only [BaselineProtocol.protocol,BaselineProtocol.ingest] at answered
      split at answered <;> obtain ⟨rfl,_⟩ := ok_pair answered <;> exact empty
  · intro n s data empty _
    cases read : Block.decode data with
    | error e =>
      have ran : BaselineProtocol.protocol.ingest s .Data n data = .ok (s,.error s!"failed to decode block: {e}") := by
        simp only [BaselineProtocol.protocol,BaselineProtocol.ingest,empty,Option.isSome_none,Bool.false_eq_true,if_false,read]
      refine ⟨trivial,?_,?_,?_⟩
      · intro p panicked
        cases ran.symm.trans panicked
      · intro t accepted
        cases (ok_pair (ran.symm.trans accepted)).2
      · intro t r answered _
        obtain ⟨rfl,_⟩ := ok_pair (ran.symm.trans answered)
        exact empty
    | ok block =>
      have ran : BaselineProtocol.protocol.ingest s .Data n data =
          .ok ({ s with block_bytes := some data, block := some block },.ok true) := by
        simp only [BaselineProtocol.protocol,BaselineProtocol.ingest,empty,Option.isSome_none,Bool.false_eq_true,if_false,read]
      refine ⟨trivial,?_,?_,?_⟩
      · intro p panicked
        cases ran.symm.trans panicked
      · intro t accepted
        obtain ⟨rfl,_⟩ := ok_pair (ran.symm.trans accepted)
        refine ⟨?_,fun _ _ _ _ _ _ => trivial,?_,?_,fun _ _ _ _ => trivial,?_⟩
        · rintro count rng p ⟨⟩
        · rintro ⟨⟩
        · rintro p _ ⟨⟩
        · intro block' u _ decoded
          split
          · rfl
          · exact ⟨s,n,data,rfl,by omega,block,read⟩
      · intro t r answered refused
        exact absurd (ok_pair (ran.symm.trans answered)).2.symm refused

theorem baseline_panics [SliceRandom] : PanicsExactly BaselineProtocol.protocol (fun s => s = BaselineProtocol.new) baseline_breaks := by
  rintro K _ protocol peers mesh_degree rng num_blocks messages rfl
  exact runs_iff baseline_keeps baseline_stops (fun _ accounted => accounted) num_blocks
    (survived_new BaselineProtocol.new peers mesh_degree rng rfl) messages fun _ _ _ => trivial

end

/-- Receivers of all three protocols panic exactly where they are handed a packet that breaks them. -/
theorem panics_iff (F G S PublicKey Signature G1 G2 : Type) (N : Nat) [Field F] [DecidableEq F] [FixedCodec F]
    [Random F] [PackableField F] [FixedCodec UInt32] [FixedCodec UInt64] [BytesCodec] [SliceRandom] [AddCommGroup G]
    [DecidableEq G] [Module F G] [Space F G] [HashToGroup G] [FixedCodec G] [Verifier PublicKey Signature]
    [Signer S PublicKey Signature] [FixedCodec Signature] [AddCommGroup G1] [Module F G1] [AddCommGroup G2] [Module F G2]
    [Space F G2] [HashToGroup G2] [PairingGroup G1 G2] [FixedCodec G2] (m : Nat) (positive : 0 < m)
    (proposer_pk : PublicKey) (bfkw_pk : G1) :
    PanicsExactly (PedersenProtocol.protocol F G S PublicKey Signature N)
      (fun s => ∃ signer, s = PedersenProtocol.new m proposer_pk signer)
      (Breaks (PedersenScheme F G PublicKey Signature N) PedersenProtocol.view (canonical_context m proposer_pk) m) ∧
    PanicsExactly (BfkwProtocol.protocol F G1 G2 N) (fun s => ∃ signer, s = BfkwProtocol.new m bfkw_pk signer)
      (Breaks (BfkwScheme F G1 G2 N) BfkwProtocol.view (number_context N m bfkw_pk) m) ∧
    PanicsExactly BaselineProtocol.protocol (fun s => s = BaselineProtocol.new) baseline_breaks := by
  refine ⟨?_,?_,baseline_panics⟩
  · rintro K _ _ peers mesh_degree rng num_blocks messages ⟨signer,rfl⟩
    exact coded_panics PedersenProtocol.coded (pedersen_total m proposer_pk) positive K _ peers mesh_degree rng num_blocks
      messages ⟨⟨rfl,rfl⟩,rfl,rfl⟩
  · rintro K _ _ peers mesh_degree rng num_blocks messages ⟨signer,rfl⟩
    exact coded_panics BfkwProtocol.coded (bfkw_total m bfkw_pk) positive K _ peers mesh_degree rng num_blocks messages
      ⟨⟨rfl,rfl⟩,rfl,rfl⟩

section
open Rlnc.Scalars Rlnc.Reference

/-- A receiver with the proposer 0 and the peer 2, which announces one byte more than the
    chunks of the block have before the packet of the proposer arrives. -/
private def misled {σ : Type} (P : Protocol σ) (proposer receiver : σ) : Option (Receiver σ Nat) :=
  match propose_block P 0 (NodeActor.new proposer [1,2] 1 (Stream'.const 1)) 0 with
  | .error _ => none
  | .ok (_,sent) => some (receive_all P 1 (Receiver.new (NodeActor.new receiver [0,2] 1 (Stream'.const 1)))
      ((2,.Announce,message 0 (to_be 8 125)) :: (0,.Announce,sent.ann_msg) ::
        sent.packets.map fun entry => (0,.Data,entry.2)))

/-- A forged announcement makes the receivers of both coded protocols panic. -/
theorem forged_length_panics :
    (misled (PedersenProtocol.protocol Scalar Scalar Bytes Bytes UInt64 1) (PedersenProtocol.new 4 [7] (some ⟨[7]⟩))
      (PedersenProtocol.new 4 [7] none)).map (fun node => node.panicked) = some (some .out_of_bounds) ∧
    (misled (BfkwProtocol.protocol Scalar Scalar Scalar 1) (BfkwProtocol.new 4 (scalar 3) (some ⟨scalar 3,scalar 3⟩))
      (BfkwProtocol.new 4 (scalar 3) none)).map (fun node => node.panicked) = some (some .out_of_bounds) := by
  constructor
  · decide +kernel
  · decide +kernel

/-- The misled receiver was handed a packet that breaks it. -/
theorem panics_iff_misled : 0 < 4 ∧ ∃ node,
    misled (BfkwProtocol.protocol Scalar Scalar Scalar 1) (BfkwProtocol.new 4 (scalar 3) (some ⟨scalar 3,scalar 3⟩))
      (BfkwProtocol.new 4 (scalar 3) none) = some node ∧
    ¬Unbroken (Breaks (BfkwScheme Scalar Scalar Scalar 1) BfkwProtocol.view (number_context 1 4 (scalar 3)) 4) node.log := by
  have dead : (misled (BfkwProtocol.protocol Scalar Scalar Scalar 1) (BfkwProtocol.new 4 (scalar 3) (some ⟨scalar 3,scalar 3⟩))
      (BfkwProtocol.new 4 (scalar 3) none)).map (fun node => node.panicked) = some (some .out_of_bounds) := by decide +kernel
  obtain ⟨node,ran,stopped⟩ := Option.map_eq_some_iff.mp dead
  refine ⟨by decide,node,ran,fun unbroken => ?_⟩
  unfold misled at ran
  split at ran
  · cases ran
  · obtain rfl := Option.some.inj ran
    have exact_at := (panics_iff Scalar Scalar Bytes Bytes UInt64 Scalar Scalar 1 4 (by decide) [7] (scalar 3)).2.1
    have alive := (exact_at Nat _ [0,2] 1 (Stream'.const 1) 1 _ ⟨none,rfl⟩).mpr unbroken
    rw [alive] at stopped
    cases stopped

end

end Rlnc.Robustness
