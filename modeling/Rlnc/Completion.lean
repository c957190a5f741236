import Rlnc.Policies
import Rlnc.Reordering

/-!
How far a receiver gets. Whatever arrives, in whatever order, it has decoded exactly the
blocks up to the first one of which no announcement was long enough or, with a coded
protocol, the verified packets do not span everything (`exact_progress`).
-/
namespace Rlnc.Completion
open Rlnc.Panics Rlnc.Combination Rlnc.Wire Rlnc.Packing Rlnc.Coding Rlnc.Draws Rlnc.Blocks Rlnc.Groups Rlnc.Integrity
open Rlnc.Protocols Rlnc.Actor Rlnc.Runs Rlnc.InOrder Rlnc.Reordering Rlnc.Policies
open Rlnc.CodedRuns (Idle)
open Rlnc.Agreement (number_context)
open Rlnc.Network (canonical_context)
open Rlnc.Pedersen Rlnc.Bfkw Rlnc.PedersenProtocol Rlnc.BfkwProtocol
set_option linter.unusedSectionVars false

/-! ### How far the reference gets -/

/-- The count is that of the numbers from `n` on, up to the first that is not good. -/
def Reaches (Good : Nat → Prop) (n count : Nat) : Prop :=
  n ≤ count ∧ ∀ j, n ≤ j → (j ≤ count ↔ ∀ k, n ≤ k → k < j → Good k)

theorem Reaches.stop {Good : Nat → Prop} {n : Nat} (bad : ¬Good n) : Reaches Good n n := by
  refine ⟨le_rfl,fun j from_here => ⟨fun inside k later before => by omega,fun all => ?_⟩⟩
  by_contra beyond
  exact bad (all n le_rfl (by omega))

theorem Reaches.step {Good : Nat → Prop} {n count : Nat} (reaches : Reaches Good (n + 1) count) (good : Good n) :
    Reaches Good n count := by
  obtain ⟨inside,exactly⟩ := reaches
  refine ⟨by omega,fun j from_here => ?_⟩
  by_cases here : j = n
  · subst here
    exact ⟨fun _ k later before => by omega,fun _ => by omega⟩
  · rw [exactly j (by omega)]
    constructor
    · intro all k later before
      by_cases first : k = n
      · rw [first]; exact good
      · exact all k (by omega) before
    · exact fun all k later before => all k (by omega) before

/-- The messages announce the block and complete it. -/
def Solvable (Hears Fills : Nat → List Bytes → Prop) (items : List Item) (n : Nat) : Prop :=
  Hears n (payloads .Announce n items) ∧ Fills n (payloads .Data n items)

section
variable {σ K : Type}

/-- `Hears` says which announcements one is accepted of, `Fills` which data messages complete a
    block that was announced. -/
structure Measured (P : Protocol σ) (Idle Ready Full : Nat → σ → Prop) (Hears Fills : Nat → List Bytes → Prop) : Prop where
  announced : ∀ n (progress next : Progress σ) datas found, Idle n progress.protocol →
    feed_until P .Announce n (fun _ => true) progress datas = .ok (found,next) →
    (found = true ↔ Hears n datas) ∧ (found = true → Ready n next.protocol)
  filled : ∀ n (progress next : Progress σ) datas found, Ready n progress.protocol →
    feed_until P .Data n P.is_complete progress datas = .ok (found,next) →
    (found = true ↔ Fills n datas) ∧ (found = true → Full n next.protocol)
  advanced : ∀ n s block t, Full n s → P.decode s = .ok (block,t) → Idle (n + 1) (P.reset t)
  hears_more : ∀ n datas more, Hears n datas → Hears n (datas ++ more)
  fills_more : ∀ n datas more, Fills n datas → Fills n (datas ++ more)

variable {P : Protocol σ} {Idle Ready Full : Nat → σ → Prop} {Hears Fills : Nat → List Bytes → Prop}

/-- More messages are enough for no less. -/
theorem Measured.more (measured : Measured P Idle Ready Full Hears Fills) {items : List Item} {n : Nat}
    (solvable : Solvable Hears Fills items n) (later : List Item) : Solvable Hears Fills (items ++ later) n := by
  obtain ⟨heard,filled⟩ := solvable
  constructor
  · rw [payloads_append]
    exact measured.hears_more n _ _ heard
  · rw [payloads_append]
    exact measured.fills_more n _ _ filled

theorem feed_until_count {channel : Channel} {n : Nat} {done : σ → Bool} {progress next : Progress σ} {datas : List Bytes}
    {found : Bool} (ran : feed_until P channel n done progress datas = .ok (found,next)) :
    next.decoded_count = progress.decoded_count := by
  obtain ⟨_,_,_,_,_,rfl⟩ := feed_until_ok ran
  rfl

/-- From block `n` on every block is decoded up to the first one that cannot be. -/
theorem Measured.handle (measured : Measured P Idle Ready Full Hears Fills) {items : List Item} {fuel n : Nat}
    {start final : Progress σ} (idle : Idle n start.protocol) (count : start.decoded_count = n)
    (enough : from_block n items < fuel) (ran : handle P items fuel n start = .ok final) :
    Reaches (Solvable Hears Fills items) n final.decoded_count := by
  induction fuel generalizing n start with
  | zero => omega
  | succ fuel ih =>
    simp only [InOrder.handle,handle_block,bind_ok] at ran
    obtain ⟨⟨found,announced⟩,fed,ran⟩ := ran
    obtain ⟨heard,ready⟩ := measured.announced n start announced _ found idle fed
    have counted := feed_until_count fed
    cases found with
    | false =>
      obtain rfl := Except.ok.inj ran
      rw [counted,count]
      exact .stop fun solvable => Bool.false_ne_true (heard.mpr solvable.1)
    | true =>
      simp only [if_true,decode_block,bind_ok] at ran
      obtain ⟨⟨found,taken⟩,fed',ran⟩ := ran
      have begun : Ready n ({ announced with state := .Decoding n } : Progress σ).protocol := ready rfl
      obtain ⟨filled,full⟩ := measured.filled n _ taken _ found begun fed'
      have still : taken.decoded_count = n := (feed_until_count fed').trans (counted.trans count)
      cases found with
      | false =>
        obtain rfl := Except.ok.inj ran
        rw [still]
        exact .stop fun solvable => Bool.false_ne_true (filled.mpr solvable.2)
      | true =>
        simp only [if_true,bind_ok,advance] at ran
        obtain ⟨next,⟨⟨block,t⟩,decoded,advanced⟩,ran⟩ := ran
        simp only at advanced
        split at advanced
        · cases advanced
        obtain rfl := Except.ok.inj advanced
        have some_announcement : payloads .Announce n items ≠ [] := by
          intro empty
          rw [empty] at fed
          cases fed
        have less := from_block_next some_announcement
        have later := ih (measured.advanced n _ block t (full rfl) decoded) (by rw [still]) (by omega) ran
        exact later.step ⟨heard.mp rfl,filled.mp rfl⟩

variable [DecidableEq K] [SliceRandom]

/-- A message as `run_receiver` cuts it. -/
def cut : K × Channel × Bytes → Option (Option K × Item)
  | (sender,channel,msg) => if msg.length < 8 then none else some (some sender,channel,of_be (msg.take 8),msg.drop 8)

/-- The messages of all blocks in some arrived bytes. -/
def arrived (messages : List (K × Channel × Bytes)) : List Item := (messages.filterMap cut).map Prod.snd

theorem arrived_append (messages messages' : List (K × Channel × Bytes)) :
    arrived (messages ++ messages') = arrived messages ++ arrived messages' := by
  rw [arrived,List.filterMap_append,List.map_append]
  rfl

/-- A receiver that has stopped handles no more messages. -/
theorem receive_all_stopped {num_blocks : Nat} {self : Receiver σ K}
    (stopped : self.panicked.isSome ∨ num_blocks ≤ self.decoded_count) (messages : List (K × Channel × Bytes)) :
    receive_all P num_blocks self messages = self := by
  induction messages with
  | nil => rfl
  | cons message messages ih =>
    obtain ⟨sender,channel,msg⟩ := message
    have still : self.receive P num_blocks sender channel msg = self := by
      rw [Receiver.receive,if_pos stopped]
    show receive_all P num_blocks (self.receive P num_blocks sender channel msg) messages = self
    rw [still,ih]

/-- The receiver routes the messages one by one until it stops. -/
theorem receive_all_routes (num_blocks : Nat) (self : Receiver σ K) (messages : List (K × Channel × Bytes)) :
    ∃ handled rest, messages = handled ++ rest ∧
      receive_all P num_blocks self messages = route_all P self (handled.filterMap cut) ∧
      (rest = [] ∨ (receive_all P num_blocks self messages).panicked.isSome ∨
        num_blocks ≤ (receive_all P num_blocks self messages).decoded_count) := by
  induction messages generalizing self with
  | nil => exact ⟨[],[],rfl,rfl,.inl rfl⟩
  | cons message messages ih =>
    by_cases stopped : self.panicked.isSome ∨ num_blocks ≤ self.decoded_count
    · refine ⟨[],message :: messages,rfl,receive_all_stopped stopped _,.inr ?_⟩
      rw [receive_all_stopped stopped]
      exact stopped
    · obtain ⟨sender,channel,msg⟩ := message
      obtain ⟨handled,rest,split,routed,ended⟩ := ih (self.receive P num_blocks sender channel msg)
      have ran : receive_all P num_blocks self ((sender,channel,msg) :: messages) =
          receive_all P num_blocks (self.receive P num_blocks sender channel msg) messages := rfl
      refine ⟨(sender,channel,msg) :: handled,rest,by rw [split]; rfl,?_,by rw [ran]; exact ended⟩
      rw [ran,routed,Receiver.receive,if_neg stopped]
      by_cases short : msg.length < 8
      · rw [if_pos short,List.filterMap_cons_none (by rw [cut,if_pos short])]
      · rw [if_neg short,List.filterMap_cons_some (by rw [cut,if_neg short])]
        have alive : ¬self.panicked.isSome := fun dead => stopped (.inl dead)
        simp only [route_all,List.foldl_cons,alive,Bool.false_eq_true,if_false]

/-- What is routed to a fresh receiver takes it as far as the blocks can be decoded. -/
theorem Measured.route_all (measured : Measured P Idle Ready Full Hears Fills) {protocol : σ} (idle : Idle 0 protocol)
    (peers : List K) (mesh_degree : Nat) (rng : Rng) {arrivals : List (Option K × Item)}
    (alive : (route_all P (Receiver.new (NodeActor.new protocol peers mesh_degree rng)) arrivals).panicked = none) :
    Reaches (Solvable Hears Fills (arrivals.map Prod.snd)) 0
      (route_all P (Receiver.new (NodeActor.new protocol peers mesh_degree rng)) arrivals).decoded_count := by
  have arranged : Arranged (Receiver.new (NodeActor.new protocol peers mesh_degree rng) : Receiver σ K) [] :=
    ⟨by simp,by simp [Receiver.new,NodeActor.new],.nil,fun _ _ => .inl rfl⟩
  have goes := route_all_goes (P := P) rfl arranged arrivals
  rw [Goes,alive] at goes
  have held := resume_held (P := P) goes.1
  have ran := goes.2 []
  simp only [List.append_nil] at ran
  have whole : reference P protocol (arrivals.map Prod.snd) = .ok (progress
      (Reordering.route_all P (Receiver.new (NodeActor.new protocol peers mesh_degree rng)) arrivals)) := ran.trans held
  have bounded : from_block 0 (arrivals.map Prod.snd) ≤ (arrivals.map Prod.snd).length := List.countP_le_length
  have started : Idle 0 (⟨.Init 0,protocol,0,[],[]⟩ : Progress σ).protocol := idle
  exact measured.handle started rfl (by omega) whole

/-- A receiver has decoded as many blocks as its messages are enough for, up to its number of blocks. -/
theorem Measured.receive_all (measured : Measured P Idle Ready Full Hears Fills) {protocol : σ} (idle : Idle 0 protocol)
    (peers : List K) (mesh_degree : Nat) (rng : Rng) {num_blocks : Nat} {messages : List (K × Channel × Bytes)}
    (alive : (receive_all P num_blocks (Receiver.new (NodeActor.new protocol peers mesh_degree rng)) messages).panicked = none)
    {j : Nat} (inside : j ≤ num_blocks) :
    j ≤ (receive_all P num_blocks (Receiver.new (NodeActor.new protocol peers mesh_degree rng)) messages).decoded_count ↔
      ∀ n < j, Solvable Hears Fills (arrived messages) n := by
  obtain ⟨handled,rest,split,routed,ended⟩ :=
    receive_all_routes (P := P) num_blocks (Receiver.new (NodeActor.new protocol peers mesh_degree rng)) messages
  rw [routed] at alive ended ⊢
  obtain ⟨_,exactly⟩ := measured.route_all idle peers mesh_degree rng alive
  have reached := exactly j (Nat.zero_le j)
  constructor
  · intro enough n before
    rw [split,arrived_append]
    exact measured.more (reached.mp enough n (Nat.zero_le n) before) _
  · intro all
    rcases ended with rfl | dead | full
    · rw [split,List.append_nil] at all
      exact reached.mpr fun n _ before => all n before
    · rw [alive] at dead
      cases dead
    · omega

end

section
variable {F : Type} [Field F] [DecidableEq F] {N : Nat} {Context Proof Error : Type} [FixedCodec F] [IntegrityProof Proof]
  [Random F] [PackableField F] [FixedCodec UInt64] [BytesCodec] {σ : Type}
  (S : IntegrityScheme F N Context Proof Error) (derive : Nat → Context) (m : Nat)

/-! ### Coded protocols -/

/-- The span of the coefficients of the verified packets in some payloads. -/
def delivered_span (n : Nat) (datas : List Bytes) : Submodule F (Fin N → F) :=
  Submodule.span F {x | ∃ data ∈ datas, ∃ p : SignedPacket F N Proof, SignedPacket.deserialize data m = .ok (.ok p) ∧
    Verifies S (derive n) p ∧ p.chunk.coefficients = x}

/-- A protocol that takes the packets of block `n`, those that it took span `V`. -/
structure Taking (view : σ → CodedState F N Context Proof) (n : Nat) (V : Submodule F (Fin N → F)) (s : σ) : Prop where
  fixed : CodedRuns.Fixed view derive m s
  ctx : (view s).ctx = some (derive n)
  spans : Spans S (derive n) m V (view s).decoder (view s).proofs

variable {S derive m}

@[simp] theorem delivered_span_nil (n : Nat) : delivered_span S derive m n [] = ⊥ := by simp [delivered_span]

theorem delivered_span_append (n : Nat) (datas datas' : List Bytes) :
    delivered_span S derive m n (datas ++ datas') = delivered_span S derive m n datas ⊔ delivered_span S derive m n datas' := by
  rw [delivered_span,delivered_span,delivered_span,← Submodule.span_union]
  congr 1
  ext x
  simp only [List.mem_append,or_and_right,exists_or,Set.mem_ofPred_eq,Set.mem_union]

theorem delivered_span_cons (n : Nat) (data : Bytes) (datas : List Bytes) :
    delivered_span S derive m n (data :: datas) = delivered_span S derive m n [data] ⊔ delivered_span S derive m n datas :=
  delivered_span_append n [data] datas

/-- A payload that is no verified packet spans nothing. -/
theorem delivered_span_none {n : Nat} {data : Bytes}
    (none : ∀ p : SignedPacket F N Proof, SignedPacket.deserialize data m = .ok (.ok p) → ¬Verifies S (derive n) p) :
    delivered_span S derive m n [data] = ⊥ := by
  rw [delivered_span,Submodule.span_eq_bot]
  rintro x ⟨_,member,p,read,verified,_⟩
  rw [List.mem_singleton.mp member] at read
  exact absurd verified (none p read)

/-- A verified packet spans its coefficients. -/
theorem delivered_span_packet {n : Nat} {data : Bytes} {p : SignedPacket F N Proof}
    (read : SignedPacket.deserialize data m = .ok (.ok p)) (verified : Verifies S (derive n) p) :
    delivered_span S derive m n [data] = Submodule.span F {p.chunk.coefficients} := by
  rw [delivered_span]
  congr 1
  ext x
  constructor
  · rintro ⟨_,member,q,read',_,rfl⟩
    rw [List.mem_singleton.mp member,read] at read'
    obtain rfl := Except.ok.inj (Except.ok.inj read')
    rfl
  · rintro rfl
    exact ⟨data,List.mem_singleton_self data,p,read,verified,rfl⟩

variable {P : Protocol σ} {view : σ → CodedState F N Context Proof} {V : Submodule F (Fin N → F)} {n : Nat}

/-- A payload adds what it spans, and is accepted when that is something new. -/
theorem Taking.ingest (coded : Coded P S view) (positive : 0 < m) {s t : σ} (taking : Taking S derive m view n V s)
    {data : Bytes} {r : Except String Bool} (ran : P.ingest s .Data n data = .ok (t,r)) :
    Taking S derive m view n (V ⊔ delivered_span S derive m n [data]) t ∧
      (accepted r = true ↔ V ⊔ delivered_span S derive m n [data] ≠ V) := by
  have seen := coded.data s n data
  rw [ran] at seen
  obtain ⟨⟨width,derives⟩,known,spans⟩ := taking
  obtain ⟨read,runs,wide⟩ : ∃ r, (SignedPacket.deserialize data m : Rust (Except String (SignedPacket F N Proof))) = .ok r ∧
      ∀ packet, r = .ok packet → packet.chunk.w.v.length = m := SignedPacket.deserialize_runs data positive
  simp only [CodedState.receive,known,width,runs,ok_bind,Except.map] at seen
  cases read with
  | error e =>
    obtain ⟨next,rfl⟩ := Prod.mk.inj (Except.ok.inj seen)
    have nothing : delivered_span S derive m n [data] = ⊥ := delivered_span_none fun p read => by
      cases Except.ok.inj (runs.symm.trans read)
    rw [nothing,sup_bot_eq]
    exact ⟨⟨by rw [CodedRuns.Fixed,next]; exact ⟨width,derives⟩,by rw [next]; exact known,by rw [next]; exact spans⟩,
      by simp [accepted]⟩
  | ok packet =>
    have taken := seen.symm
    rw [bind_ok] at taken
    obtain ⟨⟨⟨decoder,proofs⟩,result⟩,received,taken⟩ := taken
    obtain ⟨next,rfl⟩ := ok_pair taken
    have same : ∀ {W : Submodule F (Fin N → F)}, Spans S (derive n) m W decoder proofs → Taking S derive m view n W t := by
      intro W spans'
      refine ⟨?_,?_,?_⟩
      · rw [CodedRuns.Fixed,← next]; exact ⟨rfl,derives⟩
      · rw [← next]
      · rw [← next]; exact spans'
    rcases spans.receive (wide packet rfl) (coded_receive_verified received) with
      ⟨refused,e,ran'⟩ | ⟨verified,decoder',proofs',useful,ran',outside,_,spans'⟩
    · rw [ran'] at received
      obtain ⟨pair,rfl⟩ := ok_pair received
      obtain ⟨rfl,rfl⟩ := Prod.mk.inj pair
      have nothing : delivered_span S derive m n [data] = ⊥ := delivered_span_none fun p read => by
        obtain rfl := Except.ok.inj (Except.ok.inj (runs.symm.trans read))
        exact refused
      rw [nothing,sup_bot_eq]
      exact ⟨same spans,by simp [accepted]⟩
    · rw [ran'] at received
      obtain ⟨pair,rfl⟩ := ok_pair received
      obtain ⟨rfl,rfl⟩ := Prod.mk.inj pair
      rw [delivered_span_packet runs verified]
      refine ⟨same spans',?_⟩
      rw [accepted_iff,Except.ok.injEq,outside,ne_eq,sup_eq_left,Submodule.span_singleton_le_iff_mem]

/-- Announcements are handed over until one has the length of the block. -/
theorem feed_announcements (coded : Coded P S view) {progress next : Progress σ} (idle : Idle view derive m n progress.protocol)
    {datas : List Bytes} {found : Bool}
    (ran : feed_until P .Announce n (fun _ => true) progress datas = .ok (found,next)) :
    (found = true ↔ ∃ data ∈ datas, 8 ≤ data.length) ∧ (found = true → Taking S derive m view n ⊥ next.protocol) := by
  induction datas generalizing progress with
  | nil =>
    obtain ⟨rfl,rfl⟩ := ok_pair ran
    simp
  | cons data datas ih =>
    rw [feed_until_cons,bind_ok] at ran
    obtain ⟨⟨t,r⟩,handed,ran⟩ := ran
    have seen := coded.announce progress.protocol n data
    rw [handed] at seen
    have same := Except.ok.inj seen
    unfold CodedState.announce at same
    by_cases short : data.length < 8
    · rw [if_pos short] at same
      obtain ⟨kept,refused⟩ := Prod.mk.inj same
      simp only at kept refused
      have waits : Idle view derive m n t := by
        refine ⟨?_,?_,?_⟩
        · rw [CodedRuns.Fixed,kept]; exact idle.fixed
        · rw [kept]; exact idle.decoder
        · rw [kept]; exact idle.proofs
      simp only [refused,accepted,Bool.false_and,Bool.false_eq_true,if_false] at ran
      obtain ⟨exactly,rest⟩ := ih waits ran
      refine ⟨exactly.trans ?_,rest⟩
      simp [Nat.not_le.mpr short]
    · rw [if_neg short] at same
      obtain ⟨kept,taken⟩ := Prod.mk.inj same
      simp only at kept taken
      simp only [taken,accepted,Bool.true_and,if_true] at ran
      obtain ⟨rfl,rfl⟩ := ok_pair ran
      refine ⟨?_,fun _ => ⟨?_,?_,?_⟩⟩
      · simp [Nat.not_lt.mp short]
      · show CodedRuns.Fixed view derive m t
        rw [CodedRuns.Fixed,kept]
        exact idle.fixed
      · show (view t).ctx = some (derive n)
        rw [kept,← idle.fixed.2]
      · show Spans S (derive n) m ⊥ (view t).decoder (view t).proofs
        rw [kept]
        simp only [idle.decoder,idle.proofs]
        exact Spans.new

/-- Packets are handed over until everything is spanned. -/
theorem feed_packets (coded : Coded P S view) (positive : 0 < m) {progress next : Progress σ}
    (taking : Taking S derive m view n V progress.protocol) (incomplete : V ≠ ⊤) {datas : List Bytes} {found : Bool}
    (ran : feed_until P .Data n P.is_complete progress datas = .ok (found,next)) :
    (found = true ↔ V ⊔ delivered_span S derive m n datas = ⊤) ∧ (found = true → Taking S derive m view n ⊤ next.protocol) := by
  induction datas generalizing progress V with
  | nil =>
    obtain ⟨rfl,rfl⟩ := ok_pair ran
    simp [incomplete]
  | cons data datas ih =>
    rw [feed_until_cons,bind_ok] at ran
    obtain ⟨⟨t,r⟩,handed,ran⟩ := ran
    obtain ⟨taking',useful⟩ := taking.ingest coded positive handed
    rw [delivered_span_cons,← sup_assoc]
    have complete := taking'.spans.complete
    simp only [coded.is_complete,complete] at ran
    by_cases full : V ⊔ delivered_span S derive m n [data] = ⊤
    · have fresh : accepted r = true := useful.mpr (by rw [full]; exact incomplete.symm)
      simp only [fresh,full,decide_true,Bool.and_self,if_true] at ran
      obtain ⟨rfl,rfl⟩ := ok_pair ran
      rw [full] at taking'
      exact ⟨by simp [full],fun _ => taking'⟩
    · simp only [full,decide_false,Bool.and_false,Bool.false_eq_true,if_false] at ran
      have going : Taking S derive m view n (V ⊔ delivered_span S derive m n [data])
          (progress.hear .Data n data t).protocol := taking'
      exact ih going full ran

/-- A coded protocol is measured by the span of the verified packets. -/
theorem coded_measured (coded : Coded P S view) (positive : 0 < m) (some_chunk : 0 < N) :
    Measured P (Idle view derive m) (fun n => Taking S derive m view n ⊥) (fun n => Taking S derive m view n ⊤)
      (fun _ datas => ∃ data ∈ datas, 8 ≤ data.length) (fun n datas => delivered_span S derive m n datas = ⊤) where
  announced n progress next datas found idle ran := feed_announcements coded idle ran
  filled n progress next datas found taking ran := by
    have : Nonempty (Fin N) := ⟨⟨0,some_chunk⟩⟩
    have proper : (⊥ : Submodule F (Fin N → F)) ≠ ⊤ := bot_ne_top
    have fed := feed_packets coded positive taking proper ran
    rwa [bot_sup_eq] at fed
  advanced n s block t taking decoded := by
    obtain rfl := coded.decode_same decoded
    obtain ⟨packets,stored,_⟩ := taking.spans
    obtain ⟨derives,width⟩ := coded.reset_fixed t
    obtain ⟨decoder,proofs,_⟩ := coded.reset_block t
    exact ⟨⟨width.trans taking.fixed.1,derives.trans taking.fixed.2⟩,decoder.trans (BlockDecoder.sound_reset stored.sound),proofs⟩
  hears_more n datas more heard := by
    obtain ⟨data,member,long⟩ := heard
    exact ⟨data,List.mem_append_left _ member,long⟩
  fills_more n datas more full := by rw [delivered_span_append,full,top_sup_eq]

end

/-! ### The three protocols -/

section
variable [FixedCodec UInt64] [BytesCodec]

/-- The full-block protocol takes any announcement that has the length, and the first block that can be decoded. -/
theorem baseline_measured : Measured BaselineProtocol.protocol (fun _ s => s.block = none) (fun _ s => s.block = none)
    (fun _ s => s.block.isSome) (fun _ datas => ∃ data ∈ datas, 8 ≤ data.length)
    (fun _ datas => ∃ data ∈ datas, ∃ block, Block.decode data = .ok block) where
  announced n progress next datas found idle ran := by
    induction datas generalizing progress with
    | nil =>
      obtain ⟨rfl,rfl⟩ := ok_pair ran
      simp
    | cons data datas ih =>
      simp only [feed_until_cons,BaselineProtocol.protocol,BaselineProtocol.ingest] at ran
      by_cases short : data.length < 8
      · rw [if_pos short] at ran
        obtain ⟨exactly,ready⟩ := ih (progress.hear .Announce n data progress.protocol) idle ran
        exact ⟨exactly.trans (by simp [Nat.not_le.mpr short]),ready⟩
      · rw [if_neg short] at ran
        obtain ⟨rfl,rfl⟩ := ok_pair ran
        exact ⟨by simp [Nat.not_lt.mp short],fun _ => idle⟩
  filled n progress next datas found empty ran := by
    induction datas generalizing progress with
    | nil =>
      obtain ⟨rfl,rfl⟩ := ok_pair ran
      simp
    | cons data datas ih =>
      have none_held : ¬progress.protocol.block.isSome := by simp [empty]
      simp only [feed_until_cons,BaselineProtocol.protocol,BaselineProtocol.ingest,if_neg none_held] at ran
      cases read : Block.decode data with
      | error e =>
        simp only [read] at ran
        obtain ⟨exactly,full⟩ := ih (progress.hear .Data n data progress.protocol) empty ran
        exact ⟨exactly.trans (by simp [read]),full⟩
      | ok block =>
        simp only [read] at ran
        obtain ⟨rfl,rfl⟩ := ok_pair ran
        exact ⟨by simp [read],fun _ => rfl⟩
  advanced _ _ _ _ _ _ := rfl
  hears_more n datas more heard := by
    obtain ⟨data,member,long⟩ := heard
    exact ⟨data,List.mem_append_left _ member,long⟩
  fills_more n datas more filled := by
    obtain ⟨data,member,decodes⟩ := filled
    exact ⟨data,List.mem_append_left _ member,decodes⟩

end

/-- In every run in which a receiver does not panic, whatever arrives from whomever, it has decoded
    exactly the blocks up to the first one that was not announced with its length or not filled. -/
def ProgressExactly [SliceRandom] {σ : Type} (P : Protocol σ) (Fresh : σ → Prop) (Fills : Nat → List Bytes → Prop) : Prop :=
  ∀ (K : Type) [DecidableEq K] (protocol : σ) (peers : List K) (mesh_degree : Nat) (rng : Rng) (num_blocks : Nat)
    (messages : List (K × Channel × Bytes)), Fresh protocol →
    let node := receive_all P num_blocks (Receiver.new (NodeActor.new protocol peers mesh_degree rng)) messages
    node.panicked = none → ∀ j ≤ num_blocks, (j ≤ node.decoded_count ↔
      ∀ n < j, Solvable (fun _ datas => ∃ data ∈ datas, 8 ≤ data.length) Fills (arrived messages) n)

/-- Receivers with the coded protocols get as far as the verified packets span everything, those with
    full blocks as far as some message is a block. -/
theorem exact_progress (F G S PublicKey Signature G1 G2 : Type) (N : Nat) [Field F] [DecidableEq F] [FixedCodec F]
    [Random F] [PackableField F] [FixedCodec UInt32] [FixedCodec UInt64] [BytesCodec] [SliceRandom] [AddCommGroup G]
    [DecidableEq G] [Module F G] [Space F G] [HashToGroup G] [FixedCodec G] [Verifier PublicKey Signature]
    [Signer S PublicKey Signature] [FixedCodec Signature] [AddCommGroup G1] [Module F G1] [AddCommGroup G2] [Module F G2]
    [Space F G2] [HashToGroup G2] [PairingGroup G1 G2] [FixedCodec G2] (m : Nat) (positive : 0 < m) (some_chunk : 0 < N)
    (proposer_pk : PublicKey) (bfkw_pk : G1) :
    ProgressExactly (PedersenProtocol.protocol F G S PublicKey Signature N)
      (fun s => ∃ signer, s = PedersenProtocol.new m proposer_pk signer)
      (fun n datas =>
        delivered_span (PedersenScheme F G PublicKey Signature N) (canonical_context m proposer_pk) m n datas = ⊤) ∧
    ProgressExactly (BfkwProtocol.protocol F G1 G2 N) (fun s => ∃ signer, s = BfkwProtocol.new m bfkw_pk signer)
      (fun n datas => delivered_span (BfkwScheme F G1 G2 N) (number_context N m bfkw_pk) m n datas = ⊤) ∧
    ProgressExactly BaselineProtocol.protocol (fun s => s = BaselineProtocol.new)
      (fun _ datas => ∃ data ∈ datas, ∃ block, Block.decode data = .ok block) := by
  refine ⟨?_,?_,?_⟩
  · rintro K _ _ peers mesh_degree rng num_blocks messages ⟨signer,rfl⟩ node alive j inside
    exact (coded_measured PedersenProtocol.coded positive some_chunk).receive_all ⟨⟨rfl,rfl⟩,rfl,rfl⟩ peers mesh_degree rng
      alive inside
  · rintro K _ _ peers mesh_degree rng num_blocks messages ⟨signer,rfl⟩ node alive j inside
    exact (coded_measured BfkwProtocol.coded positive some_chunk).receive_all ⟨⟨rfl,rfl⟩,rfl,rfl⟩ peers mesh_degree rng
      alive inside
  · rintro K _ _ peers mesh_degree rng num_blocks messages rfl node alive j inside
    exact baseline_measured.receive_all rfl peers mesh_degree rng alive inside

section
open Rlnc.Scalars Rlnc.Reference

/-- What the proposer of a block in two chunks sends to two peers, with the packets first, up to the given number. -/
private def packets_first (count : Nat) : List (Nat × Channel × Bytes) :=
  (propose_block (BfkwProtocol.protocol Scalar Scalar Scalar 2) 0
    (NodeActor.new (BfkwProtocol.new 2 (scalar 3) (some ⟨scalar 3,scalar 3⟩)) [1,2] 2 powers) 0).toOption.elim [] fun made =>
      (made.2.packets.take count).map (fun entry => (0,.Data,entry.2)) ++ [(0,.Announce,made.2.ann_msg)]

/-- So many packets are enough for the first `j` blocks. -/
private def packets_fill (count j : Nat) : Prop :=
  ∀ n < j, Solvable (fun _ datas => ∃ data ∈ datas, 8 ≤ data.length)
    (fun n datas => delivered_span (BfkwScheme Scalar Scalar Scalar 2) (number_context 2 2 (scalar 3)) 2 n datas = ⊤)
    (arrived (packets_first count)) n

/-- One packet is not enough for the first block; two are, and not for the next one. -/
theorem exact_progress_two : ¬packets_fill 1 1 ∧ packets_fill 2 1 ∧ ¬packets_fill 2 2 := by
  have seen : ∀ count ≤ 2, (fun node : Receiver (BfkwProtocol Scalar Scalar Scalar 2) Nat =>
      (node.panicked.isNone,node.decoded_count)) (Runs.receive_all (BfkwProtocol.protocol Scalar Scalar Scalar 2) 2
        (Receiver.new (NodeActor.new (BfkwProtocol.new 2 (scalar 3) none) [0] 1 powers)) (packets_first count)) =
      (true,count / 2) := by
    decide +kernel
  have exactly : ∀ count ≤ 2, ∀ j ≤ 2, j ≤ count / 2 ↔ packets_fill count j := by
    intro count few j inside
    obtain ⟨alive,decoded⟩ := Prod.mk.inj (seen count few)
    have reached := (exact_progress Scalar Scalar Bytes Bytes UInt64 Scalar Scalar 2 2 (by decide) (by decide) [7] (scalar 3)).2.1
      Nat _ [0] 1 powers 2 (packets_first count) ⟨none,rfl⟩ (Option.isNone_iff_eq_none.mp alive) j inside
    rwa [decoded] at reached
  rw [← exactly 1 (by decide) 1 (by decide),← exactly 2 le_rfl 1 (by decide),← exactly 2 le_rfl 2 le_rfl]
  decide

end

end Rlnc.Completion
