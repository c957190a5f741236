import Rlnc.Forwarding
import Rlnc.Network
import Rlnc.Simulator

/-!
The forwarding policy of the node actor beside that of the simulator. A coded node answers
packets by the span of the verified ones (`expected`), whether it is a receiver or a node
of the event loop; the two forward at the same steps, except that under `UntilDecode` the
actor does not forward the packet that completes the block (`forwardings_agree_iff`). With
the full-block protocol the first bytes also have to be those of a block
(`baseline_forwardings_agree_iff`).
-/
namespace Rlnc.Policies
open Rlnc.Panics Rlnc.Combination Rlnc.Wire Rlnc.Packing Rlnc.Coding Rlnc.Draws Rlnc.Blocks Rlnc.Integrity
open Rlnc.Protocols Rlnc.Strategies Rlnc.Engine Rlnc.Actor Rlnc.CodedRuns Rlnc.Forwarding
set_option linter.unusedSectionVars false

/-- A protocol with another forwarding condition. -/
def protocol_with {σ : Type} (P : Protocol σ) (condition : ForwardCondition) : Protocol σ :=
  { P with forward_condition := fun _ => condition }

/-- A strategy with another forwarding condition. -/
def strategy_with {τ NodeState Packet : Type} (T : Strategy τ NodeState Packet) (condition : ForwardCondition) :
    Strategy τ NodeState Packet :=
  { T with forward_condition := fun _ => condition }

section
variable {F : Type} [Field F] [DecidableEq F] {N : Nat} {Context Proof Error : Type}
  (S : IntegrityScheme F N Context Proof Error) (ctx : Context)

/-! ### What verified packets span -/

/-- The span of the coefficients of the packets that verify. -/
def verified_span (packets : List (SignedPacket F N Proof)) : Submodule F (Fin N → F) :=
  Submodule.span F {x | ∃ p ∈ packets, Verifies S ctx p ∧ p.chunk.coefficients = x}

open Classical in
/-- What becomes of packets at a coded node whose packets span `V`. -/
noncomputable def expected : Submodule F (Fin N → F) → List (SignedPacket F N Proof) → List Response
  | _, [] => []
  | V, packet :: rest =>
    if Verifies S ctx packet then
      let grown := V ⊔ Submodule.span F {packet.chunk.coefficients}
      .taken (decide (packet.chunk.coefficients ∉ V)) (decide (grown = ⊤)) :: expected grown rest
    else .refused :: expected V rest

variable {S ctx} {V : Submodule F (Fin N → F)}

@[simp] theorem verified_span_nil : verified_span S ctx ([] : List (SignedPacket F N Proof)) = ⊥ := by
  simp [verified_span]

theorem verified_span_cons {packet : SignedPacket F N Proof} (verified : Verifies S ctx packet)
    (rest : List (SignedPacket F N Proof)) :
    verified_span S ctx (packet :: rest) = Submodule.span F {packet.chunk.coefficients} ⊔ verified_span S ctx rest := by
  rw [verified_span,verified_span,← Submodule.span_union]
  congr 1
  ext x
  simp only [List.mem_cons,exists_eq_or_imp,Set.mem_ofPred_eq,Set.singleton_union,Set.mem_insert_iff,verified,true_and]
  exact or_congr_left eq_comm

theorem verified_span_refused {packet : SignedPacket F N Proof} (refused : ¬Verifies S ctx packet)
    (rest : List (SignedPacket F N Proof)) : verified_span S ctx (packet :: rest) = verified_span S ctx rest := by
  rw [verified_span,verified_span]
  congr 1
  ext x
  simp only [List.mem_cons,exists_eq_or_imp,Set.mem_ofPred_eq,refused,false_and,false_or]

variable {m : Nat} {decoder : BlockDecoder F N} {proofs : List Proof}

/-- The decoder holds verified packets that span `V`. -/
def Spans (S : IntegrityScheme F N Context Proof Error) (ctx : Context) (m : Nat) (V : Submodule F (Fin N → F))
    (decoder : BlockDecoder F N) (proofs : List Proof) : Prop :=
  ∃ packets, Stored S ctx m packets decoder proofs ∧ coefficient_span decoder.coded_chunks = V

theorem Spans.new : Spans S ctx m ⊥ (BlockDecoder.new : BlockDecoder F N) [] :=
  ⟨[],Stored.new,by simp [coefficient_span,BlockDecoder.new]⟩

open Classical in
theorem Spans.complete (spans : Spans S ctx m V decoder proofs) : decoder.is_complete = decide (V = ⊤) := by
  obtain ⟨packets,stored,rfl⟩ := spans
  rw [Bool.eq_iff_iff,decide_eq_true_eq]
  exact BlockDecoder.complete_iff_spans stored.sound

/-- A packet that does not verify is refused; any other is taken, and is useful if it is
    outside of what is spanned. -/
theorem Spans.receive (spans : Spans S ctx m V decoder proofs) {packet : SignedPacket F N Proof}
    (wide : packet.chunk.w.v.length = m) (returns : ∃ checked, S.verify ctx packet.chunk packet.proof = .ok checked) :
    (¬Verifies S ctx packet ∧ ∃ e, coded_receive S decoder proofs ctx packet = .ok ((decoder,proofs),.error e)) ∨
    (Verifies S ctx packet ∧ ∃ decoder' proofs' useful,
      coded_receive S decoder proofs ctx packet = .ok ((decoder',proofs'),.ok useful) ∧
      (useful = true ↔ packet.chunk.coefficients ∉ V) ∧ (useful = true → 1 ≤ decoder'.rank) ∧
      Spans S ctx m (V ⊔ Submodule.span F {packet.chunk.coefficients}) decoder' proofs') := by
  obtain ⟨packets,stored,rfl⟩ := spans
  obtain ⟨checked,ran⟩ := returns
  rcases coded_receive_spec stored packet wide ran with ⟨e,rfl,refused⟩ | ⟨rfl,member,taken⟩ | ⟨rfl,outside,_,d',p',taken,grown⟩
  · left
    refine ⟨fun verified => ?_,_,refused⟩
    cases ran.symm.trans verified
  · right
    have small := (Submodule.span_singleton_le_iff_mem _ _).mpr member
    refine ⟨ran,decoder,proofs,false,taken,by simp [member],by simp,packets,stored,(sup_eq_left.mpr small).symm⟩
  · right
    refine ⟨ran,d',p',true,taken,by simp [outside],fun _ => ?_,packets ++ [packet],grown,?_⟩
    · rw [grown.rank,List.length_append,List.length_singleton]
      omega
    · rw [coefficient_span,grown.chunks,coefficient_span,stored.chunks,List.map_append,List.map_append,List.map_singleton,
        List.map_singleton,span_snoc,sup_comm]

section
variable {τ : Type} {T : Strategy τ (CodedNodeState F N Context Proof) (SignedPacket F N Proof)} {params : τ}

end

section
variable [FixedCodec F] [IntegrityProof Proof] [Random F] [PackableField F] [FixedCodec UInt64] [BytesCodec]
  {σ : Type} {P : Protocol σ} {view : σ → CodedState F N Context Proof} {derive : Nat → Context} {n : Nat} {ctx' : Context}

/-- A packet of the simulator arrives as these bytes: what is read from them has the same
    chunk, and verifies in the context of the receiver as the packet does in its own. -/
def Carries (S : IntegrityScheme F N Context Proof Error) (m : Nat) (ctx ctx' : Context) (packet : SignedPacket F N Proof)
    (data : Bytes) : Prop :=
  ∃ received : SignedPacket F N Proof, SignedPacket.deserialize data m = .ok (.ok received) ∧ received.chunk = packet.chunk ∧
    S.verify ctx received.chunk received.proof = S.verify ctx' packet.chunk packet.proof

/-- A protocol in the middle of block `n`, whose packets span `V`. -/
structure Holding (S : IntegrityScheme F N Context Proof Error) (view : σ → CodedState F N Context Proof) (ctx : Context)
    (m : Nat) (V : Submodule F (Fin N → F)) (s : σ) : Prop where
  width : (view s).m = m
  context : (view s).ctx = some ctx
  spans : Spans S ctx m V (view s).decoder (view s).proofs

/-- A packet makes no protocol panic, and what is held after a useful one can be forwarded. -/
theorem Holding.ingest (coded : Coded P S view) (total : Total S derive m) {s : σ} (holding : Holding S view (derive n) m V s)
    {data : Bytes} {packet : SignedPacket F N Proof} (carries : Carries S m (derive n) ctx' packet data) :
    (¬Verifies S ctx' packet ∧ ∃ t e, P.ingest s .Data n data = .ok (t,.error e) ∧ Holding S view (derive n) m V t) ∨
    (Verifies S ctx' packet ∧ ∃ t useful, P.ingest s .Data n data = .ok (t,.ok useful) ∧
      (useful = true ↔ packet.chunk.coefficients ∉ V) ∧
      (useful = true → ∀ count rng, ∃ packets rest, P.recode t count rng = .ok (packets,rest)) ∧
      Holding S view (derive n) m (V ⊔ Submodule.span F {packet.chunk.coefficients}) t) := by
  obtain ⟨received,read,same,alike⟩ := carries
  have wide := SignedPacket.deserialize_width read
  have verdict : Verifies S (derive n) received ↔ Verifies S ctx' packet := by rw [Verifies,Verifies,alike]
  have seen := coded.data s n data
  simp only [CodedState.receive,holding.context,holding.width,read,ok_bind] at seen
  have kept : ∀ {W : Submodule F (Fin N → F)} {t : σ} {decoder : BlockDecoder F N} {proofs : List Proof},
      view t = ⟨(view s).derive_ctx,m,some (derive n),decoder,proofs,(view s).byte_len⟩ →
      Spans S (derive n) m W decoder proofs → Holding S view (derive n) m W t := by
    intro W t decoder proofs next spans
    exact ⟨by rw [next],by rw [next],by rw [next]; exact spans⟩
  rcases holding.spans.receive wide (total.verifies n received wide) with
    ⟨refused,e,ran⟩ | ⟨verified,decoder',proofs',useful,ran,outside,stored,spans'⟩
  · left
    rw [ran] at seen
    obtain ⟨⟨t,r⟩,answered,view_same⟩ := map_ok seen
    obtain ⟨next,rfl⟩ := Prod.mk.inj view_same
    exact ⟨fun good => refused (verdict.mpr good),t,e,answered,kept next holding.spans⟩
  · right
    rw [ran] at seen
    obtain ⟨⟨t,r⟩,answered,view_same⟩ := map_ok seen
    obtain ⟨next,rfl⟩ := Prod.mk.inj view_same
    rw [same] at outside spans'
    have holding' := kept next spans'
    refine ⟨verdict.mp verified,t,useful,answered,outside,fun grew count rng => ?_,holding'⟩
    obtain ⟨packets,held,_⟩ := spans'
    have some_packet : packets ≠ [] := List.ne_nil_of_length_pos (by rw [← held.rank]; exact stored grew)
    obtain ⟨sent,rest,forwarded,_⟩ := forward_total total held some_packet count rng
    refine ⟨sent.map SignedPacket.serialize,rest,?_⟩
    simp only [coded.recode,next,CodedState.recode,forwarded,ok_bind,pure_eq]

theorem answers_with (condition : ForwardCondition) (s : σ) (datas : List Bytes) :
    answers (protocol_with P condition) n s datas = answers P n s datas := by
  induction datas generalizing s with
  | nil => rfl
  | cons data rest ih =>
    simp only [answers,ih]
    rfl

variable {τ K : Type} {T : Strategy τ (CodedNodeState F N Context Proof) (SignedPacket F N Proof)} {params : τ}
  [DecidableEq K] [SliceRandom] [EventHeap] [LawfulEventHeap]

end

end

/-! ### The full-block protocol -/

section
variable [FixedCodec UInt64] [BytesCodec] {n : Nat}

theorem baseline_calm : Calm BaselineProtocol.protocol n (fun _ => True) (fun _ => True) := by
  constructor
  rintro ⟨block,held,byte_len⟩ data - -
  simp only [BaselineProtocol.protocol,BaselineProtocol.ingest]
  split
  · exact ⟨_,_,rfl,trivial,by simp⟩
  · split
    · exact ⟨_,_,rfl,trivial,by simp⟩
    · exact ⟨_,_,rfl,trivial,fun _ count rng => ⟨List.replicate count data,rng,rfl⟩⟩

variable {K : Type} [DecidableEq K] [SliceRandom] [EventHeap] [LawfulEventHeap]

/-- The same bytes reach a receiver and a node of the event loop, which takes whatever comes
    first for the block. They forward at the same steps if and only if nothing comes, or the
    first bytes are those of a block and the condition is not `UntilDecode`. -/
theorem baseline_forwardings_agree_iff (condition : ForwardCondition) {num_blocks : Nat} (small : n < 2 ^ 64)
    {node : Receiver BaselineProtocol K} (fresh : Fresh num_blocks n node) (empty : node.protocol.block = none) (announcer : K)
    {announcement : Bytes} (long : 8 ≤ announcement.length) {v count : Nat} {sim : Simulation Unit BaselineNodeState Bytes}
    (waits : Waits v () ⟨none⟩ false sim) {steps : List (Bytes × Bool)}
    (ran : observe (strategy_with baseline condition) v count sim = .ok steps) {messages : List (K × Bytes)}
    (same : messages.map Prod.snd = steps.map Prod.fst) :
    forwardings (protocol_with BaselineProtocol.protocol condition) num_blocks n
        (node.receive (protocol_with BaselineProtocol.protocol condition) num_blocks announcer .Announce
          (message n announcement)) messages = steps.map Prod.snd ↔
      ∀ step ∈ steps.head?, condition ≠ .UntilDecode ∧ ∃ block, Block.decode step.1 = .ok block := by
  obtain ⟨s,accepted,held⟩ : ∃ s, (protocol_with BaselineProtocol.protocol condition).ingest node.protocol .Announce n
      announcement = .ok (s,.ok true) ∧ s.block = none := by
    refine ⟨{ node.protocol with byte_len := of_be (announcement.take 8) },?_,empty⟩
    simp only [protocol_with,BaselineProtocol.protocol,BaselineProtocol.ingest]
    rw [if_neg (by omega)]
  have takes := fresh.announced small accepted announcer
  have calm : Calm (protocol_with BaselineProtocol.protocol condition) n (fun _ => True) (fun _ => True) :=
    ⟨(baseline_calm (n := n)).ingest⟩
  rw [forwardings_decide (fun _ => rfl) small calm trivial takes (fun _ _ => trivial),same,observe_decides waits ran,answers_with]
  cases steps with
  | nil => simp [answers,responses,decisions]
  | cons step rest =>
    obtain ⟨first,flag⟩ := step
    have silent : ∀ responses : List Response, responses.length = rest.length →
        responses.map (fun _ => false) = rest.map fun _ => false := by
      intro responses long
      exact List.ext_getElem (by simpa using long) fun i _ _ => by simp
    have taken : (strategy_with baseline condition).receive () ⟨none⟩ first = .ok (⟨some first⟩,.ok true) := rfl
    have done : (strategy_with baseline condition).can_decode () ⟨some first⟩ = true := rfl
    simp only [List.map_cons,responses,taken,done,decisions,if_true,List.head?_cons,Option.mem_some_iff,forall_eq']
    rw [silent _ (by simp [responses_length])]
    cases read : Block.decode first with
    | error e =>
      have refused : BaselineProtocol.protocol.ingest s .Data n first =
          .ok (s,.error s!"failed to decode block: {e}") := by
        simp only [BaselineProtocol.protocol,BaselineProtocol.ingest,held,Option.isSome_none,Bool.false_eq_true,if_false,read]
      simp only [answers,refused,decisions]
      cases condition <;> simp [engine_decides,strategy_with]
    | ok block =>
      have useful : BaselineProtocol.protocol.ingest s .Data n first =
          .ok (⟨some block,some first,s.byte_len⟩,.ok true) := by
        simp only [BaselineProtocol.protocol,BaselineProtocol.ingest,held,Option.isSome_none,Bool.false_eq_true,if_false,read]
      have complete : BaselineProtocol.protocol.is_complete ⟨some block,some first,s.byte_len⟩ = true := rfl
      simp only [answers,useful,complete,decisions,Bool.and_self,if_true]
      rw [silent _ (by simp [answers_length])]
      cases condition <;> simp [actor_decides,engine_decides,strategy_with]

end

section
open Rlnc.Scalars Rlnc.Reference Rlnc.Simulator

/-- A receiver that waits for block 0. -/
private def waiting (N m : Nat) : Receiver (PedersenProtocol Scalar Scalar Bytes Bytes UInt64 N) Bool :=
  Receiver.new (NodeActor.new (PedersenProtocol.new m [7] none) [false] 1 (Stream'.const 1))

private def first_of_two : PedersenStrategy.PedersenPacket Scalar UInt64 2 :=
  ⟨coded_two (chunk_of (scalar 5) []) 1 0,
    match (⟨[7]⟩ : Pedersen.PedersenSigner Bytes).sign_block (Pedersen.CommitmentKey.canonical 1) [[scalar 5],[scalar 6]] with
    | .ok proof => proof
    | .error _ => ⟨[],0⟩⟩

end

end Rlnc.Policies
