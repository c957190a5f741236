import Rlnc.BfkwStrategy
import Rlnc.Operations
import Rlnc.Packets
import Rlnc.PedersenStrategy

/-!
The bytes that are accounted for a packet and the bytes that it takes. All packets
of a run have as many data scalars as the parameters say, whatever is sent and
received before (`occurs_sized`, `run_sized`). The formulas of the BFKW scheme give
the length of every packet; those of the Pedersen scheme leave out the count field
and never do (`accounted_iff_bfkw`).
-/
namespace Rlnc.Bandwidth
open Rlnc.Panics Rlnc.Wire Rlnc.Packing Rlnc.Coding Rlnc.Draws Rlnc.Blocks Rlnc.Groups Rlnc.Integrity Rlnc.Protocols
open Rlnc.Scalars Rlnc.Strategies Rlnc.Operations
set_option linter.unusedSectionVars false

section
variable {F : Type} [Field F] [DecidableEq F] {N m : Nat} {Context Proof Error : Type}
  {S : IntegrityScheme F N Context Proof Error} {ctx : Context} {decoder decoder' : BlockDecoder F N} {proofs : List Proof}

/-! ### Widths -/

/-- All stored chunks have `m` data scalars. -/
def Wide (m : Nat) (decoder : BlockDecoder F N) : Prop := ∀ c ∈ decoder.coded_chunks, c.w.v.length = m

theorem wide_new : Wide m (BlockDecoder.new : BlockDecoder F N) := by
  intro c member
  cases member

theorem Wide.snoc (wide : Wide m decoder) {c : CodedChunk F N} (width : c.w.v.length = m)
    (grown : decoder'.coded_chunks = decoder.coded_chunks ++ [c]) : Wide m decoder' := by
  intro x member
  rw [grown] at member
  rcases List.mem_append.mp member with old | new
  · exact wide x old
  · rw [List.mem_singleton.mp new]
    exact width

theorem Wide.add (wide : Wide m decoder) {c : CodedChunk F N} (width : c.w.v.length = m) {grew : Bool}
    (ran : decoder.add c = .ok (decoder',grew)) : Wide m decoder' := by
  rcases BlockDecoder.add_cases ran with ⟨_,rfl⟩ | ⟨_,grown,_⟩
  · exact wide
  · exact wide.snoc width grown

/-- Receiving stores nothing but the packet. -/
theorem Wide.receive (wide : Wide m decoder) {packet : SignedPacket F N Proof} (width : packet.chunk.w.v.length = m)
    {state : BlockDecoder F N × List Proof} {r : Except String Bool}
    (ran : coded_receive S decoder proofs ctx packet = .ok (state,r)) :
    Wide m state.1 ∧ ∀ q ∈ state.2, q ∈ proofs ∨ q = packet.proof := by
  rcases coded_receive_cases ran with ⟨_,rfl⟩ | ⟨_,grown,kept,_⟩
  · exact ⟨wide,fun q member => .inl member⟩
  · refine ⟨wide.snoc width grown,fun q member => ?_⟩
    rw [kept] at member
    rcases List.mem_append.mp member with old | new
    · exact .inl old
    · exact .inr (List.mem_singleton.mp new)

theorem Wide.forward [Random F] (wide : Wide m decoder) {count : Nat} {rng rest : Rng}
    {packets : List (SignedPacket F N Proof)} (ran : coded_forward S decoder proofs count rng = .ok (packets,rest)) :
    ∀ p ∈ packets, p.chunk.w.v.length = m ∧ ∃ alphas, S.combine proofs alphas = .ok p.proof := by
  intro p member
  obtain ⟨before,mixed,combined⟩ := coded_forward_each S ran p member
  exact ⟨BlockDecoder.reencode_with_width wide mixed,_,combined⟩

/-- A loop that adds each of the chunks gives a decoder of their width. -/
theorem loop_wide {A : Type} (dec : A → BlockDecoder F N) {body : A → Chunk F × Nat → Rust A}
    (adds : ∀ a c a', body a c = .ok a' →
      ∃ (coded : CodedChunk F N) (grew : Bool), coded.w = c.1 ∧ (dec a).add coded = .ok (dec a',grew))
    {chunks : List (Chunk F)} (sizes : ∀ v ∈ chunks, v.v.length = m) {a a' : A} (start : Wide m (dec a))
    (ran : chunks.zipIdx.foldlM body a = .ok a') : Wide m (dec a') := by
  refine fold_kept (fun _ a => Wide m (dec a)) ran start fun before c after b b' split wide step => ?_
  obtain ⟨coded,grew,same,added⟩ := adds b c b' step
  obtain ⟨inside,here,_⟩ := enumerated split
  refine wide.add ?_ added
  rw [same,here]
  exact sizes _ (List.getElem_mem inside)

end

/-! ### Runs of a strategy -/

section
variable {σ NodeState Packet : Type}

/-- Parameters, states of nodes and packets. -/
inductive Thing (σ NodeState Packet : Type)
  | Params (self : σ)
  | Node (state : NodeState)
  | Sent (packet : Packet)

/-- What occurs when blocks are proposed, and packets received and forwarded, in any order. -/
inductive Occurs (T : Strategy σ NodeState Packet) (start : σ) : Thing σ NodeState Packet → Prop
  | start : Occurs T start (.Params start)
  | updated {self self' : σ} {block : Block} {count byte_len : Nat} {rng rest : Rng} {proposer : NodeState}
      {packets : List Packet} : Occurs T start (.Params self) →
      T.init_proposer self block count rng = .ok ((self',proposer,packets,byte_len),rest) → Occurs T start (.Params self')
  | proposer {self self' : σ} {block : Block} {count byte_len : Nat} {rng rest : Rng} {proposer : NodeState}
      {packets : List Packet} : Occurs T start (.Params self) →
      T.init_proposer self block count rng = .ok ((self',proposer,packets,byte_len),rest) → Occurs T start (.Node proposer)
  | proposed {self self' : σ} {block : Block} {count byte_len : Nat} {rng rest : Rng} {proposer : NodeState}
      {packets : List Packet} {p : Packet} : Occurs T start (.Params self) →
      T.init_proposer self block count rng = .ok ((self',proposer,packets,byte_len),rest) → p ∈ packets →
      Occurs T start (.Sent p)
  | receiver {self : σ} {fresh : NodeState} : Occurs T start (.Params self) → T.init_receiver self = .ok fresh →
      Occurs T start (.Node fresh)
  | received {self : σ} {state state' : NodeState} {p : Packet} {r : Except String Bool} : Occurs T start (.Params self) →
      Occurs T start (.Node state) → Occurs T start (.Sent p) → T.receive self state p = .ok (state',r) →
      Occurs T start (.Node state')
  | forwarded {self : σ} {state : NodeState} {count : Nat} {rng rest : Rng} {packets : List Packet} {p : Packet} :
      Occurs T start (.Params self) → Occurs T start (.Node state) →
      T.forward self state count rng = .ok (packets,rest) → p ∈ packets → Occurs T start (.Sent p)

end

section
variable {σ F : Type} [Field F] [DecidableEq F] [Random F] {N : Nat} {Context Proof Error : Type}
  {S : IntegrityScheme F N Context Proof Error}

/-- The node holds chunks of this width, and proofs with the property. -/
def SizedNode (m : Nat) (Q : Proof → Prop) (state : CodedNodeState F N Context Proof) : Prop :=
  Wide m state.decoder ∧ ∀ q ∈ state.proofs, Q q

def SizedPacket (m : Nat) (Q : Proof → Prop) (p : SignedPacket F N Proof) : Prop := p.chunk.w.v.length = m ∧ Q p.proof

def Sized (dim : σ → Nat) (m : Nat) (Q : Proof → Prop) :
    Thing σ (CodedNodeState F N Context Proof) (SignedPacket F N Proof) → Prop
  | .Params self => dim self = m
  | .Node state => SizedNode m Q state
  | .Sent p => SizedPacket m Q p

/-- What starts sized stays sized. -/
theorem occurs_sized {T : Strategy σ (CodedNodeState F N Context Proof) (SignedPacket F N Proof)} {dim : σ → Nat}
    {Q : Proof → Prop} (receives : ∀ self, T.receive self = CodedNodeState.receive S)
    (forwards : ∀ self, T.forward self = CodedNodeState.forward S)
    (combines : ∀ proofs alphas proof, (∀ q ∈ proofs, Q q) → S.combine proofs alphas = .ok proof → Q proof)
    (starts : ∀ self block count rng self' proposer packets byte_len rest,
      T.init_proposer self block count rng = .ok ((self',proposer,packets,byte_len),rest) →
      dim self' = dim self ∧ SizedNode (dim self) Q proposer ∧ ∀ p ∈ packets, SizedPacket (dim self) Q p)
    (fresh : ∀ self state, T.init_receiver self = .ok state → state.decoder = BlockDecoder.new ∧ state.proofs = [])
    {start : σ} {thing : Thing σ (CodedNodeState F N Context Proof) (SignedPacket F N Proof)}
    (occurs : Occurs T start thing) : Sized dim (dim start) Q thing := by
  induction occurs with
  | start => exact rfl
  | updated params ran ih => exact (starts _ _ _ _ _ _ _ _ _ ran).1.trans ih
  | proposer params ran ih =>
    rw [← show dim _ = dim start from ih]
    exact (starts _ _ _ _ _ _ _ _ _ ran).2.1
  | proposed params ran member ih =>
    rw [← show dim _ = dim start from ih]
    exact (starts _ _ _ _ _ _ _ _ _ ran).2.2 _ member
  | receiver params ran ih =>
    obtain ⟨empty,none⟩ := fresh _ _ ran
    refine ⟨?_,?_⟩
    · rw [empty]
      exact wide_new
    · rw [none]
      simp
  | received params held sent ran _ ihNode ihSent =>
    rw [receives] at ran
    simp only [CodedNodeState.receive,bind_ok,pure_eq,Except.ok.injEq,Prod.mk.injEq] at ran
    obtain ⟨⟨⟨decoder,proofs⟩,result⟩,taken,rfl,rfl⟩ := ran
    obtain ⟨wide,kept⟩ := ihNode.1.receive ihSent.1 taken
    refine ⟨wide,fun q member => ?_⟩
    rcases kept q member with old | rfl
    · exact ihNode.2 q old
    · exact ihSent.2
  | forwarded params held ran member _ ihNode =>
    rw [forwards] at ran
    obtain ⟨width,alphas,combined⟩ := ihNode.1.forward ran _ member
    exact ⟨width,combines _ _ _ ihNode.2 combined⟩

end

section
variable {G S PublicKey Signature G1 G2 : Type} [AddCommGroup G] [DecidableEq G] [Module Scalar G] [Space Scalar G]
  [HashToGroup G] [FixedCodec G] [Verifier PublicKey Signature] [Signer S PublicKey Signature] [FixedCodec Signature]
  [AddCommGroup G1] [Module Scalar G1] [AddCommGroup G2] [Module Scalar G2] [Space Scalar G2] [HashToGroup G2]
  [PairingGroup G1 G2] [FixedCodec G2] [FixedCodec Scalar] [LawfulScalarCodec] [Random Scalar] [FixedCodec UInt32]
  [FixedCodec UInt64] [BytesCodec] [Keccak256] {N : Nat}

theorem pedersen_starts_sized {self self' : PedersenStrategy G S N} {block : Block} {count byte_len : Nat}
    {rng rest : Rng} {proposer : PedersenStrategy.PedersenNodeState G PublicKey Signature N}
    {packets : List (PedersenStrategy.PedersenPacket G Signature N)}
    (ran : self.init_proposer block count rng = .ok ((self',proposer,packets,byte_len),rest)) :
    self'.m = self.m ∧ SizedNode self.m (fun q => q.commitments.length = N) proposer ∧
      ∀ p ∈ packets, SizedPacket self.m (fun q => q.commitments.length = N) p := by
  simp only [PedersenStrategy.init_proposer,bind_ok,pure_eq,Except.ok.injEq,Prod.mk.injEq] at ran
  obtain ⟨⟨⟨coded,_⟩,_⟩,encoded,⟨originals,_⟩,split,proof,signed,decoder,filled,⟨rfl,rfl,rfl,rfl⟩,rfl⟩ := ran
  obtain ⟨originals',split',_,each⟩ := Block.encode_chunks_ok encoded
  obtain ⟨rfl,rfl⟩ := ok_pair (split.symm.trans split')
  have parts := (Block.as_chunks_ok split).2.2
  have counted : proof.commitments.length = N := by
    rw [(Pedersen.sign_block_commits signed).1,Pedersen.commitments,List.length_map,parts.count]
  refine ⟨rfl,⟨?_,by simpa using counted⟩,?_⟩
  · refine loop_wide (fun d => d) ?_ parts.sizes wide_new filled
    rintro d ⟨orig,i⟩ d' step
    simp only [bind_ok,pure_eq,Except.ok.injEq] at step
    obtain ⟨b,_,chunk,made,⟨after,grew⟩,added,rfl⟩ := step
    exact ⟨chunk,grew,(CodedChunk.new_eq_ok made).1,added⟩
  · intro p member
    obtain ⟨chunk,listed,rfl⟩ := List.mem_map.mp member
    exact ⟨(each chunk listed).width,counted⟩

theorem bfkw_starts_sized {self self' : BfkwStrategy G1 G2 N} {block : Block} {count byte_len : Nat}
    {rng rest : Rng} {proposer : BfkwStrategy.BfkwNodeState G1 G2 N} {packets : List (BfkwStrategy.BfkwPacket G2 N)}
    (ran : self.init_proposer block count rng = .ok ((self',proposer,packets,byte_len),rest)) :
    self'.m = self.m ∧ SizedNode self.m (fun _ => True) proposer ∧ ∀ p ∈ packets, SizedPacket self.m (fun _ => True) p := by
  simp only [BfkwStrategy.init_proposer,bind_ok,pure_eq,Except.ok.injEq,Prod.mk.injEq] at ran
  obtain ⟨⟨⟨coded,_⟩,_⟩,encoded,⟨originals,_⟩,split,sent,signed,⟨decoder,proofs⟩,filled,⟨rfl,rfl,rfl,rfl⟩,rfl⟩ := ran
  obtain ⟨originals',split',_,each⟩ := Block.encode_chunks_ok encoded
  obtain ⟨rfl,rfl⟩ := ok_pair (split.symm.trans split')
  have parts := (Block.as_chunks_ok split).2.2
  refine ⟨rfl,⟨?_,by simp⟩,?_⟩
  · refine loop_wide (fun (a : BlockDecoder Scalar N × List (Bfkw.BfkwProof G2)) => a.1) ?_ parts.sizes wide_new filled
    rintro ⟨d,proofs⟩ ⟨orig,i⟩ a' step
    simp only [bind_ok,pure_eq,Except.ok.injEq] at step
    obtain ⟨b,_,chunk,made,proof,_,⟨after,grew⟩,added,rfl⟩ := step
    exact ⟨chunk,grew,(CodedChunk.new_eq_ok made).1,added⟩
  · intro p member
    obtain ⟨chunk,listed,made⟩ := mapM_each signed p member
    simp only [bind_ok] at made
    obtain ⟨proof,_,made⟩ := made
    obtain rfl := Except.ok.inj made
    exact ⟨(each chunk listed).width,trivial⟩

end

/-! ### Runs of a protocol -/

/-- The packets that an operation returns. -/
def sent : Outcome → List Bytes
  | .Proposed proposal _ => proposal.packets
  | .Recoded packets _ => packets
  | _ => []

section
variable {σ F : Type} [Field F] [DecidableEq F] [PackableField F] [FixedCodec F] [Random F] {N : Nat}
  {Context Proof Error : Type} [IntegrityProof Proof] [FixedCodec UInt64] [BytesCodec]
  {S : IntegrityScheme F N Context Proof Error} {P : Protocol σ} {view : σ → CodedState F N Context Proof}

/-- The message is a packet with `m` data scalars. -/
def SizedBytes (F : Type) (N : Nat) (Proof : Type) [FixedCodec F] [IntegrityProof Proof] (m : Nat) (bytes : Bytes) : Prop :=
  ∃ packet : SignedPacket F N Proof, bytes = packet.serialize ∧ packet.chunk.w.v.length = m

/-- Whatever is received, a message keeps the width of the decoder. -/
theorem ingest_sized (coded : Coded P S view) {s s' : σ} {channel : Channel} {n : Nat} {data : Bytes}
    {r : Except String Bool} (wide : Wide (view s).m (view s).decoder) (ran : P.ingest s channel n data = .ok (s',r)) :
    (view s').m = (view s).m ∧ Wide (view s).m (view s').decoder := by
  obtain ⟨dim,kept | ⟨packet,ctx,read,received⟩⟩ := coded.ingest_cases ran
  · rw [kept.1]
    exact ⟨dim,wide⟩
  · exact ⟨dim,(wide.receive (SignedPacket.deserialize_width read) received).1⟩

/-- Whatever is asked of a coded protocol, the packets that it returns have the width of its parameters. -/
theorem run_sized (coded : Coded P S view) (proposes : Proposes P view)
    (fills : ∀ s block count rng s' proposal rest, P.propose s block count rng = .ok ((s',proposal),rest) →
      Wide (view s).m (view s').decoder) {s s' : σ} {ops : List Operation} {outcomes : List Outcome}
    (start : Wide (view s).m (view s).decoder) (ran : run P s ops = .ok (s',outcomes)) :
    (view s').m = (view s).m ∧ ∀ outcome ∈ outcomes, ∀ bytes ∈ sent outcome, SizedBytes F N Proof (view s).m bytes := by
  have kept := run_keeps (fun t => (view t).m = (view s).m ∧ Wide (view s).m (view t).decoder)
    (fun outcome => ∀ bytes ∈ sent outcome, SizedBytes F N Proof (view s).m bytes) ?_ ⟨rfl,start⟩ ran
  · exact ⟨kept.1.1,kept.2⟩
  rintro t op t' outcome ⟨same,wide⟩ performed
  rw [← same] at wide ⊢
  cases op with
  | Propose block count rng =>
    simp only [perform,bind_ok,pure_eq,Except.ok.injEq,Prod.mk.injEq] at performed
    obtain ⟨⟨⟨after,proposal⟩,rest⟩,proposed,rfl,rfl⟩ := performed
    obtain ⟨dim,chunks,byte_len,_,_,each⟩ := proposes.propose _ _ _ _ _ _ _ proposed
    refine ⟨⟨dim,fills _ _ _ _ _ _ _ proposed⟩,fun bytes member => ?_⟩
    obtain ⟨packet,written,encodes⟩ := each bytes member
    exact ⟨packet,written,encodes.width⟩
  | Ingest channel n data =>
    simp only [perform,bind_ok,pure_eq,Except.ok.injEq,Prod.mk.injEq] at performed
    obtain ⟨⟨after,r⟩,ingested,rfl,rfl⟩ := performed
    exact ⟨ingest_sized coded wide ingested,by simp [sent]⟩
  | Recode count rng =>
    simp only [perform,bind_ok,pure_eq,Except.ok.injEq,Prod.mk.injEq] at performed
    obtain ⟨⟨packets,rest⟩,recoded,rfl,rfl⟩ := performed
    rw [coded.recode,CodedState.recode,bind_ok] at recoded
    obtain ⟨⟨forwarded,rest'⟩,collected,recoded⟩ := recoded
    obtain ⟨rfl,rfl⟩ := ok_pair recoded
    refine ⟨⟨rfl,wide⟩,fun bytes member => ?_⟩
    obtain ⟨packet,listed,rfl⟩ := List.mem_map.mp member
    exact ⟨packet,rfl,(wide.forward collected packet listed).1⟩
  | Decode =>
    simp only [perform,bind_ok,pure_eq,Except.ok.injEq,Prod.mk.injEq] at performed
    obtain ⟨⟨block,after⟩,decoded,rfl,rfl⟩ := performed
    obtain rfl := coded.decode_same decoded
    exact ⟨⟨rfl,wide⟩,by simp [sent]⟩
  | Reset =>
    obtain ⟨rfl,rfl⟩ := ok_pair performed
    refine ⟨⟨(coded.reset_fixed t).2,?_⟩,by simp [sent]⟩
    rw [(coded.reset_block t).1]
    intro c member
    cases member

end

/-! ### The formulas -/

section
variable {G S PublicKey Signature G1 G2 : Type} [AddCommGroup G] [DecidableEq G] [Module Scalar G] [Space Scalar G]
  [HashToGroup G] [FixedCodec G] [Verifier PublicKey Signature] [Signer S PublicKey Signature] [FixedCodec Signature]
  [AddCommGroup G1] [Module Scalar G1] [AddCommGroup G2] [Module Scalar G2] [Space Scalar G2] [HashToGroup G2]
  [PairingGroup G1 G2] [FixedCodec G2] [FixedCodec Scalar] [LawfulScalarCodec] [Random Scalar] [FixedCodec UInt32]
  [FixedCodec UInt64] [BytesCodec] [Keccak256] {N : Nat}

theorem pedersen_fills {s s' : PedersenProtocol Scalar G S PublicKey Signature N} {block : Block}
    {count : Nat} {rng rest : Rng} {proposal : Proposal} (ran : s.propose block count rng = .ok ((s',proposal),rest)) :
    Wide s.m s'.decoder := by
  simp only [PedersenProtocol.propose,bind_ok,pure_eq,Except.ok.injEq,Prod.mk.injEq] at ran
  obtain ⟨⟨⟨coded,_⟩,_⟩,_,⟨originals,_⟩,split,signer,_,proof,_,⟨decoder,proofs⟩,filled,⟨rfl,rfl⟩,rfl⟩ := ran
  refine loop_wide (fun (a : BlockDecoder Scalar N × List (Pedersen.PedersenProof G Signature)) => a.1) ?_
    (Block.as_chunks_ok split).2.2.sizes wide_new filled
  rintro ⟨d,proofs⟩ ⟨orig,i⟩ a' step
  simp only [bind_ok,pure_eq,Except.ok.injEq] at step
  obtain ⟨b,_,chunk,made,⟨after,grew⟩,added,rfl⟩ := step
  exact ⟨chunk,grew,(CodedChunk.new_eq_ok made).1,added⟩

theorem bfkw_fills {s s' : BfkwProtocol Scalar G1 G2 N} {block : Block} {count : Nat} {rng rest : Rng}
    {proposal : Proposal} (ran : s.propose block count rng = .ok ((s',proposal),rest)) : Wide s.m s'.decoder := by
  simp only [BfkwProtocol.propose,bind_ok,pure_eq,Except.ok.injEq,Prod.mk.injEq] at ran
  obtain ⟨⟨⟨coded,_⟩,_⟩,_,⟨originals,_⟩,split,signer,_,packets,_,⟨decoder,proofs⟩,filled,⟨rfl,rfl⟩,rfl⟩ := ran
  refine loop_wide (fun (a : BlockDecoder Scalar N × List (Bfkw.BfkwProof G2)) => a.1) ?_
    (Block.as_chunks_ok split).2.2.sizes wide_new filled
  rintro ⟨d,proofs⟩ ⟨orig,i⟩ a' step
  simp only [bind_ok,pure_eq,Except.ok.injEq] at step
  obtain ⟨b,_,chunk,made,proof,_,⟨after,grew⟩,added,rfl⟩ := step
  exact ⟨chunk,grew,(CodedChunk.new_eq_ok made).1,added⟩

/-- The BFKW strategy accounts for a packet the bytes that it takes. -/
theorem bfkw_accounted [WrittenElement G2] {start self : BfkwStrategy G1 G2 N} {p : BfkwStrategy.BfkwPacket G2 N}
    (params : Occurs (BfkwStrategy.strategy G1 G2 N) start (.Params self))
    (packet : Occurs (BfkwStrategy.strategy G1 G2 N) start (.Sent p)) :
    self.packet_size p = p.wire_size ∧ p.wire_size = p.serialize.length := by
  have sized : ∀ {thing}, Occurs (BfkwStrategy.strategy G1 G2 N) start thing →
      Sized BfkwStrategy.m start.m (fun _ => True) thing := by
    refine occurs_sized (S := Bfkw.BfkwScheme Scalar G1 G2 N) (fun _ => rfl) (fun _ => rfl) (fun _ _ _ _ _ => trivial)
      (fun _ _ _ _ _ _ _ _ _ ran => bfkw_starts_sized ran) fun self state ran => ?_
    simp only [BfkwStrategy.strategy,BfkwStrategy.init_receiver,bind_ok] at ran
    obtain ⟨ctx,_,ran⟩ := ran
    obtain rfl := Except.ok.inj ran
    exact ⟨rfl,rfl⟩
  have dim : self.m = start.m := sized params
  have width : p.chunk.w.v.length = start.m := (sized packet).1
  refine ⟨?_,(p.serialize_length (Packets.bfkw_proof_length p.proof)).symm⟩
  simp only [BfkwStrategy.packet_size,SignedPacket.wire_size,width,dim,LawfulScalarCodec.size]
  rfl

/-- The Pedersen strategy accounts for four bytes too few: those of the count of commitments. -/
theorem pedersen_accounted [WrittenElement G] [WrittenCodec Signature] [WrittenCodec UInt32]
    (u32_size : FixedCodec.SIZE UInt32 = 4) {start self : PedersenStrategy G S N}
    {p : PedersenStrategy.PedersenPacket G Signature N}
    (params : Occurs (PedersenStrategy.strategy G S PublicKey Signature N) start (.Params self))
    (packet : Occurs (PedersenStrategy.strategy G S PublicKey Signature N) start (.Sent p)) :
    self.packet_size p + 4 = p.wire_size ∧ p.wire_size = p.serialize.length := by
  have sized : ∀ {thing}, Occurs (PedersenStrategy.strategy G S PublicKey Signature N) start thing →
      Sized PedersenStrategy.m start.m (fun q => q.commitments.length = N) thing := by
    refine occurs_sized (S := Pedersen.PedersenScheme Scalar G PublicKey Signature N) (fun _ => rfl) (fun _ => rfl) ?_
      (fun _ _ _ _ _ _ _ _ _ ran => pedersen_starts_sized ran) fun self state ran => ?_
    · intro proofs alphas proof counted combined
      have first : proofs[0]? = some proof := (index_eq_ok proofs 0 proof).mp combined
      exact counted proof (List.mem_of_getElem? first)
    · obtain rfl := Except.ok.inj ran
      exact ⟨rfl,rfl⟩
  have dim : self.m = start.m := sized params
  obtain ⟨width,counted⟩ : p.chunk.w.v.length = start.m ∧ p.proof.commitments.length = N := sized packet
  refine ⟨?_,(p.serialize_length (Packets.pedersen_proof_length u32_size p.proof)).symm⟩
  simp only [PedersenStrategy.packet_size,SignedPacket.wire_size,width,dim,LawfulScalarCodec.size,
    IntegrityProof.proof_wire_size,counted]
  rw [Nat.mul_comm (FixedCodec.SIZE G)]
  omega

/-- The BFKW protocol accounts for every packet the bytes that it takes. -/
theorem bfkw_protocol_accounted [WrittenElement G2] {m : Nat} {proposer_pk : G1} {signer : Option (Bfkw.BfkwSigner Scalar G1)}
    {s : BfkwProtocol Scalar G1 G2 N} {ops : List Operation} {outcomes : List Outcome}
    (ran : run (BfkwProtocol.protocol Scalar G1 G2 N) (BfkwProtocol.new m proposer_pk signer) ops =
      .ok (s,outcomes)) : ∀ outcome ∈ outcomes, ∀ bytes ∈ sent outcome, s.packet_wire_size = bytes.length := by
  obtain ⟨dim,each⟩ := run_sized BfkwProtocol.coded BfkwProtocol.proposes (fun _ _ _ _ _ _ _ ran => bfkw_fills ran)
    wide_new ran
  have same : s.m = m := dim
  intro outcome listed bytes member
  obtain ⟨packet,rfl,width⟩ := each outcome listed bytes member
  have wide : packet.chunk.w.v.length = m := width
  rw [packet.serialize_length (Packets.bfkw_proof_length packet.proof),SignedPacket.wire_size,wide,
    BfkwProtocol.packet_wire_size,same]
  rfl

/-- The Pedersen protocol accounts for no packet the bytes that it takes. -/
theorem pedersen_protocol_accounted [WrittenElement G] [WrittenCodec Signature] [WrittenCodec UInt32]
    (u32_size : FixedCodec.SIZE UInt32 = 4) (point_size : ¬FixedCodec.SIZE G ∣ 4) {m : Nat} {proposer_pk : PublicKey}
    {signer : Option (Pedersen.PedersenSigner S)} {s : PedersenProtocol Scalar G S PublicKey Signature N}
    {ops : List Operation} {outcomes : List Outcome}
    (ran : run (PedersenProtocol.protocol Scalar G S PublicKey Signature N)
      (PedersenProtocol.new m proposer_pk signer) ops = .ok (s,outcomes)) :
    ∀ outcome ∈ outcomes, ∀ bytes ∈ sent outcome, s.packet_wire_size ≠ bytes.length := by
  obtain ⟨dim,each⟩ := run_sized PedersenProtocol.coded PedersenProtocol.proposes
    (fun _ _ _ _ _ _ _ ran => pedersen_fills ran) wide_new ran
  have same : s.m = m := dim
  intro outcome listed bytes member equal
  obtain ⟨packet,rfl,width⟩ := each outcome listed bytes member
  have wide : packet.chunk.w.v.length = m := width
  rw [packet.serialize_length (Packets.pedersen_proof_length u32_size packet.proof),SignedPacket.wire_size,wide,
    PedersenProtocol.packet_wire_size,same] at equal
  simp only [IntegrityProof.proof_wire_size] at equal
  -- as many commitments more as the count field takes bytes
  have missing : FixedCodec.SIZE G * N = 4 + FixedCodec.SIZE G * packet.proof.commitments.length := by
    rw [Nat.mul_comm (FixedCodec.SIZE G) packet.proof.commitments.length]
    omega
  exact point_size ((Nat.dvd_add_left (Nat.dvd_mul_right _ _)).mp (missing ▸ Nat.dvd_mul_right _ _))

variable (G S PublicKey Signature G1 G2 N) in
/-- The bytes accounted are the bytes sent for every packet of the BFKW scheme and for none
    of the Pedersen scheme. -/
theorem accounted_iff_bfkw [WrittenElement G] [WrittenElement G2] [WrittenCodec Signature] [WrittenCodec UInt32]
    (u32_size : FixedCodec.SIZE UInt32 = 4) (point_size : ¬FixedCodec.SIZE G ∣ 4) :
    (∀ start self p, Occurs (BfkwStrategy.strategy G1 G2 N) start (.Params self) →
      Occurs (BfkwStrategy.strategy G1 G2 N) start (.Sent p) →
      self.packet_size p = p.wire_size ∧ p.wire_size = p.serialize.length) ∧
    (∀ m proposer_pk signer ops s outcomes, run (BfkwProtocol.protocol Scalar G1 G2 N)
      (BfkwProtocol.new m proposer_pk signer) ops = .ok (s,outcomes) →
      ∀ outcome ∈ outcomes, ∀ bytes ∈ sent outcome, s.packet_wire_size = bytes.length) ∧
    (∀ start self p, Occurs (PedersenStrategy.strategy G S PublicKey Signature N) start (.Params self) →
      Occurs (PedersenStrategy.strategy G S PublicKey Signature N) start (.Sent p) →
      self.packet_size p + 4 = p.wire_size ∧ p.wire_size = p.serialize.length) ∧
    (∀ m proposer_pk signer ops s outcomes, run (PedersenProtocol.protocol Scalar G S PublicKey Signature N)
      (PedersenProtocol.new m proposer_pk signer) ops = .ok (s,outcomes) →
      ∀ outcome ∈ outcomes, ∀ bytes ∈ sent outcome, s.packet_wire_size ≠ bytes.length) :=
  ⟨fun _ _ _ => bfkw_accounted,fun _ _ _ _ _ _ => bfkw_protocol_accounted,
    fun _ _ _ => pedersen_accounted u32_size,fun _ _ _ _ _ _ => pedersen_protocol_accounted u32_size point_size⟩

end

section
open Rlnc.Reference

private def short_block : Block := block_of [1,0,3]

private def committing : PedersenStrategy Scalar Bytes 2 := PedersenStrategy.new 2 ⟨[7]⟩

private def signing : BfkwStrategy Scalar Scalar 2 := BfkwStrategy.new 2 ⟨scalar 3,scalar 3⟩

private def committing_run : Rust (PedersenProtocol Scalar Scalar Bytes Bytes UInt64 2 × List Outcome) :=
  run (PedersenProtocol.protocol Scalar Scalar Bytes Bytes UInt64 2) (PedersenProtocol.new 2 [7] (some ⟨[7]⟩))
    [.Propose short_block 1 (Stream'.const 3),.Recode 1 (Stream'.const 3)]

private def signing_run : Rust (BfkwProtocol Scalar Scalar Scalar 2 × List Outcome) :=
  run (BfkwProtocol.protocol Scalar Scalar Scalar 2)
    (BfkwProtocol.new 2 (scalar 3) (some ⟨scalar 3,scalar 3⟩))
    [.Propose short_block 1 (Stream'.const 3),.Recode 1 (Stream'.const 3)]

/-- The sizes of the packets that a proposer sends for the block: as the strategy accounts for
    them, as the wire size says, and as they are. -/
private def first_sizes {σ NodeState Proof : Type} [IntegrityProof Proof]
    (T : Strategy σ NodeState (SignedPacket Scalar 2 Proof)) (self : σ) : Rust (List (Nat × Nat × Nat)) :=
  (T.init_proposer self short_block 1 (Stream'.const 3)).map
    fun r => r.1.2.2.1.map fun p => (T.packet_size self p,p.wire_size,p.serialize.length)

private theorem first_occurs {σ NodeState Proof : Type} [IntegrityProof Proof]
    (T : Strategy σ NodeState (SignedPacket Scalar 2 Proof)) (self : σ) {sizes : Nat × Nat × Nat}
    (ran : first_sizes T self = .ok [sizes]) : ∃ p, Occurs T self (.Sent p) := by
  cases proposed : T.init_proposer self short_block 1 (Stream'.const 3) with
  | error e =>
    rw [first_sizes,proposed] at ran
    cases ran
  | ok r =>
    obtain ⟨⟨self',proposer,packets,byte_len⟩,rest⟩ := r
    rw [first_sizes,proposed] at ran
    obtain ⟨p,rfl,_⟩ := List.map_eq_singleton_iff.mp (Except.ok.inj ran)
    exact ⟨p,.proposed .start proposed (List.mem_singleton_self p)⟩

theorem accounted_iff_bfkw_short :
    (∃ p, Occurs (BfkwStrategy.strategy Scalar Scalar 2) signing (.Sent p) ∧
      signing.packet_size p = p.wire_size ∧ p.wire_size = p.serialize.length) ∧
    (∃ s outcomes, signing_run = .ok (s,outcomes) ∧ (outcomes.flatMap sent).length = 2 ∧
      ∀ outcome ∈ outcomes, ∀ bytes ∈ sent outcome, s.packet_wire_size = bytes.length) ∧
    (∃ p, Occurs (PedersenStrategy.strategy Scalar Bytes Bytes UInt64 2) committing (.Sent p) ∧
      committing.packet_size p + 4 = p.wire_size ∧ p.wire_size = p.serialize.length) ∧
    (∃ s outcomes, committing_run = .ok (s,outcomes) ∧ (outcomes.flatMap sent).length = 2 ∧
      ∀ outcome ∈ outcomes, ∀ bytes ∈ sent outcome, s.packet_wire_size ≠ bytes.length) := by
  obtain ⟨bfkw,bfkw_protocol,pedersen,pedersen_protocol⟩ :=
    accounted_iff_bfkw Scalar Bytes Bytes UInt64 Scalar Scalar 2 rfl (by decide)
  obtain ⟨p,signed⟩ := first_occurs (BfkwStrategy.strategy Scalar Scalar 2) signing
    (show first_sizes _ _ = .ok [(160,160,160)] by decide +kernel)
  obtain ⟨q,committed⟩ := first_occurs (PedersenStrategy.strategy Scalar Bytes Bytes UInt64 2) committing
    (show first_sizes _ _ = .ok [(200,204,204)] by decide +kernel)
  obtain ⟨⟨s,outcomes⟩,ran,two⟩ := map_ok
    (show signing_run.map (fun r => (r.2.flatMap sent).length) = .ok 2 by decide +kernel)
  obtain ⟨⟨t,outcomes'⟩,ran',two'⟩ := map_ok
    (show committing_run.map (fun r => (r.2.flatMap sent).length) = .ok 2 by decide +kernel)
  exact ⟨⟨p,signed,bfkw _ _ p .start signed⟩,⟨s,outcomes,ran,two,bfkw_protocol _ _ _ _ _ _ ran⟩,
    ⟨q,committed,pedersen _ _ q .start committed⟩,⟨t,outcomes',ran',two',pedersen_protocol _ _ _ _ _ _ ran'⟩⟩

/-- A packet of 204 bytes is accounted as one of 200. -/
theorem count_unaccounted :
    first_sizes (PedersenStrategy.strategy Scalar Bytes Bytes UInt64 2) committing = .ok [(200,204,204)] ∧
    committing_run.map (fun r => (r.1.packet_wire_size,(r.2.flatMap sent).map List.length)) = .ok (200,[204,204]) := by
  constructor
  · decide +kernel
  · decide +kernel

end

end Rlnc.Bandwidth
