import Rlnc.Integrity
import Rlnc.Reference

/-!
The Pedersen scheme: commitments to the original chunks, with a signature over
them. A packet is valid when the signature is and when the commitment to its data
is the combination of its commitments (`verify_eq`). A forwarded packet carries
the proof of the first stored packet, and is valid for all mixing coefficients
exactly when every stored chunk matches the commitments of that proof
(`forwarding_valid_iff`).
-/
namespace Rlnc.Pedersen
open Rlnc.Panics Rlnc.Combination Rlnc.Linalg Rlnc.Wire Rlnc.Packing Rlnc.Coding Rlnc.Draws Rlnc.Groups Rlnc.Integrity
set_option linter.unusedSectionVars false

def PEDERSEN_GEN_DST : Bytes := byte_string "RLNC-PEDERSEN-GEN-v1"

def PEDERSEN_SIG_NS : Bytes := byte_string "RLNC-PEDERSEN-SIG-v1"

/-- The generator points. -/
structure CommitmentKey (G : Type) where
  generators : List G

inductive PedersenError
  | InvalidSignature
  | CommitmentMismatch
deriving DecidableEq

def PedersenError.display : PedersenError → String
  | .InvalidSignature => "invalid signature over commitments"
  | .CommitmentMismatch => "coded chunk does not match commitments"

/-- The commitments to the original chunks and a signature over them. -/
structure PedersenProof (G Signature : Type) where
  commitments : List G
  signature : Signature
deriving DecidableEq

structure PedersenContext (G PublicKey : Type) where
  key : CommitmentKey G
  public_key : PublicKey

structure PedersenSigner (S : Type) where
  signer : S

section
variable {F G S PublicKey Signature : Type} [Field F] [DecidableEq F] [AddCommGroup G] [DecidableEq G] [Module F G]
  [Space F G] [FixedCodec G] [Verifier PublicKey Signature]

namespace CommitmentKey

def deterministic [HashToGroup G] (m : Nat) (dst : Bytes) : CommitmentKey G :=
  ⟨(List.range m).map fun j => HashToGroup.hash_to_group dst (to_le_bytes j)⟩

def canonical [HashToGroup G] (m : Nat) : CommitmentKey G := deterministic m PEDERSEN_GEN_DST

def commit (self : CommitmentKey G) (scalars : List F) : Rust G := do
  let m := self.generators.length
  require (scalars.length = m) s!"commit expects exactly m={m} scalars, got {scalars.length}"
  return Space.msm self.generators scalars

def verify (self : CommitmentKey G) (w coefficients : List F) (commitments : List G) : Rust Bool := do
  let lhs ← self.commit w
  let rhs := Space.msm commitments coefficients
  return lhs == rhs

end CommitmentKey

/-- The commitment points one after the other, as they are signed. -/
def serialize_commitments (commitments : List G) : Bytes := (commitments.map FixedCodec.write).flatten

instance [FixedCodec UInt32] [FixedCodec Signature] : IntegrityProof (PedersenProof G Signature) where
  serialize_proof proof :=
    FixedCodec.write (UInt32.ofNat proof.commitments.length) ++ (proof.commitments.map FixedCodec.write).flatten ++
      FixedCodec.write proof.signature
  deserialize_proof := do
    let n ← map_err (fun e => s!"commitment count: {e}") (FixedCodec.read_cfg : Reader UInt32)
    if n.toNat > 1024 then
      throw "too many commitments"
    let commitments ← read_many read_group n.toNat
    let signature ← map_err (fun e => s!"signature: {e}") (FixedCodec.read_cfg : Reader Signature)
    return ⟨commitments,signature⟩
  proof_wire_size proof := 4 + proof.commitments.length * FixedCodec.SIZE G + FixedCodec.SIZE Signature

namespace PedersenScheme

def verify {N : Nat} (ctx : PedersenContext G PublicKey) (chunk : CodedChunk F N) (proof : PedersenProof G Signature) :
    Rust (Except PedersenError Unit) := do
  let msg := serialize_commitments proof.commitments
  if Verifier.verify ctx.public_key PEDERSEN_SIG_NS msg proof.signature = false then
    return .error .InvalidSignature
  let equal ← ctx.key.verify chunk.w.v chunk.b proof.commitments
  if equal = false then
    return .error .CommitmentMismatch
  return .ok ()

def combine (proofs : List (PedersenProof G Signature)) (_alphas : List F) : Rust (PedersenProof G Signature) :=
  index proofs 0

end PedersenScheme

def PedersenScheme (F G PublicKey Signature : Type) [DecidableEq G] [Space F G] [FixedCodec G]
    [Verifier PublicKey Signature] (N : Nat) :
    IntegrityScheme F N (PedersenContext G PublicKey) (PedersenProof G Signature) PedersenError where
  verify := PedersenScheme.verify
  combine := PedersenScheme.combine
  display := PedersenError.display

namespace PedersenSigner

def context [Signer S PublicKey Signature] (self : PedersenSigner S) (key : CommitmentKey G) :
    PedersenContext G PublicKey :=
  ⟨key,Signer.public_key self.signer⟩

/-- Commit to each original chunk and sign the commitments. -/
def sign_block [Signer S PublicKey Signature] (self : PedersenSigner S) (key : CommitmentKey G) (chunks : List (List F)) :
    Rust (PedersenProof G Signature) := do
  let commitments ← chunks.mapM key.commit
  let msg := serialize_commitments commitments
  let signature := Signer.sign self.signer PEDERSEN_SIG_NS msg
  return ⟨commitments,signature⟩

end PedersenSigner

/-! ### Verification -/

variable {N m : Nat} {ctx : PedersenContext G PublicKey}

/-- The signature of a proof verifies. -/
def Authentic (ctx : PedersenContext G PublicKey) (proof : PedersenProof G Signature) : Prop :=
  Verifier.verify ctx.public_key PEDERSEN_SIG_NS (serialize_commitments proof.commitments) proof.signature = true

/-- The commitment to the data is the combination of the commitments with the coefficients. -/
def Matches (ctx : PedersenContext G PublicKey) (chunk : CodedChunk F N) (commitments : List G) : Prop :=
  Space.msm ctx.key.generators chunk.w.v = Space.msm commitments chunk.b

instance (ctx : PedersenContext G PublicKey) (chunk : CodedChunk F N) (commitments : List G) :
    Decidable (Matches ctx chunk commitments) := inferInstanceAs (Decidable (_ = _))

/-- On data of the right length verification returns; it checks the signature first. -/
theorem verify_eq (chunk : CodedChunk F N) (wide : chunk.w.v.length = ctx.key.generators.length)
    (proof : PedersenProof G Signature) :
    PedersenScheme.verify ctx chunk proof = .ok (
      if Verifier.verify ctx.public_key PEDERSEN_SIG_NS (serialize_commitments proof.commitments) proof.signature = false
      then .error .InvalidSignature
      else if Matches ctx chunk proof.commitments then .ok () else .error .CommitmentMismatch) := by
  by_cases authentic :
      Verifier.verify ctx.public_key PEDERSEN_SIG_NS (serialize_commitments proof.commitments) proof.signature = false
  · simp only [PedersenScheme.verify,if_pos authentic,pure_eq]
  · simp only [PedersenScheme.verify,if_neg authentic,CommitmentKey.verify,CommitmentKey.commit,require_of wide,ok_bind,
      pure_eq,beq_eq_false_iff_ne,ne_eq]
    by_cases same : Space.msm ctx.key.generators chunk.w.v = Space.msm proof.commitments chunk.b
    · rw [if_neg (not_not_intro same),if_pos (show Matches ctx chunk proof.commitments from same)]
    · rw [if_pos same,if_neg (show ¬Matches ctx chunk proof.commitments from same)]

theorem verifies_iff (chunk : CodedChunk F N) (wide : chunk.w.v.length = ctx.key.generators.length)
    (proof : PedersenProof G Signature) :
    Verifies (PedersenScheme F G PublicKey Signature N) ctx ⟨chunk,proof⟩ ↔
      Authentic ctx proof ∧ Matches ctx chunk proof.commitments := by
  simp only [Verifies,PedersenScheme,verify_eq chunk wide proof,Authentic]
  split
  · simp_all
  · split <;> simp_all

/-- Matching commitments is a linear condition. -/
theorem matches_linear [LawfulSpace F G] (width : ctx.key.generators.length = m) {commitments : List G}
    (count : commitments.length = N) (chunk : CodedChunk F N) (wide : chunk.w.v.length = m) :
    Matches ctx chunk commitments ↔
      ((weigh m ctx.key.generators).coprod (-weigh N commitments)) (coords m chunk.w.v,chunk.coefficients) = 0 := by
  rw [Matches,LawfulSpace.msm_eq _ _ (width.trans wide.symm),LawfulSpace.msm_eq _ _ (count.trans chunk.b_length.symm),
    comb_eq_weigh _ width,comb_eq_weigh _ count,LinearMap.coprod_apply,LinearMap.neg_apply,← sub_eq_add_neg,sub_eq_zero]
  rfl

/-- A mix of chunks that match the same commitments matches them. -/
theorem mix_matches [LawfulSpace F G] (width : ctx.key.generators.length = m) {commitments : List G}
    (count : commitments.length = N) (chunks : List (CodedChunk F N))
    (good : ∀ c ∈ chunks, Matches ctx c commitments ∧ c.w.v.length = m) {alphas : List F} {chunk : CodedChunk F N}
    (wide : chunk.w.v.length = m) (data : coords m chunk.w.v = comb alphas (chunks.map (fun c => coords m c.w.v)))
    (coefficients : chunk.coefficients = comb alphas (chunks.map CodedChunk.coefficients)) :
    Matches ctx chunk commitments := by
  rw [matches_linear width count chunk wide]
  let parts : CodedChunk F N → (Fin m → F) × (Fin N → F) := fun c => (coords m c.w.v,c.coefficients)
  have mixed : (coords m chunk.w.v,chunk.coefficients) = comb alphas (chunks.map parts) := by
    have first := map_comb (LinearMap.fst F (Fin m → F) (Fin N → F)) alphas (chunks.map parts)
    have second := map_comb (LinearMap.snd F (Fin m → F) (Fin N → F)) alphas (chunks.map parts)
    rw [List.map_map] at first second
    exact Prod.ext (data.trans first.symm) (coefficients.trans second.symm)
  rw [mixed,map_comb]
  apply comb_zero_vectors
  intro t listed
  rw [List.map_map] at listed
  obtain ⟨c,member,rfl⟩ := List.mem_map.mp listed
  obtain ⟨same,width'⟩ := good c member
  exact (matches_linear width count c width').mp same

/-! ### Committing to a block -/

/-- The commitments to the chunks of a block, in their order. -/
def commitments (key : CommitmentKey G) (originals : List (Chunk F)) : List G :=
  originals.map (fun v => Space.msm key.generators v.v)

/-- Signing a block commits to each of its chunks. -/
theorem sign_block_commits [Signer S PublicKey Signature] {signer : PedersenSigner S} {key : CommitmentKey G} {originals : List (Chunk F)}
    {signed : PedersenProof G Signature} (ran : signer.sign_block key (originals.map Chunk.v) = .ok signed) :
    signed.commitments = commitments key originals ∧ ∀ v ∈ originals, v.v.length = key.generators.length := by
  simp only [PedersenSigner.sign_block,bind_ok] at ran
  obtain ⟨listed,committed,made⟩ := ran
  have each := mapM_ok committed
  rw [List.forall₂_map_left_iff] at each
  cases made
  have steps : List.Forall₂ (fun (v : Chunk F) x => x = Space.msm key.generators v.v ∧ v.v.length = key.generators.length)
      originals listed := by
    refine each.imp fun v x run => ?_
    simp only [CommitmentKey.commit,bind_ok,require_eq_ok] at run
    obtain ⟨_,wide,same⟩ := run
    cases same
    exact ⟨rfl,wide⟩
  clear each committed
  induction steps with
  | nil => simp [commitments]
  | cons here _ ih =>
    obtain ⟨rfl,wide⟩ := here
    obtain ⟨same,sizes⟩ := ih
    exact ⟨congrArg _ same,by simpa [wide] using sizes⟩

/-- Chunks that are as long as the key are committed to and signed. -/
theorem sign_block_runs [Signer S PublicKey Signature] (signer : PedersenSigner S) (key : CommitmentKey G)
    {originals : List (Chunk F)} (sizes : ∀ v ∈ originals, v.v.length = key.generators.length) :
    signer.sign_block key (originals.map Chunk.v) = .ok ⟨commitments key originals,
      Signer.sign signer.signer PEDERSEN_SIG_NS (serialize_commitments (commitments key originals))⟩ := by
  have committed : (originals.map Chunk.v).mapM key.commit = .ok (commitments key originals) := by
    induction originals with
    | nil => rfl
    | cons v originals ih =>
      have here : key.commit v.v = .ok (Space.msm key.generators v.v) := by
        simp only [CommitmentKey.commit,require_of (sizes v (by simp)),ok_bind,pure_eq]
      simp only [List.map_cons,List.mapM_cons,here,ok_bind,ih (fun w member => sizes w (by simp [member])),pure_eq]
      rfl
  simp only [PedersenSigner.sign_block,committed,ok_bind,pure_eq]

/-- A chunk matches the commitments to a block when the commitment to its data is that
    to the combination of the chunks. -/
theorem matches_commitments [LawfulSpace F G] (width : ctx.key.generators.length = m) {originals : List (Chunk F)}
    (count : originals.length = N) (sizes : ∀ v ∈ originals, v.v.length = m) {chunk : CodedChunk F N}
    (wide : chunk.w.v.length = m) :
    Matches ctx chunk (commitments ctx.key originals) ↔ weigh m ctx.key.generators (coords m chunk.w.v) =
      weigh m ctx.key.generators (comb chunk.b (originals.map (fun v => coords m v.v))) := by
  have committed : commitments ctx.key originals =
      (originals.map (fun v => coords m v.v)).map (weigh m ctx.key.generators) := by
    rw [commitments,List.map_map]
    apply List.map_congr_left
    intro v member
    rw [LawfulSpace.msm_eq _ _ (width.trans (sizes v member).symm),comb_eq_weigh _ width]
    rfl
  rw [Matches,LawfulSpace.msm_eq _ _ (width.trans wide.symm),comb_eq_weigh _ width,
    LawfulSpace.msm_eq _ _ (by rw [chunk.b_length,← count,commitments,List.length_map]),committed,← map_comb]

/-- A chunk that encodes a block matches the commitments to it. -/
theorem encodes_matches [LawfulSpace F G] (width : ctx.key.generators.length = m) {originals : List (Chunk F)}
    (count : originals.length = N) (sizes : ∀ v ∈ originals, v.v.length = m) {chunk : CodedChunk F N}
    (encoded : Encodes m originals chunk) : Matches ctx chunk (commitments ctx.key originals) := by
  rw [matches_commitments width count sizes encoded.width,encoded.combined]

/-! ### Forwarding -/

variable {packets : List (SignedPacket F N (PedersenProof G Signature))} {decoder : BlockDecoder F N}
  {proofs : List (PedersenProof G Signature)}

/-- What a node forwards carries its first proof, and is valid if every stored chunk
    matches the commitments of that proof. -/
theorem forwarded_verifies [LawfulSpace F G] (width : ctx.key.generators.length = m)
    {first : SignedPacket F N (PedersenProof G Signature)}
    (stored : Stored (PedersenScheme F G PublicKey Signature N) ctx m (first :: packets) decoder proofs)
    (count : first.proof.commitments.length = N)
    (good : ∀ p ∈ first :: packets, Matches ctx p.chunk first.proof.commitments) {alphas : List F}
    (long : alphas.length = (first :: packets).length) :
    ∃ chunk, decoder.reencode_with alphas = .ok chunk ∧
      (PedersenScheme F G PublicKey Signature N).combine proofs alphas = .ok first.proof ∧
      chunk.w.v.length = m ∧ Verifies (PedersenScheme F G PublicKey Signature N) ctx ⟨chunk,first.proof⟩ := by
  obtain ⟨chunk,ran,wide,data,coefficients⟩ := stored.reencode (by simp) long
  refine ⟨chunk,ran,?_,wide,?_⟩
  · simp only [PedersenScheme,PedersenScheme.combine]
    exact index_of (by rw [stored.aligned]; rfl)
  · rw [verifies_iff chunk (wide.trans width.symm)]
    have genuine := stored.verified first (by simp)
    rw [Verifies,← Verifies,verifies_iff first.chunk ((stored.width first (by simp)).trans width.symm)] at genuine
    refine ⟨genuine.1,?_⟩
    apply mix_matches width count ((first :: packets).map SignedPacket.chunk) ?_ wide
    · rw [data,List.map_map]; rfl
    · rw [coefficients,List.map_map]; rfl
    · intro c listed
      obtain ⟨p,member,rfl⟩ := List.mem_map.mp listed
      exact ⟨good p member,stored.width p member⟩

/-- Every forwarded packet is valid, whatever the mixing coefficients. -/
def ForwardsValid (ctx : PedersenContext G PublicKey) (decoder : BlockDecoder F N)
    (proofs : List (PedersenProof G Signature)) : Prop :=
  ∀ alphas : List F, alphas.length = decoder.rank → ∃ chunk proof, decoder.reencode_with alphas = .ok chunk ∧
    (PedersenScheme F G PublicKey Signature N).combine proofs alphas = .ok proof ∧
    Verifies (PedersenScheme F G PublicKey Signature N) ctx ⟨chunk,proof⟩

/-- Mixing with a unit vector gives back a stored chunk. -/
private theorem reencode_unit (stored : Stored (PedersenScheme F G PublicKey Signature N) ctx m packets decoder proofs)
    {p : SignedPacket F N (PedersenProof G Signature)} (member : p ∈ packets) :
    ∃ alphas : List F, alphas.length = packets.length ∧ decoder.reencode_with alphas = .ok p.chunk := by
  obtain ⟨k,small,rfl⟩ := List.getElem_of_mem member
  have long : ((List.replicate packets.length (0 : F)).set k 1).length = packets.length := by simp
  obtain ⟨chunk,ran,wide,data,coefficients⟩ := stored.reencode (List.ne_nil_of_length_pos (by omega)) long
  rw [comb_unit _ _ _ (by simpa) small,List.getElem_map] at data coefficients
  have sameData := coords_injective wide (stored.width _ (List.getElem_mem small)) data
  have sameCoefficients := coords_injective chunk.b_length packets[k].chunk.b_length coefficients
  refine ⟨_,long,?_⟩
  rw [ran]
  congr 1
  cases left : chunk with
  | mk w b b_length =>
    cases right : packets[k].chunk with
    | mk w' b' b_length' =>
      rw [left,right] at sameData sameCoefficients
      cases w
      cases w'
      simp_all

/-- From any state that a node reaches, what it forwards is valid for all mixing
    coefficients exactly when every stored chunk matches the commitments of the first
    stored proof; in particular when all stored proofs carry the same commitments. -/
theorem forwarding_valid_iff [LawfulSpace F G] (ctx : PedersenContext G PublicKey)
    (received : List (SignedPacket F N (PedersenProof G Signature)))
    (sizes : ∀ p ∈ received, p.chunk.w.v.length = ctx.key.generators.length)
    (counts : ∀ p ∈ received, p.proof.commitments.length = N) (decoder : BlockDecoder F N)
    (proofs : List (PedersenProof G Signature))
    (ran : receive_all (PedersenScheme F G PublicKey Signature N) ctx received = .ok (decoder,proofs))
    (some_rank : 1 ≤ decoder.rank) :
    ∃ first, proofs.head? = some first ∧
      (ForwardsValid ctx decoder proofs ↔ ∀ c ∈ decoder.coded_chunks, Matches ctx c first.commitments) ∧
      ((∀ proof ∈ proofs, proof.commitments = first.commitments) → ForwardsValid ctx decoder proofs) := by
  obtain ⟨packets,stored,part⟩ := receive_all_stored sizes ran
  rw [stored.rank] at some_rank
  obtain ⟨first,rest,rfl⟩ := List.exists_cons_of_length_pos some_rank
  have count := counts first (part.subset (by simp))
  have forwards : (∀ p ∈ first :: rest, Matches ctx p.chunk first.proof.commitments) → ForwardsValid ctx decoder proofs := by
    intro good alphas long
    rw [stored.rank] at long
    obtain ⟨chunk,mixed,combined,_,valid⟩ := forwarded_verifies rfl stored count good long
    exact ⟨chunk,first.proof,mixed,combined,valid⟩
  refine ⟨first.proof,by rw [stored.aligned]; rfl,⟨?_,?_⟩,?_⟩
  · intro valid c member
    rw [stored.chunks] at member
    obtain ⟨p,listed,rfl⟩ := List.mem_map.mp member
    obtain ⟨alphas,long,unit⟩ := reencode_unit stored listed
    obtain ⟨chunk,proof,mixed,combined,good⟩ := valid alphas (long.trans stored.rank.symm)
    obtain rfl : p.chunk = chunk := Except.ok.inj (unit.symm.trans mixed)
    have same : proof = first.proof := by
      simp only [PedersenScheme,PedersenScheme.combine,index_eq_ok,stored.aligned] at combined
      simpa using combined.symm
    rw [same,verifies_iff _ (stored.width p listed)] at good
    exact good.2
  · intro good
    exact forwards (fun p listed => good p.chunk (by rw [stored.chunks]; exact List.mem_map_of_mem listed))
  · intro same
    apply forwards
    intro p listed
    have genuine := stored.verified p listed
    rw [← same p.proof (by rw [stored.aligned]; exact List.mem_map_of_mem listed)]
    exact ((verifies_iff p.chunk (stored.width p listed) p.proof).mp genuine).2

end

section
open Rlnc.Scalars Rlnc.Reference

private def key_one : PedersenContext Scalar Bytes := ⟨⟨[1]⟩,[7]⟩

/-- A proof over these commitments, signed with the key of the context. -/
private def signed_proof (commitments : List Scalar) : PedersenProof Scalar UInt64 :=
  ⟨commitments,Signer.sign ([7] : Bytes) PEDERSEN_SIG_NS (serialize_commitments commitments)⟩

private def first_packet : SignedPacket Scalar 2 (PedersenProof Scalar UInt64) :=
  ⟨⟨chunk_of 1 [],[1,0],rfl⟩,signed_proof [1,scalar 5]⟩

/-- The sum of the first chunk and twice the second. -/
private def mixed_packet : SignedPacket Scalar 2 (PedersenProof Scalar UInt64) :=
  ⟨⟨chunk_of (scalar 11) [],[1,scalar 2],rfl⟩,signed_proof [1,scalar 5]⟩

/-- A node that accepted two independent packets of the block whose chunks are 1 and 5 forwards valid mixtures only. -/
theorem forwarding_valid_two :
    ∃ decoder proofs, receive_all (PedersenScheme Scalar Scalar Bytes UInt64 2) key_one [first_packet,mixed_packet] =
      .ok (decoder,proofs) ∧ decoder.rank = 2 ∧ ForwardsValid key_one decoder proofs := by
  have ran : (receive_all (PedersenScheme Scalar Scalar Bytes UInt64 2) key_one [first_packet,mixed_packet]).map
      (fun state => (state.1.rank,state.2)) = .ok (2,[signed_proof [1,scalar 5],signed_proof [1,scalar 5]]) := by decide +kernel
  obtain ⟨⟨decoder,proofs⟩,received,same⟩ := map_ok ran
  obtain ⟨rank,rfl⟩ := Prod.mk.inj same
  obtain ⟨first,known,_,valid⟩ := forwarding_valid_iff key_one [first_packet,mixed_packet]
    (by simp [first_packet,mixed_packet,chunk_of,key_one]) (by simp [first_packet,mixed_packet,signed_proof]) decoder _ received
    (by rw [rank]; decide)
  obtain rfl := Option.some.inj known
  exact ⟨decoder,_,received,rank,valid (by simp)⟩

private def second_packet : SignedPacket Scalar 2 (PedersenProof Scalar UInt64) :=
  ⟨⟨chunk_of (scalar 2) [],[0,1],rfl⟩,signed_proof [scalar 7,scalar 2]⟩

/-- A node that accepted packets of two signed blocks, with chunks 1 and 5 and with
    chunks 7 and 2, forwards a packet that does not verify: the data 3 with
    coefficients 1 and 1, under the commitments of the first block. -/
theorem forwarding_two_blocks :
    ∃ decoder proofs, receive_all (PedersenScheme Scalar Scalar Bytes UInt64 2) key_one [first_packet,second_packet] =
        .ok (decoder,proofs) ∧ decoder.rank = 2 ∧
      ∃ chunk proof, decoder.reencode_with [1,1] = .ok chunk ∧
        (PedersenScheme Scalar Scalar Bytes UInt64 2).combine proofs [1,1] = .ok proof ∧
        (PedersenScheme Scalar Scalar Bytes UInt64 2).verify key_one chunk proof = .ok (.error .CommitmentMismatch) :=
  ⟨⟨[first_packet.chunk,second_packet.chunk],2,[[1,0],[0,1]],[0,1],[[1,0],[0,1]]⟩,[signed_proof [1,scalar 5],signed_proof [scalar 7,scalar 2]],
    by decide +kernel,rfl,⟨chunk_of (scalar 3) [],[1,1],rfl⟩,signed_proof [1,scalar 5],by decide +kernel,rfl,by decide +kernel⟩

end

end Rlnc.Pedersen
