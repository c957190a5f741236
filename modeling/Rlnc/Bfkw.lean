import Rlnc.Integrity
import Rlnc.Reference

/-!
The BFKW linearly-homomorphic signatures. A packet is valid under a context when
its signature pairs like the combination of the hash points with `[w || b]`; this
is a linear condition on the packet (`verifies_iff`), so that it holds of what the
proposer signs and of every recoding of valid packets (`recoding_valid`).
-/
namespace Rlnc.Bfkw
open Rlnc.Panics Rlnc.Combination Rlnc.Linalg Rlnc.Wire Rlnc.Packing Rlnc.Coding Rlnc.Draws Rlnc.Groups Rlnc.Integrity
set_option linter.unusedSectionVars false

def BFKW_DST : Bytes := byte_string "RLNC-BFKW-H2G-v1"

inductive BfkwError
  | PairingMismatch
deriving DecidableEq

def BfkwError.display : BfkwError → String
  | .PairingMismatch => "BFKW pairing check failed"

/-- A single signature point. -/
structure BfkwProof (G2 : Type) where
  sigma : G2
deriving DecidableEq

/-- The hash points of a block and the public key of the proposer. -/
structure BfkwContext (G1 G2 : Type) where
  hash_points : List G2
  public_key : G1

section
variable {F G1 G2 : Type} [Field F] [DecidableEq F] [AddCommGroup G1] [Module F G1] [AddCommGroup G2] [Module F G2]
  [Space F G2] [PairingGroup G1 G2]

instance [FixedCodec G2] : IntegrityProof (BfkwProof G2) where
  serialize_proof proof := FixedCodec.write proof.sigma
  deserialize_proof := do
    let sigma ← map_err (fun e => s!"sigma: {e}") (FixedCodec.read_cfg : Reader G2)
    return ⟨sigma⟩
  proof_wire_size _ := FixedCodec.SIZE G2

/-- `hash_points.len().checked_sub(N)` -/
def data_points (N : Nat) (ctx : BfkwContext G1 G2) : Rust Nat :=
  expect (if N ≤ ctx.hash_points.length then some (ctx.hash_points.length - N) else none)
    "hash_points must have at least N elements"

namespace BfkwScheme

def verify {N : Nat} (ctx : BfkwContext G1 G2) (chunk : CodedChunk F N) (proof : BfkwProof G2) :
    Rust (Except BfkwError Unit) := do
  let _m ← data_points N ctx
  let msg := chunk.w.v ++ chunk.b
  let p := Space.msm ctx.hash_points msg
  return if PairingGroup.pairing_check ctx.public_key proof.sigma p then .ok () else .error .PairingMismatch

def combine (proofs : List (BfkwProof G2)) (alphas : List F) : Rust (BfkwProof G2) :=
  let sigmas := proofs.map BfkwProof.sigma
  .ok ⟨Space.msm sigmas alphas⟩

end BfkwScheme

def BfkwScheme (F G1 G2 : Type) [Space F G2] [PairingGroup G1 G2] (N : Nat) :
    IntegrityScheme F N (BfkwContext G1 G2) (BfkwProof G2) BfkwError where
  verify := BfkwScheme.verify
  combine := BfkwScheme.combine
  display := BfkwError.display

/-- `H(id, s)` for `s` in `0..m + N`. -/
def derive_hash_points [HashToGroup G2] (N : Nat) (block_id : Bytes) (m : Nat) : List G2 :=
  (List.range (m + N)).map fun s => HashToGroup.hash_to_group BFKW_DST (block_id ++ to_le_bytes s)

structure BfkwSigner (F G1 : Type) where
  sk : F
  pk : G1

namespace BfkwSigner
variable (self : BfkwSigner F G1) (N : Nat)

def setup_context [HashToGroup G2] (block_id : Bytes) (m : Nat) : BfkwContext G1 G2 :=
  ⟨derive_hash_points N block_id m,self.pk⟩

/-- Sign one original chunk, augmented with its basis vector. -/
def sign (ctx : BfkwContext G1 G2) (chunk_index : Nat) (v_i : List F) : Rust (BfkwProof G2) := do
  let m ← data_points N ctx
  require (v_i.length = m) s!"chunk must have m={m} elements, got {v_i.length}"
  require (chunk_index < N) s!"chunk_index {chunk_index} out of range [0, {N})"
  let m_prime := v_i ++ (List.range N).map (fun j => if j = chunk_index then 1 else 0)
  let p := Space.msm ctx.hash_points m_prime
  return ⟨self.sk • p⟩

/-- Sign all original chunks and combine the signatures with `b`. -/
def sign_coded (ctx : BfkwContext G1 G2) (chunks : List (List F)) (b : List F) : Rust (BfkwProof G2) := do
  require (chunks.length = N) s!"expected N={N} chunks, got {chunks.length}"
  let individual ← chunks.zipIdx.mapM (fun (v,i) => self.sign N ctx i v)
  BfkwScheme.combine individual b

/-- The public key belongs to the secret key. -/
def Keyed (G2 : Type) [PairingGroup G1 G2] (self : BfkwSigner F G1) : Prop :=
  self.pk = self.sk • (PairingGroup.generator G2 : G1)

end BfkwSigner

/-! ### The verification equation is linear -/

/-- A context as `setup_context` builds it, with a key pair behind it. -/
structure Keyed (m N : Nat) (sk : F) (ctx : BfkwContext G1 G2) : Prop where
  points : ctx.hash_points.length = m + N
  key : ctx.public_key = sk • (PairingGroup.generator G2 : G1)

/-- The combination of the hash points with `[w || b]`. -/
def message_point (m N : Nat) (ctx : BfkwContext G1 G2) : ((Fin m → F) × (Fin N → F)) →ₗ[F] G2 :=
  (weigh m (ctx.hash_points.take m)).coprod (weigh N (ctx.hash_points.drop m))

variable [LawfulSpace F G2] {m N : Nat} {ctx : BfkwContext G1 G2} {sk : F}

private theorem msm_message (points : ctx.hash_points.length = m + N) {w b : List F} (wide : w.length = m)
    (long : b.length = N) :
    Space.msm ctx.hash_points (w ++ b) = message_point m N ctx (coords m w,coords N b) := by
  have left : (ctx.hash_points.take m).length = m := by rw [List.length_take]; omega
  have right : (ctx.hash_points.drop m).length = N := by rw [List.length_drop]; omega
  rw [LawfulSpace.msm_eq _ _ (by rw [points,List.length_append,wide,long])]
  conv_lhs => rw [← List.take_append_drop m ctx.hash_points]
  rw [comb_append _ _ _ _ (wide.trans left.symm),comb_eq_weigh w left,comb_eq_weigh b right]
  rfl

/-- Verification returns, and checks the pairing with the message point. -/
theorem verify_eq (points : ctx.hash_points.length = m + N) (chunk : CodedChunk F N) (wide : chunk.w.v.length = m)
    (proof : BfkwProof G2) :
    BfkwScheme.verify ctx chunk proof = .ok (if PairingGroup.pairing_check ctx.public_key proof.sigma
      (message_point m N ctx (coords m chunk.w.v,chunk.coefficients)) then .ok () else .error .PairingMismatch) := by
  have enough : data_points N ctx = .ok (ctx.hash_points.length - N) := by
    rw [data_points,if_pos (by omega)]; rfl
  simp only [BfkwScheme.verify,enough,ok_bind,msm_message points wide chunk.b_length,pure_eq]
  rfl

variable [LawfulPairing F G1 G2]

/-- A packet verifies exactly when a linear function of its data, its coefficients
    and its signature vanishes; signatures with the secret key make it vanish. -/
theorem verifies_linear (keyed : Keyed m N sk ctx) :
    ∃ (GT : Type) (_ : AddCommGroup GT) (_ : Module F GT)
      (defect : (((Fin m → F) × (Fin N → F)) × G2) →ₗ[F] GT),
      (∀ (chunk : CodedChunk F N) (proof : BfkwProof G2), chunk.w.v.length = m →
        (Verifies (BfkwScheme F G1 G2 N) ctx ⟨chunk,proof⟩ ↔
          defect ((coords m chunk.w.v,chunk.coefficients),proof.sigma) = 0)) ∧
      ∀ x, defect (x,sk • message_point m N ctx x) = 0 := by
  obtain ⟨GT,_,_,e,checks⟩ := (inferInstance : LawfulPairing F G1 G2).bilinear
  refine ⟨GT,inferInstance,inferInstance,
    (e (PairingGroup.generator G2)).comp (LinearMap.snd F _ _) -
      ((e ctx.public_key).comp (message_point m N ctx)).comp (LinearMap.fst F _ _),?_,?_⟩
  · intro chunk proof wide
    have ran := verify_eq keyed.points chunk wide proof
    have pairs := checks ctx.public_key proof.sigma (message_point m N ctx (coords m chunk.w.v,chunk.coefficients))
    simp only [Verifies,BfkwScheme,ran,LinearMap.sub_apply,LinearMap.comp_apply,LinearMap.snd_apply,
      LinearMap.fst_apply,sub_eq_zero,← pairs]
    split <;> simp_all
  · intro x
    simp [keyed.key]

/-- Any mix of valid packets is valid. -/
theorem mix_verifies (keyed : Keyed m N sk ctx) {packets : List (SignedPacket F N (BfkwProof G2))}
    (valid : ∀ p ∈ packets, Verifies (BfkwScheme F G1 G2 N) ctx p ∧ p.chunk.w.v.length = m) {alphas : List F}
    {chunk : CodedChunk F N} {proof : BfkwProof G2} (wide : chunk.w.v.length = m)
    (data : coords m chunk.w.v = comb alphas (packets.map (fun p => coords m p.chunk.w.v)))
    (coefficients : chunk.coefficients = comb alphas (packets.map (fun p => p.chunk.coefficients)))
    (sigma : proof.sigma = comb alphas (packets.map (fun p => p.proof.sigma))) :
    Verifies (BfkwScheme F G1 G2 N) ctx ⟨chunk,proof⟩ := by
  obtain ⟨GT,_,_,defect,verifies,_⟩ := verifies_linear (F := F) keyed
  rw [verifies chunk proof wide]
  let parts : SignedPacket F N (BfkwProof G2) → ((Fin m → F) × (Fin N → F)) × G2 :=
    fun p => ((coords m p.chunk.w.v,p.chunk.coefficients),p.proof.sigma)
  have mixed : ((coords m chunk.w.v,chunk.coefficients),proof.sigma) = comb alphas (packets.map parts) := by
    have first := map_comb (LinearMap.fst F ((Fin m → F) × (Fin N → F)) G2) alphas (packets.map parts)
    have second := map_comb (LinearMap.snd F ((Fin m → F) × (Fin N → F)) G2) alphas (packets.map parts)
    have left := map_comb (LinearMap.fst F (Fin m → F) (Fin N → F)) alphas
      ((packets.map parts).map (LinearMap.fst F ((Fin m → F) × (Fin N → F)) G2))
    have right := map_comb (LinearMap.snd F (Fin m → F) (Fin N → F)) alphas
      ((packets.map parts).map (LinearMap.fst F ((Fin m → F) × (Fin N → F)) G2))
    rw [← first] at left right
    simp only [List.map_map] at left right second
    refine Prod.ext (Prod.ext ?_ ?_) ?_
    · exact data.trans left.symm
    · exact coefficients.trans right.symm
    · exact sigma.trans second.symm
  rw [mixed,map_comb]
  apply comb_zero_vectors
  intro t listed
  rw [List.map_map] at listed
  obtain ⟨p,member,rfl⟩ := List.mem_map.mp listed
  obtain ⟨good,width⟩ := valid p member
  exact (verifies p.chunk p.proof width).mp good

/-! ### What the proposer signs -/

/-- The indicator list of the basis vector trick is a unit vector. -/
private theorem coords_basis (i : Nat) :
    coords N ((List.range N).map (fun j => if j = i then (1 : F) else 0)) = fun j => if j.val = i then 1 else 0 := by
  funext j
  simp [List.getD_eq_getElem?_getD]

theorem sign_spec (signer : BfkwSigner F G1) (points : ctx.hash_points.length = m + N) {v : List F} {i : Nat}
    (wide : v.length = m) (inside : i < N) :
    signer.sign N ctx i v =
      .ok ⟨signer.sk • message_point m N ctx (coords m v,fun j => if j.val = i then 1 else 0)⟩ := by
  have enough : data_points N ctx = .ok m := by
    rw [data_points,if_pos (by omega),show ctx.hash_points.length - N = m by omega]; rfl
  simp only [BfkwSigner.sign,enough,ok_bind,require_of wide,require_of inside,pure_eq]
  rw [msm_message points wide (by simp),coords_basis]

/-- The signature of a coded chunk is the secret multiple of its message point. -/
theorem sign_coded_spec (signer : BfkwSigner F G1) (points : ctx.hash_points.length = m + N) {chunks : List (List F)}
    (count : chunks.length = N) (sizes : ∀ v ∈ chunks, v.length = m) {b : List F} (long : b.length = N) :
    signer.sign_coded N ctx chunks b =
      .ok ⟨signer.sk • message_point m N ctx (comb b (chunks.map (coords m)),coords N b)⟩ := by
  let augmented : List F × Nat → (Fin m → F) × (Fin N → F) := fun c => (coords m c.1,fun j => if j.val = c.2 then 1 else 0)
  let signature : List F × Nat → BfkwProof G2 := fun c => ⟨signer.sk • message_point m N ctx (augmented c)⟩
  obtain ⟨individual,ran,each⟩ := map_keeps (fun c => signer.sign N ctx c.2 c.1) (fun c proof => signature c = proof)
    chunks.zipIdx (by
      rintro ⟨v,i⟩ listed
      have inside := List.mem_zipIdx' listed
      refine ⟨signature (v,i),sign_spec signer points (sizes v ?_) (by omega),rfl⟩
      rw [inside.2]
      exact List.getElem_mem _)
  have same : individual = chunks.zipIdx.map signature := by
    have mapped := List.forall₂_map_left_iff.mpr each
    rw [List.forall₂_eq_eq_eq] at mapped
    exact mapped.symm
  have sigmas : individual.map BfkwProof.sigma =
      ((chunks.zipIdx.map augmented).map (message_point m N ctx)).map (signer.sk • ·) := by
    rw [same,List.map_map,List.map_map,List.map_map]
    rfl
  have sum : comb b (chunks.zipIdx.map augmented) = (comb b (chunks.map (coords m)),coords N b) := by
    have first := map_comb (LinearMap.fst F (Fin m → F) (Fin N → F)) b (chunks.zipIdx.map augmented)
    have second := map_comb (LinearMap.snd F (Fin m → F) (Fin N → F)) b (chunks.zipIdx.map augmented)
    rw [List.map_map] at first second
    refine Prod.ext (first.trans ?_) (second.trans ?_)
    · have data : chunks.zipIdx.map (LinearMap.fst F (Fin m → F) (Fin N → F) ∘ augmented) = chunks.map (coords m) := by
        conv_rhs => rw [← List.zipIdx_map_fst 0 chunks,List.map_map]
        rfl
      rw [data]
    · have units : chunks.zipIdx.map (LinearMap.snd F (Fin m → F) (Fin N → F) ∘ augmented) =
          (List.range N).map (fun i (j : Fin N) => if j.val = i then (1 : F) else 0) := by
        have indices := List.zipIdx_map_snd 0 chunks
        rw [count,← List.range_eq_range'] at indices
        rw [← indices,List.map_map]
        rfl
      rw [units,comb_units b N]
  have total : Space.msm (individual.map BfkwProof.sigma) b =
      signer.sk • message_point m N ctx (comb b (chunks.map (coords m)),coords N b) := by
    rw [LawfulSpace.msm_eq _ _ (by rw [same]; simp [count,long]),sigmas,comb_smul_vectors,← map_comb,sum]
  simp only [BfkwSigner.sign_coded,require_of count,ok_bind]
  rw [ran]
  simp only [ok_bind,BfkwScheme.combine,total]

/-- The contexts that `setup_context` builds are keyed. -/
theorem setup_keyed [HashToGroup G2] (signer : BfkwSigner F G1) (keyed : signer.Keyed G2) (block_id : Bytes) :
    Keyed m N signer.sk (signer.setup_context N block_id m : BfkwContext G1 G2) :=
  ⟨by simp [BfkwSigner.setup_context,derive_hash_points],keyed⟩

/-- A packet that encodes the chunks and is signed by the proposer is valid. -/
theorem signed_verifies (signer : BfkwSigner F G1) (keyed : Keyed m N signer.sk ctx) {originals : List (Chunk F)}
    (count : originals.length = N) (sizes : ∀ v ∈ originals, v.v.length = m) {chunk : CodedChunk F N}
    (encodes : Encodes m originals chunk) :
    ∃ proof, signer.sign_coded N ctx (originals.map Chunk.v) chunk.b = .ok proof ∧
      Verifies (BfkwScheme F G1 G2 N) ctx ⟨chunk,proof⟩ := by
  refine ⟨_,sign_coded_spec signer keyed.points (by simp [count]) (by
    intro v listed
    obtain ⟨c,member,rfl⟩ := List.mem_map.mp listed
    exact sizes c member) chunk.b_length,?_⟩
  obtain ⟨GT,_,_,defect,verifies,signed⟩ := verifies_linear (F := F) keyed
  have data : comb chunk.b ((originals.map Chunk.v).map (coords m)) = coords m chunk.w.v := by
    rw [encodes.combined,List.map_map]; rfl
  rw [verifies chunk _ encodes.width,data]
  exact signed _

/-- A packet forwarded from stored packets is valid. -/
theorem forwarded_verifies (keyed : Keyed m N sk ctx) {packets : List (SignedPacket F N (BfkwProof G2))}
    {decoder : BlockDecoder F N} {proofs : List (BfkwProof G2)}
    (stored : Stored (BfkwScheme F G1 G2 N) ctx m packets decoder proofs) (some_packet : packets ≠ []) {alphas : List F}
    (long : alphas.length = packets.length) :
    ∃ chunk proof, decoder.reencode_with alphas = .ok chunk ∧ (BfkwScheme F G1 G2 N).combine proofs alphas = .ok proof ∧
      chunk.w.v.length = m ∧ Verifies (BfkwScheme F G1 G2 N) ctx ⟨chunk,proof⟩ := by
  obtain ⟨chunk,ran,wide,data,coefficients⟩ := stored.reencode some_packet long
  refine ⟨chunk,_,ran,rfl,wide,mix_verifies keyed (fun p member => ⟨stored.verified p member,stored.width p member⟩) wide
    data coefficients ?_⟩
  simp only
  rw [LawfulSpace.msm_eq _ _ (by rw [stored.aligned]; simp [long]),stored.aligned,List.map_map]
  rfl

/-- What a proposer sends for these chunks: an encoded chunk with its signature. -/
def Signed (signer : BfkwSigner F G1) (ctx : BfkwContext G1 G2) (originals : List (Chunk F)) (N : Nat)
    (packet : SignedPacket F N (BfkwProof G2)) : Prop :=
  linear_combination (originals.map Chunk.v) packet.chunk.b = .ok packet.chunk.w.v ∧
    signer.sign_coded N ctx (originals.map Chunk.v) packet.chunk.b = .ok packet.proof

private theorem signed_encodes {originals : List (Chunk F)} (sizes : ∀ v ∈ originals, v.v.length = m)
    {chunk : CodedChunk F N} (ran : linear_combination (originals.map Chunk.v) chunk.b = .ok chunk.w.v) :
    Encodes m originals chunk := by
  have nonempty : originals.map Chunk.v ≠ [] := by
    intro empty
    rw [empty,linear_combination_empty] at ran
    cases ran
  have same : (originals.map Chunk.v).length = chunk.b.length := by
    by_contra different
    simp only [linear_combination,require_of nonempty,ok_bind,require_not different,error_bind] at ran
    cases ran
  obtain ⟨r,ran',width,value⟩ := linear_combination_spec m _ _ nonempty same (by
    intro v listed
    obtain ⟨c,member,rfl⟩ := List.mem_map.mp listed
    exact sizes c member)
  obtain rfl : r = chunk.w.v := Except.ok.inj (ran'.symm.trans ran)
  exact ⟨width,by rw [value,List.map_map]; rfl⟩

/-- Under a context of the proposer's key, every coded chunk that the proposer signs
    verifies; every packet that a node forwards verifies, whatever packets it had
    received; so every packet verifies that a chain of nodes makes from the proposer's. -/
theorem recoding_valid [HashToGroup G2] (signer : BfkwSigner F G1) (keyed : signer.Keyed G2) (block_id : Bytes)
    (m N : Nat) (originals : List (Chunk F)) (some_chunk : 0 < N) (count : originals.length = N)
    (sizes : ∀ v ∈ originals, v.v.length = m) :
    (∀ b : List F, b.length = N → ∃ chunk : CodedChunk F N, ∃ proof, chunk.b = b ∧
      linear_combination (originals.map Chunk.v) b = .ok chunk.w.v ∧
      signer.sign_coded N (signer.setup_context N block_id m) (originals.map Chunk.v) b = .ok proof ∧
      Verifies (BfkwScheme F G1 G2 N) (signer.setup_context N block_id m) ⟨chunk,proof⟩) ∧
    (∀ (received : List (SignedPacket F N (BfkwProof G2))) decoder proofs, (∀ p ∈ received, p.chunk.w.v.length = m) →
      receive_all (BfkwScheme F G1 G2 N) (signer.setup_context N block_id m) received = .ok (decoder,proofs) →
      1 ≤ decoder.rank → ∀ alphas : List F, alphas.length = decoder.rank → ∃ chunk proof,
        decoder.reencode_with alphas = .ok chunk ∧ (BfkwScheme F G1 G2 N).combine proofs alphas = .ok proof ∧
        Verifies (BfkwScheme F G1 G2 N) (signer.setup_context N block_id m) ⟨chunk,proof⟩) ∧
    ∀ packet, Recoded (BfkwScheme F G1 G2 N) (signer.setup_context N block_id m)
      (Signed signer (signer.setup_context N block_id m) originals N) packet →
      Verifies (BfkwScheme F G1 G2 N) (signer.setup_context N block_id m) packet := by
  have context := setup_keyed (m := m) (N := N) signer keyed block_id
  refine ⟨?_,?_,?_⟩
  · intro b long
    obtain ⟨data,ran,width,value⟩ := linear_combination_spec m (originals.map Chunk.v) b
      (List.ne_nil_of_length_pos (by simpa [count])) (by simp [count,long]) (by
        intro v listed
        obtain ⟨c,member,rfl⟩ := List.mem_map.mp listed
        exact sizes c member)
    obtain ⟨v,member⟩ := List.exists_mem_of_length_pos (l := originals) (by omega)
    have positive := List.length_pos_of_ne_nil v.nonempty
    rw [sizes v member] at positive
    let chunk : CodedChunk F N := ⟨⟨data,List.ne_nil_of_length_pos (by omega)⟩,b,long⟩
    obtain ⟨proof,signed,good⟩ := signed_verifies signer context count sizes
      (show Encodes m originals chunk from signed_encodes sizes ran)
    exact ⟨chunk,proof,rfl,ran,signed,good⟩
  · intro received decoder proofs wide ran some_rank alphas long
    obtain ⟨packets,stored,_⟩ := receive_all_stored wide ran
    rw [stored.rank] at some_rank long
    obtain ⟨chunk,proof,mixed,combined,_,good⟩ := forwarded_verifies context stored
      (List.ne_nil_of_length_pos some_rank) long
    exact ⟨chunk,proof,mixed,combined,good⟩
  · -- by induction over the chain, the packets also keep their width
    intro packet recoded
    suffices both : Verifies (BfkwScheme F G1 G2 N) (signer.setup_context N block_id m) packet ∧
        packet.chunk.w.v.length = m from both.1
    induction recoded with
    | @source packet made =>
      obtain ⟨combined,signed⟩ := made
      have encodes := signed_encodes sizes combined
      obtain ⟨proof,signed',good⟩ := signed_verifies signer context count sizes encodes
      obtain rfl : proof = packet.proof := Except.ok.inj (signed'.symm.trans signed)
      exact ⟨good,encodes.width⟩
    | @forwarded received decoder proofs alphas chunk proof _ ran mixed combined ih =>
      obtain ⟨packets,stored,_⟩ := receive_all_stored (fun p member => (ih p member).2) ran
      have some_packet : packets ≠ [] := by
        rintro rfl
        have none : decoder.coded_chunks = [] := stored.chunks
        rw [BlockDecoder.reencode_with,require_not (by simp [none])] at mixed
        cases mixed
      have long : alphas.length = packets.length := by
        by_contra different
        rw [BlockDecoder.reencode_with,require_of (by rw [stored.chunks]; simpa using some_packet),ok_bind,
          require_not (by rw [stored.chunks,List.length_map]; exact different)] at mixed
        cases mixed
      obtain ⟨chunk',proof',mixed',combined',width,good⟩ := forwarded_verifies context stored some_packet long
      obtain rfl : chunk' = chunk := Except.ok.inj (mixed'.symm.trans mixed)
      obtain rfl : proof' = proof := Except.ok.inj (combined'.symm.trans combined)
      exact ⟨good,width⟩

end

section
open Rlnc.Scalars Rlnc.Reference

private def two_chunks : List (Chunk Scalar) := [chunk_of 1 [],chunk_of (scalar 2) []]

private def signer_three : BfkwSigner Scalar Scalar := ⟨scalar 3,scalar 3⟩

/-- Two chunks of one scalar under the secret key 3. -/
theorem recoding_valid_two :
    (∀ b : List Scalar, b.length = 2 → ∃ chunk : CodedChunk Scalar 2, ∃ proof, chunk.b = b ∧
      linear_combination (two_chunks.map Chunk.v) b = .ok chunk.w.v ∧
      signer_three.sign_coded 2 (signer_three.setup_context 2 [0,7] 1) (two_chunks.map Chunk.v) b = .ok proof ∧
      Verifies (BfkwScheme Scalar Scalar Scalar 2) (signer_three.setup_context 2 [0,7] 1) ⟨chunk,proof⟩) ∧
    (∀ (received : List (SignedPacket Scalar 2 (BfkwProof Scalar))) decoder proofs,
      (∀ p ∈ received, p.chunk.w.v.length = 1) →
      receive_all (BfkwScheme Scalar Scalar Scalar 2) (signer_three.setup_context 2 [0,7] 1) received =
        .ok (decoder,proofs) →
      1 ≤ decoder.rank → ∀ alphas : List Scalar, alphas.length = decoder.rank → ∃ chunk proof,
        decoder.reencode_with alphas = .ok chunk ∧ (BfkwScheme Scalar Scalar Scalar 2).combine proofs alphas = .ok proof ∧
        Verifies (BfkwScheme Scalar Scalar Scalar 2) (signer_three.setup_context 2 [0,7] 1) ⟨chunk,proof⟩) ∧
    ∀ packet, Recoded (BfkwScheme Scalar Scalar Scalar 2) (signer_three.setup_context 2 [0,7] 1)
      (Signed signer_three (signer_three.setup_context 2 [0,7] 1) two_chunks 2) packet →
      Verifies (BfkwScheme Scalar Scalar Scalar 2) (signer_three.setup_context 2 [0,7] 1) packet :=
  recoding_valid signer_three (by simp [BfkwSigner.Keyed,signer_three,PairingGroup.generator]) [0,7] 1 2 two_chunks
    (by decide) rfl (by simp [two_chunks,chunk_of])

end

end Rlnc.Bfkw
