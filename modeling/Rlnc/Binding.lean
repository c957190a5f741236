import Rlnc.Pedersen

/-!
What the Pedersen scheme is for. Under binding commitments and a signature of one
block only, a packet verifies exactly when it carries the signed commitments and
its data is the combination of the chunks of the block (`verifies_iff_encodes`); a
node that receives whatever it is sent therefore decodes the block or nothing
(`pollution_resistant`).
-/
namespace Rlnc.Binding
open Rlnc.Panics Rlnc.Combination Rlnc.Wire Rlnc.Packing Rlnc.Coding Rlnc.Groups Rlnc.Integrity Rlnc.Pedersen
set_option linter.unusedSectionVars false

section
variable {F G S PublicKey Signature : Type} [Field F] [DecidableEq F] [AddCommGroup G] [DecidableEq G] [Module F G]
  [Space F G] [FixedCodec G] [Verifier PublicKey Signature] [Signer S PublicKey Signature] {N m : Nat}

variable (F) in
/-- No two vectors have the same commitment. -/
def BindingKey (key : CommitmentKey G) : Prop := LinearIndependent F key.generators.get

/-- One generator other than zero is binding. -/
theorem one_generator_binding {g : G} (nonzero : g ≠ 0) : BindingKey F (⟨[g]⟩ : CommitmentKey G) := by
  change LinearIndependent F (fun i : Fin 1 => [g].get i)
  exact LinearIndependent.of_subsingleton 0 nonzero

variable (Signature) in
/-- The key of the context accepts signatures over these commitments only. -/
def SignedOnly (ctx : PedersenContext G PublicKey) (commitments : List G) : Prop :=
  ∀ (msg : Bytes) (signature : Signature), Verifier.verify ctx.public_key PEDERSEN_SIG_NS msg signature = true →
    msg = serialize_commitments commitments

/-- Encodings of one positive size make the concatenation injective. -/
theorem serialize_commitments_injective {size : Nat} (positive : 0 < size)
    (fixed : ∀ x : G, (FixedCodec.write x).length = size) (injective : Function.Injective (FixedCodec.write : G → Bytes))
    {xs ys : List G} (same : serialize_commitments xs = serialize_commitments ys) : xs = ys := by
  induction xs generalizing ys with
  | nil =>
    cases ys with
    | nil => rfl
    | cons y ys =>
      have lengths := congrArg List.length same
      simp only [serialize_commitments,List.map_nil,List.flatten_nil,List.length_nil,List.map_cons,List.flatten_cons,
        List.length_append,fixed] at lengths
      omega
  | cons x xs ih =>
    cases ys with
    | nil =>
      have lengths := congrArg List.length same
      simp only [serialize_commitments,List.map_nil,List.flatten_nil,List.length_nil,List.map_cons,List.flatten_cons,
        List.length_append,fixed] at lengths
      omega
    | cons y ys =>
      obtain ⟨first,rest⟩ := List.append_inj same ((fixed x).trans (fixed y).symm)
      rw [injective first,ih rest]

/-- Points that a binding key tells apart are encoded in some bytes. -/
theorem encoded_size_positive {key : CommitmentKey G} (binding : BindingKey F key) (some_point : 0 < key.generators.length)
    {size : Nat} (fixed : ∀ x : G, (FixedCodec.write x).length = size)
    (injective : Function.Injective (FixedCodec.write : G → Bytes)) : 0 < size := by
  rcases Nat.eq_zero_or_pos size with zero | positive
  · have empty : ∀ x : G, FixedCodec.write x = [] := fun x => List.eq_nil_of_length_eq_zero ((fixed x).trans zero)
    have nonzero := LinearIndependent.ne_zero (⟨0,some_point⟩ : Fin key.generators.length) binding
    exact absurd (injective ((empty _).trans (empty 0).symm)) nonzero
  · exact positive

/-- Under a binding key a chunk matches the commitments to a block exactly when it encodes the block. -/
theorem matches_iff_encodes [LawfulSpace F G] {ctx : PedersenContext G PublicKey} (binding : BindingKey F ctx.key)
    {originals : List (Chunk F)} (count : originals.length = N)
    (sizes : ∀ v ∈ originals, v.v.length = ctx.key.generators.length) (chunk : CodedChunk F N)
    (wide : chunk.w.v.length = ctx.key.generators.length) :
    Matches ctx chunk (commitments ctx.key originals) ↔ Encodes ctx.key.generators.length originals chunk := by
  have injective : Function.Injective (weigh (F := F) ctx.key.generators.length ctx.key.generators) := by
    have independent := linearIndependent_iff_injective_fintypeLinearCombination.mp binding
    have same : (fun i : Fin ctx.key.generators.length => ctx.key.generators.getD i 0) = ctx.key.generators.get := by
      funext i
      simp [List.getD_eq_getElem?_getD]
    rw [weigh,same]
    exact independent
  constructor
  · intro matched
    exact ⟨wide,injective ((matches_commitments rfl count sizes wide).mp matched)⟩
  · exact encodes_matches rfl count sizes

/-- What verifies carries the signed commitments and encodes the block. -/
theorem verifies_iff_encodes [LawfulSpace F G] {ctx : PedersenContext G PublicKey} (binding : BindingKey F ctx.key)
    {originals : List (Chunk F)} (count : originals.length = N)
    (sizes : ∀ v ∈ originals, v.v.length = ctx.key.generators.length) {size : Nat}
    (fixed : ∀ x : G, (FixedCodec.write x).length = size) (injective : Function.Injective (FixedCodec.write : G → Bytes))
    (only : SignedOnly Signature ctx (commitments ctx.key originals)) (chunk : CodedChunk F N)
    (proof : PedersenProof G Signature) :
    PedersenScheme.verify ctx chunk proof = .ok (.ok ()) ↔
      (proof.commitments = commitments ctx.key originals ∧ Authentic ctx proof) ∧
        Encodes ctx.key.generators.length originals chunk := by
  by_cases wide : chunk.w.v.length = ctx.key.generators.length
  · have valid := verifies_iff chunk wide proof
    rw [Verifies] at valid
    refine valid.trans ⟨?_,?_⟩
    · rintro ⟨authentic,same⟩
      -- the key has as many independent points as the chunk has elements, so the group has two elements
      have some_point : 0 < ctx.key.generators.length := wide ▸ List.length_pos_of_ne_nil chunk.w.nonempty
      have positive := encoded_size_positive binding some_point fixed injective
      have carried := serialize_commitments_injective positive fixed injective (only _ _ authentic)
      rw [carried] at same
      exact ⟨⟨carried,authentic⟩,(matches_iff_encodes binding count sizes chunk wide).mp same⟩
    · rintro ⟨⟨carried,authentic⟩,encoded⟩
      rw [carried]
      exact ⟨authentic,(matches_iff_encodes binding count sizes chunk wide).mpr encoded⟩
  · constructor
    · intro ran
      simp only [PedersenScheme.verify,CommitmentKey.verify,CommitmentKey.commit] at ran
      split at ran
      · cases ran
      · rw [require_not wide] at ran
        cases ran
    · rintro ⟨_,encoded⟩
      exact absurd encoded.width wide

/-- Under a binding key whose owner signed one block, exactly the combinations of its
    chunks with its signed commitments verify; whatever packets a node receives, it
    decodes this block once its decoder is complete. -/
theorem pollution_resistant [LawfulSpace F G] (signer : PedersenSigner S) (ctx : PedersenContext G PublicKey)
    (originals : List (Chunk F)) (count : originals.length = N) (signed : PedersenProof G Signature)
    (ran : signer.sign_block ctx.key (originals.map Chunk.v) = .ok signed) (accepted : Authentic ctx signed)
    (only : SignedOnly Signature ctx signed.commitments) (binding : BindingKey F ctx.key)
    (fixed : ∀ x : G, (FixedCodec.write x).length = FixedCodec.SIZE G)
    (injective : Function.Injective (FixedCodec.write : G → Bytes)) :
    (∀ (chunk : CodedChunk F N) (proof : PedersenProof G Signature),
      PedersenScheme.verify ctx chunk proof = .ok (.ok ()) ↔
        (proof.commitments = signed.commitments ∧ Authentic ctx proof) ∧
          Encodes ctx.key.generators.length originals chunk) ∧
    (∀ chunk : CodedChunk F N, PedersenScheme.verify ctx chunk signed = .ok (.ok ()) ↔
      Encodes ctx.key.generators.length originals chunk) ∧
    ∀ received : List (SignedPacket F N (PedersenProof G Signature)),
      (∀ p ∈ received, p.chunk.w.v.length = ctx.key.generators.length) →
      ∃ decoder proofs, receive_all (PedersenScheme F G PublicKey Signature N) ctx received = .ok (decoder,proofs) ∧
        (decoder.is_complete = true → decoder.decode = .ok originals) := by
  obtain ⟨committed,sizes⟩ := sign_block_commits ran
  rw [committed] at only ⊢
  have exact_packets : ∀ (chunk : CodedChunk F N) (proof : PedersenProof G Signature), _ :=
    verifies_iff_encodes binding count sizes fixed injective only
  refine ⟨exact_packets,?_,?_⟩
  · intro chunk
    rw [exact_packets chunk signed]
    exact and_iff_right ⟨committed,accepted⟩
  · intro received wide
    obtain ⟨decoder,proofs,packets,received_all,stored,_⟩ :=
      receive_all_runs (S := PedersenScheme F G PublicKey Signature N) wide
        (fun p member => ⟨_,verify_eq p.chunk (wide p member) p.proof⟩)
    refine ⟨decoder,proofs,received_all,fun complete => ?_⟩
    apply BlockDecoder.decode_encoded stored.sound complete count sizes
    intro c member
    rw [stored.chunks] at member
    obtain ⟨p,listed,rfl⟩ := List.mem_map.mp member
    exact ((exact_packets p.chunk p.proof).mp (stored.verified p listed)).2

end

section
open Rlnc.Scalars Rlnc.Reference

private def two_originals : List (Chunk Scalar) := [chunk_of 1 [],chunk_of (scalar 5) []]

private def signed_once : PedersenProof Scalar UInt64 := ⟨[1,scalar 5],0⟩

private def context_once : PedersenContext Scalar Registry := ⟨⟨[1]⟩,⟨[serialize_commitments [(1 : Scalar),scalar 5]]⟩⟩

/-- A block with the chunks 1 and 5, and one generator. -/
theorem pollution_resistant_two :
    (∀ (chunk : CodedChunk Scalar 2) (proof : PedersenProof Scalar UInt64),
      PedersenScheme.verify context_once chunk proof = .ok (.ok ()) ↔
        (proof.commitments = [1,scalar 5] ∧ Authentic context_once proof) ∧ Encodes 1 two_originals chunk) ∧
    (∀ chunk : CodedChunk Scalar 2, PedersenScheme.verify context_once chunk signed_once = .ok (.ok ()) ↔
      Encodes 1 two_originals chunk) ∧
    ∀ received : List (SignedPacket Scalar 2 (PedersenProof Scalar UInt64)), (∀ p ∈ received, p.chunk.w.v.length = 1) →
      ∃ decoder proofs, receive_all (PedersenScheme Scalar Scalar Registry UInt64 2) context_once received =
          .ok (decoder,proofs) ∧ (decoder.is_complete = true → decoder.decode = .ok two_originals) :=
  pollution_resistant ⟨context_once.public_key⟩ context_once two_originals rfl signed_once (by decide +kernel)
    (by simp [Authentic,Verifier.verify,context_once,signed_once])
    (by simp [SignedOnly,Verifier.verify,context_once,signed_once])
    (one_generator_binding one_ne_zero)
    (fun _ => to_be_length 32 _) scalar_write_injective

end

end Rlnc.Binding
