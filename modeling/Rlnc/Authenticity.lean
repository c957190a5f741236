import Rlnc.Bfkw

/-!
What a BFKW signature authenticates. The hash points of a block are made from inputs
that no other pair of a block and an index has (`hash_input_injective`); if the points
of distinct inputs are independent, then a signature is accepted for one vector of one
block only, except for the zero vector (`signature_of_one_vector`).
-/
namespace Rlnc.Authenticity
open Rlnc.Panics Rlnc.Combination Rlnc.Wire Rlnc.Packing Rlnc.Coding Rlnc.Groups Rlnc.Integrity Rlnc.Bfkw
set_option linter.unusedSectionVars false

/-- The input of the hash point with index `s` of a block. -/
def hash_input (block_id : Bytes) (s : Nat) : Bytes := block_id ++ to_le_bytes s

/-- The inputs of all hash points of a block. -/
def hashed (N : Nat) (block_id : Bytes) (m : Nat) : Set Bytes := {input | ∃ s < m + N, hash_input block_id s = input}

/-- The index takes the last eight bytes of the input. -/
theorem hash_input_injective {block_id block_id' : Bytes} {s s' : Nat} (small : s < 2 ^ 64) (small' : s' < 2 ^ 64)
    (same : hash_input block_id s = hash_input block_id' s') : block_id = block_id' ∧ s = s' := by
  obtain ⟨ids,indices⟩ := List.append_inj' same (by simp [to_le_bytes])
  have bytes : to_be 8 s = to_be 8 s' := List.reverse_injective indices
  have word : (2 : Nat) ^ 64 = 256 ^ 8 := by norm_num
  rw [word] at small small'
  refine ⟨ids,?_⟩
  rw [← of_be_to_be_of_lt small,← of_be_to_be_of_lt small',bytes]

section
variable {F G1 G2 : Type} [Field F] [DecidableEq F] [AddCommGroup G1] [Module F G1] [AddCommGroup G2] [Module F G2]
  [Space F G2] [PairingGroup G1 G2] [HashToGroup G2] {N m : Nat}

/-- The hash points of a block are those of its inputs. -/
theorem derive_hash_points_get (block_id : Bytes) {s : Nat} (inside : s < m + N) :
    (derive_hash_points N block_id m : List G2)[s]? =
      some (HashToGroup.hash_to_group BFKW_DST (hash_input block_id s)) := by
  simp [derive_hash_points,hash_input,inside]

/-- The combination of the hash points of a block with a vector. -/
theorem comb_hash_points (block_id : Bytes) (msg : List F) :
    comb msg (derive_hash_points N block_id m : List G2) =
      ∑ i : Fin (m + N), coords (m + N) msg i • (HashToGroup.hash_to_group BFKW_DST (hash_input block_id i) : G2) := by
  have count : (derive_hash_points N block_id m : List G2).length = m + N := by simp [derive_hash_points]
  rw [comb_eq_weigh msg count,weigh,Fintype.linearCombination_apply]
  refine Finset.sum_congr rfl fun i _ => ?_
  rw [List.getD_eq_getElem?_getD,derive_hash_points_get block_id i.isLt]
  rfl

variable {block_id block_id' : Bytes}

/-- Independent points of one block have one combination for each vector. -/
theorem same_block (word : m + N ≤ 2 ^ 64)
    (independent : LinearIndepOn F (HashToGroup.hash_to_group BFKW_DST : Bytes → G2) (hashed N block_id m))
    {msg msg' : List F} (long : msg.length = m + N) (long' : msg'.length = m + N)
    (same : comb msg (derive_hash_points N block_id m : List G2) = comb msg' (derive_hash_points N block_id m)) :
    msg = msg' := by
  have injective : Function.Injective (fun i : Fin (m + N) => (⟨hash_input block_id i,i,i.isLt,rfl⟩ : hashed N block_id m)) := by
    intro i j equal
    have inputs : hash_input block_id i = hash_input block_id j := congrArg Subtype.val equal
    exact Fin.ext (hash_input_injective (by omega) (by omega) inputs).2
  have points := linearIndependent_iff_injective_fintypeLinearCombination.mp (independent.comp _ injective)
  rw [comb_hash_points,comb_hash_points] at same
  exact coords_injective long long' (points same)

/-- Combinations of independent points of two blocks differ, unless all scalars are zero. -/
theorem two_blocks (word : m + N ≤ 2 ^ 64) (apart : block_id ≠ block_id')
    (independent : LinearIndepOn F (HashToGroup.hash_to_group BFKW_DST : Bytes → G2)
      (hashed N block_id m ∪ hashed N block_id' m))
    {msg msg' : List F} (long : msg.length = m + N) (long' : msg'.length = m + N)
    (same : comb msg (derive_hash_points N block_id m : List G2) = comb msg' (derive_hash_points N block_id' m)) :
    (∀ x ∈ msg, x = 0) ∧ ∀ x ∈ msg', x = 0 := by
  let input : Fin (m + N) ⊕ Fin (m + N) → (hashed N block_id m ∪ hashed N block_id' m : Set Bytes) :=
    Sum.elim (fun i => ⟨hash_input block_id i,.inl ⟨i,i.isLt,rfl⟩⟩) (fun i => ⟨hash_input block_id' i,.inr ⟨i,i.isLt,rfl⟩⟩)
  have injective : Function.Injective input := by
    rintro (i | i) (j | j) equal
    · exact congrArg Sum.inl (Fin.ext (hash_input_injective (by omega) (by omega) (congrArg Subtype.val equal)).2)
    · exact absurd (hash_input_injective (by omega) (by omega) (congrArg Subtype.val equal)).1 apart
    · exact absurd (hash_input_injective (by omega) (by omega) (congrArg Subtype.val equal)).1.symm apart
    · exact congrArg Sum.inr (Fin.ext (hash_input_injective (by omega) (by omega) (congrArg Subtype.val equal)).2)
  have points := Fintype.linearIndependent_iff.mp (independent.comp _ injective)
  -- the difference of the two combinations is one combination of all points
  have zero := points (Sum.elim (coords (m + N) msg) (fun i => - coords (m + N) msg' i)) (by
    rw [comb_hash_points,comb_hash_points] at same
    rw [Fintype.sum_sum_type]
    simp only [Sum.elim_inl,Sum.elim_inr,neg_smul,Finset.sum_neg_distrib]
    exact add_neg_eq_zero.mpr same)
  have vanishes : ∀ xs : List F, xs.length = m + N → (∀ i : Fin (m + N), coords (m + N) xs i = 0) → ∀ x ∈ xs, x = 0 := by
    intro xs count none x member
    obtain ⟨i,inside,rfl⟩ := List.getElem_of_mem member
    simpa [List.getD_eq_getElem?_getD,inside] using none ⟨i,count ▸ inside⟩
  refine ⟨vanishes msg long fun i => zero (.inl i),vanishes msg' long' fun i => ?_⟩
  exact neg_eq_zero.mp (zero (.inr i))

/-- What is accepted under the key of a signer is signed with its secret key. -/
theorem verifies_signed [LawfulSpace F G2] (signer : BfkwSigner F G1) (keyed : signer.Keyed G2)
    (checks : ∀ sigma p : G2, PairingGroup.pairing_check (signer.sk • (PairingGroup.generator G2 : G1)) sigma p = true ↔
      sigma = signer.sk • p) {chunk : CodedChunk F N} {proof : BfkwProof G2} (wide : chunk.w.v.length = m)
    (accepted : Verifies (BfkwScheme F G1 G2 N) (signer.setup_context N block_id m) ⟨chunk,proof⟩) :
    proof.sigma = signer.sk • comb (chunk.w.v ++ chunk.b) (derive_hash_points N block_id m : List G2) := by
  have count : (derive_hash_points N block_id m : List G2).length = m + N := by simp [derive_hash_points]
  have enough : data_points N (signer.setup_context N block_id m : BfkwContext G1 G2) = .ok m := by
    rw [data_points,BfkwSigner.setup_context,count,if_pos (by omega),Nat.add_sub_cancel]; rfl
  simp only [Verifies,BfkwScheme,BfkwScheme.verify,enough,ok_bind,pure_eq,Except.ok.injEq] at accepted
  split at accepted
  · rename_i paired
    simp only [BfkwSigner.setup_context,keyed.symm ▸ checks _ _] at paired
    rw [paired,LawfulSpace.msm_eq _ _ (by rw [count,List.length_append,wide,chunk.b_length])]
  · cases accepted

/-- A signature is accepted for one vector of one block only, or for the zero vectors. -/
theorem signature_of_one_vector [LawfulSpace F G2] (signer : BfkwSigner F G1) (keyed : signer.Keyed G2)
    (nonzero : signer.sk ≠ 0)
    (checks : ∀ sigma p : G2, PairingGroup.pairing_check (signer.sk • (PairingGroup.generator G2 : G1)) sigma p = true ↔
      sigma = signer.sk • p) (N m : Nat) (word : m + N ≤ 2 ^ 64) (block_id block_id' : Bytes)
    (independent : LinearIndepOn F (HashToGroup.hash_to_group BFKW_DST : Bytes → G2)
      (hashed N block_id m ∪ hashed N block_id' m)) :
    (∀ id, ∀ s < m + N, (derive_hash_points N id m : List G2)[s]? =
      some (HashToGroup.hash_to_group BFKW_DST (hash_input id s))) ∧
    (∀ id id', ∀ s < m + N, ∀ s' < m + N, (id,s) ≠ (id',s') → hash_input id s ≠ hash_input id' s') ∧
    ∀ (proof : BfkwProof G2) (chunk chunk' : CodedChunk F N), chunk.w.v.length = m → chunk'.w.v.length = m →
      Verifies (BfkwScheme F G1 G2 N) (signer.setup_context N block_id m) ⟨chunk,proof⟩ →
      Verifies (BfkwScheme F G1 G2 N) (signer.setup_context N block_id' m) ⟨chunk',proof⟩ →
      (block_id = block_id' ∧ chunk.w.v = chunk'.w.v ∧ chunk.b = chunk'.b) ∨
        ((∀ x ∈ chunk.w.v ++ chunk.b, x = 0) ∧ ∀ x ∈ chunk'.w.v ++ chunk'.b, x = 0) := by
  refine ⟨fun id s inside => derive_hash_points_get id inside,?_,?_⟩
  · intro id id' s inside s' inside' apart same
    obtain ⟨rfl,rfl⟩ := hash_input_injective (by omega) (by omega) same
    exact apart rfl
  · intro proof chunk chunk' wide wide' accepted accepted'
    have long : (chunk.w.v ++ chunk.b).length = m + N := by rw [List.length_append,wide,chunk.b_length]
    have long' : (chunk'.w.v ++ chunk'.b).length = m + N := by rw [List.length_append,wide',chunk'.b_length]
    have signed := verifies_signed signer keyed checks wide accepted
    have signed' := verifies_signed signer keyed checks wide' accepted'
    have same := smul_right_injective G2 nonzero (signed.symm.trans signed')
    by_cases one : block_id = block_id'
    · subst one
      obtain ⟨data,coefficients⟩ := List.append_inj
        (same_block word (independent.mono Set.subset_union_left) long long' same) (wide.trans wide'.symm)
      exact .inl ⟨rfl,data,coefficients⟩
    · exact .inr (two_blocks word one independent long long' same)

end

section
open Rlnc.Scalars Rlnc.Reference

/-- The two hash points of the blocks `[0]` and `[1]` are the unit vectors. -/
private def unit_of (msg : Bytes) : Fin 4 → Scalar :=
  fun i => if i.val = 2 * (msg.getD 0 0).toNat + (msg.getD 1 0).toNat then 1 else 0

scoped instance : Space Scalar (Fin 4 → Scalar) := ⟨fun points scalars => comb scalars points⟩

scoped instance : LawfulSpace Scalar (Fin 4 → Scalar) := ⟨fun _ _ _ => rfl⟩

scoped instance : HashToGroup (Fin 4 → Scalar) := ⟨fun _ msg => unit_of msg⟩

scoped instance : PairingGroup Scalar (Fin 4 → Scalar) := ⟨1,fun pk sigma p => decide (sigma = pk • p)⟩

private def key_three : BfkwSigner Scalar Scalar := ⟨scalar 3,scalar 3⟩

private theorem units_independent : LinearIndepOn Scalar
    (HashToGroup.hash_to_group BFKW_DST : Bytes → Fin 4 → Scalar) (hashed 1 [0] 1 ∪ hashed 1 [1] 1) := by
  have basis := (Pi.basisFun Scalar (Fin 4)).linearIndependent
  have listed : ∀ input : (hashed 1 [0] 1 ∪ hashed 1 [1] 1 : Set Bytes), input.val = hash_input [0] 0 ∨
      input.val = hash_input [0] 1 ∨ input.val = hash_input [1] 0 ∨ input.val = hash_input [1] 1 := by
    rintro ⟨_,⟨s,small,rfl⟩ | ⟨s,small,rfl⟩⟩ <;> (obtain rfl | rfl : s = 0 ∨ s = 1 := by omega) <;> simp
  let place : (hashed 1 [0] 1 ∪ hashed 1 [1] 1 : Set Bytes) → Fin 4 :=
    fun input => if input.val = hash_input [0] 0 then 0 else if input.val = hash_input [0] 1 then 1
      else if input.val = hash_input [1] 0 then 2 else 3
  have injective : Function.Injective place := by
    intro x y same
    apply Subtype.ext
    rcases listed x with hx | hx | hx | hx <;> rcases listed y with hy | hy | hy | hy <;>
      simp only [place,hx,hy] at same ⊢ <;> revert same <;> decide +kernel
  have units : (fun input : (hashed 1 [0] 1 ∪ hashed 1 [1] 1 : Set Bytes) => unit_of input.val) =
      Pi.basisFun Scalar (Fin 4) ∘ place := by
    funext input
    rcases listed input with h | h | h | h <;>
      simp only [Function.comp_apply,place,h,Pi.basisFun_apply] <;> decide +kernel
  change LinearIndependent Scalar (fun input : (hashed 1 [0] 1 ∪ hashed 1 [1] 1 : Set Bytes) => unit_of input.val)
  rw [units]
  exact basis.comp place injective

/-- A signature for a vector of the block `[0]`: it is refused for every vector of the block `[1]`. -/
theorem signature_of_one_vector_two :
    Verifies (BfkwScheme Scalar Scalar (Fin 4 → Scalar) 1) (key_three.setup_context 1 [0] 1)
      ⟨coded_one (chunk_of (scalar 5) []) 1,⟨fun i => [scalar 15,scalar 3,0,0].getD i 0⟩⟩ ∧
    ∀ chunk : CodedChunk Scalar 1, chunk.w.v.length = 1 →
      ¬ Verifies (BfkwScheme Scalar Scalar (Fin 4 → Scalar) 1) (key_three.setup_context 1 [1] 1)
        ⟨chunk,⟨fun i => [scalar 15,scalar 3,0,0].getD i 0⟩⟩ := by
  have accepted : Verifies (BfkwScheme Scalar Scalar (Fin 4 → Scalar) 1) (key_three.setup_context 1 [0] 1)
      ⟨coded_one (chunk_of (scalar 5) []) 1,⟨fun i => [scalar 15,scalar 3,0,0].getD i 0⟩⟩ := by
    unfold Verifies
    decide +kernel
  refine ⟨accepted,fun chunk wide accepted' => ?_⟩
  obtain ⟨_,_,unique⟩ := signature_of_one_vector key_three
    (by simp [BfkwSigner.Keyed,key_three,PairingGroup.generator]) (by decide +kernel)
    (fun sigma p => by simp [PairingGroup.pairing_check,PairingGroup.generator,key_three]) 1 1 (by decide) [0] [1]
    units_independent
  rcases unique _ _ _ rfl wide accepted accepted' with ⟨same,_⟩ | ⟨zero,_⟩
  · exact absurd same (by decide)
  · exact absurd (zero 1 (by simp [coded_one,chunk_of])) one_ne_zero

end

end Rlnc.Authenticity
