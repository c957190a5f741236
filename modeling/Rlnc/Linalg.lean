import Rlnc.Panics
import Rlnc.Combination

/-!
The linear algebra helpers of coding: `linear_combination` accumulates the
scaled vectors one by one, and its result is the combination of the listed
vectors (`linear_combination_spec`).
-/
namespace Rlnc.Linalg
open Rlnc.Panics Rlnc.Combination
variable {F : Type} [Field F]

/-- One round of the loop: `r += v * coeff` along the result. -/
def accumulate (result : List F) (term : List F × F) : List F :=
  zip_update (fun r v => r + v * term.2) result term.1

def linear_combination (vecs : List (List F)) (coeffs : List F) : Rust (List F) := do
  require (vecs ≠ []) "need at least one vector"
  require (vecs.length = coeffs.length) "vecs and coeffs length mismatch"
  let len := (vecs.headD []).length
  require (∀ v ∈ vecs, v.length = len) "all vectors must have the same length"
  return (vecs.zip coeffs).foldl accumulate (List.replicate len 0)

/-- Re-encode received pairs of data and coefficients with the same mixing coefficients. -/
def reencode (data_vecs coeff_vecs : List (List F)) (alphas : List F) : Rust (List F × List F) := do
  let new_data ← linear_combination data_vecs alphas
  let new_coeffs ← linear_combination coeff_vecs alphas
  return (new_data,new_coeffs)

private theorem accumulated (len : Nat) (vecs : List (List F)) (coeffs result : List F)
    (wide : ∀ v ∈ vecs, v.length = len) (start : result.length = len) :
    ((vecs.zip coeffs).foldl accumulate result).length = len ∧
      coords len ((vecs.zip coeffs).foldl accumulate result) =
        coords len result + comb coeffs (vecs.map (coords len)) := by
  induction vecs generalizing coeffs result with
  | nil => simp [start]
  | cons v vecs ih =>
    cases coeffs with
    | nil => simp [start]
    | cons c coeffs =>
      have same : result.length = v.length := by rw [start,wide v (by simp)]
      obtain ⟨long,value⟩ := ih coeffs (accumulate result (v,c)) (fun w member => wide w (by simp [member]))
        (by simp [accumulate,start])
      refine ⟨long,?_⟩
      rw [List.zip_cons_cons,List.foldl_cons,value,accumulate,zip_update_eq _ _ _ same,
        coords_zipWith_add len result v c same,List.map_cons,comb_cons,add_assoc]

/-- On vectors of one length the accumulated result is their combination. -/
theorem linear_combination_spec (len : Nat) (vecs : List (List F)) (coeffs : List F) (nonempty : vecs ≠ [])
    (same : vecs.length = coeffs.length) (wide : ∀ v ∈ vecs, v.length = len) :
    ∃ r, linear_combination vecs coeffs = .ok r ∧ r.length = len ∧
      coords len r = comb coeffs (vecs.map (coords len)) := by
  have headLength : (vecs.headD []).length = len := by
    cases vecs with
    | nil => exact absurd rfl nonempty
    | cons v vecs => exact wide v (by simp)
  obtain ⟨long,value⟩ := accumulated len vecs coeffs (List.replicate len 0) wide (by simp)
  refine ⟨_,?_,long,by rw [value,coords_zeros,zero_add]⟩
  simp only [linear_combination,headLength]
  rw [require_of nonempty,require_of same,require_of wide]
  rfl

/-- The combination panics on an empty list. -/
theorem linear_combination_empty (coeffs : List F) :
    linear_combination [] coeffs = .error (.assertion "need at least one vector") := rfl

end Rlnc.Linalg
