import Rlnc.Panics
import Rlnc.Elimination

/-!
`IncrementalEchelon` keeps a coefficient matrix in row-echelon form as rows
arrive. Over its fields stands the list of `Step`s that it has taken, one for each
accepted row: `add_row` accepts exactly the rows outside the span of the accepted
ones (`add_row_spec`), and at full rank `inverse` returns the inverse of the
matrix of accepted rows (`inverse_spec`).
-/
namespace Rlnc.Echelon
open Rlnc.Panics Rlnc.Combination Rlnc.Elimination
set_option linter.unusedSectionVars false

section
variable {F : Type} [Field F] [DecidableEq F]

structure IncrementalEchelon (F : Type) where
  n : Nat
  echelon : List (List F)
  pivots : List Nat
  transform : List (List F)
deriving DecidableEq

namespace IncrementalEchelon

def new (n : Nat) : IncrementalEchelon F := ⟨n,[],[],[]⟩

def rank (self : IncrementalEchelon F) : Nat := self.echelon.length

def is_full (self : IncrementalEchelon F) : Bool := self.echelon.length == self.n

def reset (self : IncrementalEchelon F) : IncrementalEchelon F :=
  { self with echelon := [], pivots := [], transform := [] }

/-- `for (x, y) in xs.iter_mut().zip(ys) { *x -= y * factor }` -/
def subtract_scaled (xs ys : List F) (factor : F) : List F := zip_update (fun x y => x - y * factor) xs ys

/-- Clear the pivot column of echelon row `j` in the new row, and do the same to
    its transformation row. -/
def reduce_by (self : IncrementalEchelon F) (rows : List F × List F) (j : Nat) : Rust (List F × List F) := do
  let (row,trow) := rows
  let pivot_col ← index self.pivots j
  let value ← index row pivot_col
  if value = 0 then
    return (row,trow)
  let echelon_row ← index self.echelon j
  let transform_row ← index self.transform j
  return (subtract_scaled row echelon_row value,subtract_scaled trow transform_row value)

def add_row (self : IncrementalEchelon F) (row : List F) : Rust (IncrementalEchelon F × Bool) := do
  require (row.length = self.n) "row length must equal n"
  require (self.is_full = false) "matrix is already full rank"
  let rank := self.echelon.length
  let trow ← set_at (List.replicate self.n 0) rank 1
  let (row,trow) ← (List.range rank).foldlM self.reduce_by (row,trow)
  match row.findIdx? (fun x => decide (x ≠ 0)) with
  | none => return (self,false)
  | some pivot =>
    let value ← index row pivot
    let inv := value⁻¹
    return ({ self with
      echelon := self.echelon ++ [row.map (· * inv)],
      pivots := self.pivots ++ [pivot],
      transform := self.transform ++ [trow.map (· * inv)] },true)

/-- Clear the pivot column of row `j` in row `i`, in both matrices. -/
def clear_above (self : IncrementalEchelon F) (j : Nat) (matrices : List (List F) × List (List F)) (i : Nat) :
    Rust (List (List F) × List (List F)) := do
  let (echelon,transform) := matrices
  let pivot_col ← index self.pivots j
  let upper ← index echelon i
  let factor ← index upper pivot_col
  if factor = 0 then
    return (echelon,transform)
  let ech_j ← index echelon j
  let echelon ← set_at echelon i (subtract_scaled upper ech_j factor)
  let upper ← index transform i
  let tr_j ← index transform j
  let transform ← set_at transform i (subtract_scaled upper tr_j factor)
  return (echelon,transform)

/-- `inverse[self.pivots[j]] = take(&mut transform[j])` -/
def place_row (self : IncrementalEchelon F) (matrices : List (List F) × List (List F)) (j : Nat) :
    Rust (List (List F) × List (List F)) := do
  let (inverse,transform) := matrices
  let pivot_col ← index self.pivots j
  let row ← index transform j
  let transform ← set_at transform j []
  let inverse ← set_at inverse pivot_col row
  return (inverse,transform)

def inverse (self : IncrementalEchelon F) : Rust (List (List F)) := do
  require (self.is_full = true) "cannot invert: matrix is not full rank"
  let n := self.n
  let (_,transform) ← (List.range n).reverse.foldlM
    (fun matrices j => (List.range j).foldlM (self.clear_above j) matrices) (self.echelon,self.transform)
  let (inverse,_) ← (List.range n).foldlM self.place_row (List.replicate n (List.replicate n 0),transform)
  return inverse

end IncrementalEchelon

/-! ### The steps behind the fields -/

/-- One accepted row: its reduced form, its pivot, and the combination of the
    accepted rows that it is. -/
structure Step (F : Type) (n : Nat) where
  row : List F
  pivot : Fin n
  origin : List F
  row_length : row.length = n
  origin_length : origin.length = n

/-- The step as a row of a staircase. -/
def Step.stair {n : Nat} (s : Step F n) : (Fin n → F) × Fin n := (coords n s.row,s.pivot)

/-- The fields hold these steps, taken for these accepted rows. -/
structure Tracks (n : Nat) (e : IncrementalEchelon F) (accepted : List (List F)) (steps : List (Step F n)) : Prop where
  width : e.n = n
  echelon : e.echelon = steps.map Step.row
  pivots : e.pivots = steps.map (fun s => s.pivot.val)
  transform : e.transform = steps.map Step.origin
  stairs : Staircase (steps.map Step.stair)
  count : steps.length = accepted.length
  origins : ∀ s ∈ steps, ∀ later, comb s.origin ((accepted ++ later).map (coords n)) = coords n s.row
  span : Submodule.span F {x | x ∈ vectors (steps.map Step.stair)} =
    Submodule.span F {x | x ∈ accepted.map (coords n)}
  innovative : Innovative (F := F) (accepted.map (coords n))

/-! ### Inserting a row -/

/-- Whatever the fields hold, a row that is not taken changes none of them, and one that
    is taken makes the matrix longer by one. -/
theorem add_row_cases {e e' : IncrementalEchelon F} {row : List F} {grew : Bool} (ran : e.add_row row = .ok (e',grew)) :
    grew = false ∧ e' = e ∨ grew = true ∧ e'.rank = e.rank + 1 := by
  simp only [IncrementalEchelon.add_row,bind_ok] at ran
  obtain ⟨_,_,_,_,trow,_,⟨row',trow'⟩,_,ran⟩ := ran
  cases found : row'.findIdx? (fun x => decide (x ≠ 0)) with
  | none =>
    simp only [found] at ran
    obtain ⟨rfl,rfl⟩ := ok_pair ran
    exact .inl ⟨rfl,rfl⟩
  | some pivot =>
    simp only [found,bind_ok] at ran
    obtain ⟨value,_,ran⟩ := ran
    obtain ⟨rfl,rfl⟩ := ok_pair ran
    exact .inr ⟨rfl,by simp [IncrementalEchelon.rank]⟩

section
variable {n : Nat} {e : IncrementalEchelon F} {accepted : List (List F)} {steps : List (Step F n)}
open IncrementalEchelon

private theorem read_entry {row : List F} (wide : row.length = n) (c : Fin n) :
    index row c.val = .ok (coords n row c) := by
  have inside : c.val < row.length := wide ▸ c.isLt
  simp [List.getD_eq_getElem?_getD,inside]

private theorem subtract_scaled_length (xs ys : List F) (factor : F) :
    (subtract_scaled xs ys factor).length = xs.length := by simp [subtract_scaled]

private theorem coords_subtract_scaled {xs ys : List F} (same : xs.length = ys.length) (factor : F) :
    coords n (subtract_scaled xs ys factor) = coords n xs - factor • coords n ys := by
  rw [subtract_scaled,zip_update_eq _ _ _ same,coords_zipWith_sub n xs ys factor same]

private theorem comb_subtract_scaled {V : Type} [AddCommGroup V] [Module F V] {xs ys : List F}
    (same : xs.length = ys.length) (factor : F) (vs : List V) :
    comb (subtract_scaled xs ys factor) vs = comb xs vs - factor • comb ys vs := by
  rw [subtract_scaled,zip_update_eq _ _ _ same,comb_zipWith_sub xs ys factor vs same]

/-- One round of the reduction clears the pivot of its step, in the row and in the
    combination that makes it. -/
theorem reduce_by_spec (tracks : Tracks n e accepted steps) {j : Nat} {s : Step F n} (taken : steps[j]? = some s)
    {row trow : List F} (wide : row.length = n) (twide : trow.length = n) :
    ∃ row' trow', e.reduce_by (row,trow) j = .ok (row',trow') ∧ row'.length = n ∧ trow'.length = n ∧
      coords n row' = clear (coords n row) s.stair ∧
      ∀ vs : List (Fin n → F), comb trow' vs = comb trow vs - coords n row s.pivot • comb s.origin vs := by
  have pivot : index e.pivots j = .ok s.pivot.val := index_of (by simp [tracks.pivots,taken])
  have value := read_entry wide s.pivot
  by_cases zero : coords n row s.pivot = 0
  · refine ⟨row,trow,?_,wide,twide,?_,?_⟩
    · simp only [reduce_by,pivot,ok_bind,value,zero,if_true,pure_eq]
    · simp only [clear,Step.stair,zero,zero_smul,sub_zero]
    · simp only [zero,zero_smul,sub_zero,implies_true]
  · have echelonRow : index e.echelon j = .ok s.row := index_of (by simp [tracks.echelon,taken])
    have transformRow : index e.transform j = .ok s.origin := index_of (by simp [tracks.transform,taken])
    have same : row.length = s.row.length := by rw [wide,s.row_length]
    have tsame : trow.length = s.origin.length := by rw [twide,s.origin_length]
    refine ⟨subtract_scaled row s.row (coords n row s.pivot),subtract_scaled trow s.origin (coords n row s.pivot),
      by simp only [reduce_by,pivot,ok_bind,value,if_neg zero,echelonRow,transformRow,pure_eq],?_,?_,?_,?_⟩
    · rw [subtract_scaled_length,wide]
    · rw [subtract_scaled_length,twide]
    · rw [coords_subtract_scaled same]; rfl
    · exact comb_subtract_scaled tsame _

/-- The whole reduction loop. -/
theorem reduction (tracks : Tracks n e accepted steps) {row : List F} (trow : List F) (wide : row.length = n)
    (twide : trow.length = n)
    (made : ∀ later, comb trow ((accepted ++ row :: later).map (coords n)) = coords n row) :
    ∃ row' trow', (List.range e.echelon.length).foldlM e.reduce_by (row,trow) = .ok (row',trow') ∧
      row'.length = n ∧ trow'.length = n ∧ coords n row' = reduce (steps.map Step.stair) (coords n row) ∧
      ∀ later, comb trow' ((accepted ++ row :: later).map (coords n)) = coords n row' := by
  have count : e.echelon.length = steps.length := by simp [tracks.echelon]
  rw [count]
  let Inv : Nat → List F × List F → Prop := fun j rows =>
    rows.1.length = n ∧ rows.2.length = n ∧
    coords n rows.1 = reduce ((steps.take j).map Step.stair) (coords n row) ∧
    ∀ later, comb rows.2 ((accepted ++ row :: later).map (coords n)) = coords n rows.1
  obtain ⟨⟨row',trow'⟩,ran,wide',twide',reduced,made'⟩ :=
    upto_keeps e.reduce_by Inv steps.length (row,trow) ⟨wide,twide,by simp,made⟩ (by
      rintro j ⟨r,t⟩ inside ⟨rwide,twide,reduced,made⟩
      have taken : steps[j]? = some steps[j] := List.getElem?_eq_getElem inside
      obtain ⟨r',t',ran,rwide',twide',cleared,combined⟩ := reduce_by_spec tracks taken rwide twide
      refine ⟨(r',t'),ran,rwide',twide',?_,?_⟩
      · rw [List.take_succ_eq_append_getElem inside,List.map_append,List.map_singleton,reduce_snoc,← reduced]
        exact cleared
      · intro later
        have origin := tracks.origins steps[j] (List.getElem_mem inside) (row :: later)
        simp only [combined,cleared,made later,origin,clear,Step.stair])
  refine ⟨row',trow',ran,wide',twide',?_,made'⟩
  simpa using reduced

private theorem origin_start (tracks : Tracks n e accepted steps) {row : List F} (room : steps.length < n) (later : List (List F)) :
    comb ((List.replicate n (0 : F)).set steps.length 1) ((accepted ++ row :: later).map (coords n)) = coords n row := by
  rw [comb_unit n steps.length _ (by simp [tracks.count]) room]
  simp [tracks.count]

/-- The empty echelon. -/
theorem tracks_new : Tracks n (new n : IncrementalEchelon F) [] [] where
  width := rfl
  echelon := rfl
  pivots := rfl
  transform := rfl
  stairs := Staircase.nil
  count := rfl
  origins := by simp
  span := by simp [vectors]
  innovative := Innovative.nil

theorem rank_eq (tracks : Tracks n e accepted steps) : e.rank = accepted.length := by
  simp [rank,tracks.echelon,tracks.count]

theorem is_full_iff (tracks : Tracks n e accepted steps) : e.is_full = true ↔ accepted.length = n := by
  simp [is_full,tracks.echelon,tracks.count,tracks.width]

/-- The accepted rows are never more than the columns. -/
theorem accepted_le (tracks : Tracks n e accepted steps) : accepted.length ≤ n := by
  have bound := tracks.innovative.length_le
  simpa using bound

/-- At full rank, and only then, the accepted rows span everything. -/
theorem full_iff_spans (tracks : Tracks n e accepted steps) :
    e.is_full = true ↔ Submodule.span F {x | x ∈ accepted.map (coords n)} = ⊤ := by
  rw [is_full_iff tracks,tracks.innovative.spans_iff]
  simp

/-- A row of the right length is accepted exactly when it lies outside the span of
    the accepted rows, and then takes one more step. -/
theorem add_row_spec (tracks : Tracks n e accepted steps) (room : e.is_full = false) {row : List F}
    (wide : row.length = n) :
    (coords n row ∈ Submodule.span F {x | x ∈ accepted.map (coords n)} ∧ e.add_row row = .ok (e,false)) ∨
    (coords n row ∉ Submodule.span F {x | x ∈ accepted.map (coords n)} ∧
      ∃ e' step, e.add_row row = .ok (e',true) ∧ Tracks n e' (accepted ++ [row]) (steps ++ [step])) := by
  have notFull : accepted.length ≠ n := by
    intro full
    rw [(is_full_iff tracks).mpr full] at room
    cases room
  have below : steps.length < n := by
    have bound := accepted_le tracks
    have same := tracks.count
    omega
  have count : e.echelon.length = steps.length := by simp [tracks.echelon]
  have unit : set_at (List.replicate e.n (0 : F)) e.echelon.length 1 =
      .ok ((List.replicate n (0 : F)).set steps.length 1) := by
    rw [set_at_of (by simp [tracks.width,count,below]),tracks.width,count]
  obtain ⟨row',trow',ran,wide',twide',reduced,made⟩ :=
    reduction tracks ((List.replicate n (0 : F)).set steps.length 1) wide (by simp)
      (origin_start tracks below)
  have start : e.add_row row = (match row'.findIdx? (fun x => decide (x ≠ 0)) with
      | none => return (e,false)
      | some pivot => do
        let value ← index row' pivot
        let inv := value⁻¹
        return ({ e with
          echelon := e.echelon ++ [row'.map (· * inv)],
          pivots := e.pivots ++ [pivot],
          transform := e.transform ++ [trow'.map (· * inv)] },true)) := by
    simp only [add_row,require_of (wide.trans tracks.width.symm),require_of room,ok_bind,unit,ran]
  rw [start]
  cases found : row'.findIdx? (fun x => decide (x ≠ 0)) with
  | none =>
    left
    have zeros : ∀ x ∈ row', x = 0 := by simpa using found
    have zero : coords n row' = 0 := by
      funext i
      have inside : i.val < row'.length := wide' ▸ i.isLt
      simpa [List.getD_eq_getElem?_getD,inside] using zeros row'[i.val] (List.getElem_mem inside)
    refine ⟨?_,rfl⟩
    rw [reduced] at zero
    rw [← tracks.span]
    exact (reduce_eq_zero_iff tracks.stairs _).mp zero
  | some p =>
    right
    obtain ⟨inside,nonzero,_⟩ := List.findIdx?_eq_some_iff_getElem.mp found
    let c : Fin n := ⟨p,wide' ▸ inside⟩
    have entry : coords n row' c = row'[p] := by simp [c,List.getD_eq_getElem?_getD,inside]
    have nonzero' : reduce (steps.map Step.stair) (coords n row) c ≠ 0 := by
      rw [← reduced,entry]
      simpa using nonzero
    have outside : coords n row ∉ Submodule.span F {x | x ∈ accepted.map (coords n)} := by
      rw [← tracks.span]
      intro member
      have vanishes := (reduce_eq_zero_iff tracks.stairs _).mpr member
      exact nonzero' (congrFun vanishes c)
    let step : Step F n := ⟨row'.map (· * row'[p]⁻¹),c,trow'.map (· * row'[p]⁻¹),by simpa using wide',by simpa using twide'⟩
    have stair : step.stair = ((reduce (steps.map Step.stair) (coords n row) c)⁻¹ •
        reduce (steps.map Step.stair) (coords n row),c) := by
      simp only [step,Step.stair,coords_map_mul,← reduced,entry]
    have read : index row' p = .ok row'[p] := index_of (List.getElem?_eq_getElem inside)
    refine ⟨outside,_,step,by simp only [read,ok_bind,pure_eq]; rfl,?_⟩
    refine ⟨tracks.width,by simp [tracks.echelon,step],by simp [tracks.pivots,step,c],by simp [tracks.transform,step],
      ?_,by simp [tracks.count],?_,?_,?_⟩
    · rw [List.map_append,List.map_singleton,stair]
      exact tracks.stairs.snoc _ nonzero'
    · intro s member later
      rw [List.append_assoc]
      rcases List.mem_append.mp member with old | new
      · exact tracks.origins s old _
      · obtain rfl := List.mem_singleton.mp new
        simp only [step,comb_map_mul,coords_map_mul,List.singleton_append,made later]
    · rw [List.map_append,List.map_singleton,stair,span_reduce_snoc _ _ _ nonzero',tracks.span,List.map_append,
        List.map_singleton,span_snoc]
    · rw [List.map_append,List.map_singleton]
      exact Innovative.snoc tracks.innovative outside

/-! ### Inverting at full rank -/

/-- During back-substitution: every row is still the combination that its
    transformation row says, one at its own pivot, zero at the pivots of earlier
    rows, and zero at the later pivots that are done. -/
structure Substituted (accepted : List (List F)) (steps : List (Step F n)) (done : Nat → Nat → Prop)
    (matrices : List (List F) × List (List F)) : Prop where
  height : matrices.1.length = n
  theight : matrices.2.length = n
  row : ∀ k < n, ∃ r t, matrices.1[k]? = some r ∧ matrices.2[k]? = some t ∧ r.length = n ∧ t.length = n ∧
    comb t (accepted.map (coords n)) = coords n r ∧
    ∀ l s, steps[l]? = some s → (l = k → coords n r s.pivot = 1) ∧ (l < k ∨ done k l → coords n r s.pivot = 0)

private theorem substituted_congr {done done' : Nat → Nat → Prop} {matrices : List (List F) × List (List F)}
    (same : ∀ k l, k < l → (done k l ↔ done' k l)) (later : ∀ k l, done' k l → k < l)
    (kept : Substituted accepted steps done matrices) : Substituted accepted steps done' matrices := by
  refine ⟨kept.height,kept.theight,fun k inside => ?_⟩
  obtain ⟨r,t,hr,ht,wide,twide,made,entries⟩ := kept.row k inside
  refine ⟨r,t,hr,ht,wide,twide,made,fun l s taken => ⟨(entries l s taken).1,?_⟩⟩
  rintro (before | isDone)
  · exact (entries l s taken).2 (.inl before)
  · exact (entries l s taken).2 (.inr ((same k l (later k l isDone)).mpr isDone))

private theorem substituted_start (tracks : Tracks n e accepted steps) (full : accepted.length = n) :
    Substituted accepted steps (fun k l => k < l ∧ n ≤ l) (e.echelon,e.transform) := by
  have count := tracks.count
  refine ⟨by simp [tracks.echelon,count,full],by simp [tracks.transform,count,full],fun k inside => ?_⟩
  have below : k < steps.length := by omega
  refine ⟨steps[k].row,steps[k].origin,by simp [tracks.echelon,below],by simp [tracks.transform,below],
    steps[k].row_length,steps[k].origin_length,?_,?_⟩
  · simpa using tracks.origins steps[k] (List.getElem_mem below) []
  · intro l s taken
    obtain ⟨small,rfl⟩ := List.getElem?_eq_some_iff.mp taken
    refine ⟨?_,?_⟩
    · rintro rfl
      exact tracks.stairs.leading _ (List.mem_map_of_mem (List.getElem_mem small))
    · rintro (before | ⟨_,beyond⟩)
      · have cleared := List.pairwise_iff_getElem.mp tracks.stairs.cleared l k (by simpa) (by simpa) before
        simpa [Step.stair] using cleared
      · omega

/-- Clearing one entry above a pivot. -/
private theorem clear_above_spec (tracks : Tracks n e accepted steps) (full : accepted.length = n) {i j : Nat}
    (above : i < j) (inside : j < n) {matrices : List (List F) × List (List F)}
    (kept : Substituted accepted steps (fun k l => k < l ∧ (j < l ∨ l = j ∧ k < i)) matrices) :
    ∃ matrices', e.clear_above j matrices i = .ok matrices' ∧
      Substituted accepted steps (fun k l => k < l ∧ (j < l ∨ l = j ∧ k < i + 1)) matrices' := by
  obtain ⟨M,T⟩ := matrices
  have count := tracks.count
  obtain ⟨ri,ti,hri,hti,wi,twi,madei,entriesi⟩ := kept.row i (by omega)
  obtain ⟨rj,tj,hrj,htj,wj,twj,madej,entriesj⟩ := kept.row j inside
  have taken : steps[j]? = some steps[j] := List.getElem?_eq_getElem (by omega)
  have pivot : index e.pivots j = .ok steps[j].pivot.val := index_of (by simp [tracks.pivots,taken])
  have value := read_entry wi steps[j].pivot
  have one : coords n rj steps[j].pivot = 1 := (entriesj j _ taken).1 rfl
  -- the new row `i`, whether or not the entry was zero
  have entry : ∀ l s, steps[l]? = some s →
      (l = i → coords n ri s.pivot - coords n ri steps[j].pivot * coords n rj s.pivot = 1) ∧
      (l < i ∨ i < l ∧ (j < l ∨ l = j ∧ i < i + 1) →
        coords n ri s.pivot - coords n ri steps[j].pivot * coords n rj s.pivot = 0) := by
    intro l s stepl
    refine ⟨?_,?_⟩
    · rintro rfl
      rw [(entriesi l s stepl).1 rfl,(entriesj l s stepl).2 (.inl above),mul_zero,sub_zero]
    · rintro (before | ⟨_,past | ⟨rfl,_⟩⟩)
      · rw [(entriesi l s stepl).2 (.inl before),(entriesj l s stepl).2 (.inl (by omega)),mul_zero,sub_zero]
      · rw [(entriesi l s stepl).2 (.inr ⟨by omega,.inl past⟩),(entriesj l s stepl).2 (.inr ⟨past,.inl past⟩),
          mul_zero,sub_zero]
      · obtain rfl : steps[l] = s := Option.some.inj (taken.symm.trans stepl)
        rw [one,mul_one,sub_self]
  have unchanged : ∀ k l, k ≠ i → (k < l ∧ (j < l ∨ l = j ∧ k < i + 1)) → k < l ∧ (j < l ∨ l = j ∧ k < i) := by
    omega
  by_cases zero : coords n ri steps[j].pivot = 0
  · refine ⟨(M,T),?_,kept.height,kept.theight,fun k small => ?_⟩
    · simp only [clear_above,pivot,ok_bind,index_of hri,value,zero,if_true,pure_eq]
    · obtain ⟨r,t,hr,ht,w,tw,made,entries⟩ := kept.row k small
      refine ⟨r,t,hr,ht,w,tw,made,fun l s stepl => ⟨(entries l s stepl).1,?_⟩⟩
      rintro (before | isDone)
      · exact (entries l s stepl).2 (.inl before)
      · by_cases here : k = i
        · subst here
          obtain rfl : ri = r := Option.some.inj (hri.symm.trans hr)
          have cleared := (entry l s stepl).2 (.inr isDone)
          rwa [zero,zero_mul,sub_zero] at cleared
        · exact (entries l s stepl).2 (.inr (unchanged k l here isDone))
  · have smallM : i < M.length := by have := kept.height; simp only at this; omega
    have smallT : i < T.length := by have := kept.theight; simp only at this; omega
    refine ⟨(M.set i (subtract_scaled ri rj (coords n ri steps[j].pivot)),
      T.set i (subtract_scaled ti tj (coords n ri steps[j].pivot))),?_,?_,?_,fun k small => ?_⟩
    · simp only [clear_above,pivot,ok_bind,index_of hri,value,if_neg zero,index_of hrj,index_of hti,index_of htj,
        set_at_of smallM,set_at_of smallT,pure_eq]
    · simpa using kept.height
    · simpa using kept.theight
    · by_cases here : k = i
      · subst here
        have same : ri.length = rj.length := by rw [wi,wj]
        have tsame : ti.length = tj.length := by rw [twi,twj]
        refine ⟨_,_,List.getElem?_set_self smallM,List.getElem?_set_self smallT,by rw [subtract_scaled_length,wi],
          by rw [subtract_scaled_length,twi],?_,?_⟩
        · rw [comb_subtract_scaled tsame,coords_subtract_scaled same,madei,madej]
        · intro l s stepl
          have value' : coords n (subtract_scaled ri rj (coords n ri steps[j].pivot)) s.pivot =
              coords n ri s.pivot - coords n ri steps[j].pivot * coords n rj s.pivot := by
            rw [coords_subtract_scaled same]; rfl
          rw [value']
          exact entry l s stepl
      · obtain ⟨r,t,hr,ht,w,tw,made,entries⟩ := kept.row k small
        refine ⟨r,t,by rw [List.getElem?_set_ne (Ne.symm here)]; exact hr,
          by rw [List.getElem?_set_ne (Ne.symm here)]; exact ht,w,tw,made,fun l s stepl => ⟨(entries l s stepl).1,?_⟩⟩
        rintro (before | isDone)
        · exact (entries l s stepl).2 (.inl before)
        · exact (entries l s stepl).2 (.inr (unchanged k l here isDone))

/-- Back-substitution clears every entry above a pivot. -/
private theorem back_substitution (tracks : Tracks n e accepted steps) (full : accepted.length = n) :
    ∃ matrices, (List.range n).reverse.foldlM
        (fun matrices j => (List.range j).foldlM (e.clear_above j) matrices) (e.echelon,e.transform) = .ok matrices ∧
      Substituted accepted steps (fun k l => k < l ∧ 0 ≤ l) matrices := by
  apply downto_keeps _ (fun j => Substituted accepted steps (fun k l => k < l ∧ j ≤ l)) n _
    (substituted_start tracks full)
  intro j matrices inside kept
  have enter : Substituted accepted steps (fun k l => k < l ∧ (j < l ∨ l = j ∧ k < 0)) matrices :=
    substituted_congr (by omega) (by omega) kept
  obtain ⟨matrices',ran,cleared⟩ := upto_keeps (e.clear_above j)
    (fun i matrices => i ≤ j → Substituted accepted steps (fun k l => k < l ∧ (j < l ∨ l = j ∧ k < i)) matrices) j matrices
    (fun _ => enter) (by
      intro i m above keptm
      obtain ⟨m',ran,keptm'⟩ := clear_above_spec tracks full above inside (keptm (by omega))
      exact ⟨m',ran,fun _ => keptm'⟩)
  exact ⟨matrices',ran,substituted_congr (by omega) (by omega) (cleared le_rfl)⟩

/-- At full rank each column is the pivot of a step. -/
private theorem pivot_of_column (tracks : Tracks n e accepted steps) (full : accepted.length = n) (c : Fin n) :
    ∃ (k : Nat) (s : Step F n), steps[k]? = some s ∧ s.pivot = c := by
  have nodup : (steps.map Step.pivot).Nodup := by
    simpa [Function.comp_def,Step.stair] using tracks.stairs.pivots_nodup
  have count : (steps.map Step.pivot).length = n := by simp [tracks.count,full]
  have member : c ∈ steps.map Step.pivot := by
    have every : (steps.map Step.pivot).toFinset = Finset.univ := by
      apply Finset.eq_univ_of_card
      rw [List.toFinset_card_of_nodup nodup,count,Fintype.card_fin]
    have inside : c ∈ (steps.map Step.pivot).toFinset := by simp [every]
    exact List.mem_toFinset.mp inside
  obtain ⟨s,listed,same⟩ := List.mem_map.mp member
  obtain ⟨k,small,rfl⟩ := List.getElem_of_mem listed
  exact ⟨k,steps[k],List.getElem?_eq_getElem small,same⟩

private theorem pivot_inj (tracks : Tracks n e accepted steps) {k l : Nat} {s t : Step F n} (hk : steps[k]? = some s)
    (hl : steps[l]? = some t) (same : s.pivot = t.pivot) : k = l := by
  have nodup : (steps.map Step.pivot).Nodup := by
    simpa [Function.comp_def,Step.stair] using tracks.stairs.pivots_nodup
  obtain ⟨smallk,rfl⟩ := List.getElem?_eq_some_iff.mp hk
  obtain ⟨smalll,rfl⟩ := List.getElem?_eq_some_iff.mp hl
  have placed : (steps.map Step.pivot)[k]? = (steps.map Step.pivot)[l]? := by simp [smallk,smalll,same]
  exact (List.getElem?_inj (by simpa) nodup).mp placed

/-- Placing the transformation rows at their pivots. -/
private theorem placement (tracks : Tracks n e accepted steps) (full : accepted.length = n) (T : List (List F))
    (height : T.length = n) :
    ∃ inverse rest, (List.range n).foldlM e.place_row (List.replicate n (List.replicate n 0),T) = .ok (inverse,rest) ∧
      inverse.length = n ∧ ∀ (k : Nat) (s : Step F n), steps[k]? = some s → inverse[s.pivot.val]? = T[k]? := by
  let Inv : Nat → List (List F) × List (List F) → Prop := fun j matrices =>
    matrices.1.length = n ∧ matrices.2.length = n ∧ (∀ k, j ≤ k → matrices.2[k]? = T[k]?) ∧
    ∀ (k : Nat) (s : Step F n), k < j → steps[k]? = some s → matrices.1[s.pivot.val]? = T[k]?
  obtain ⟨⟨inverse,rest⟩,ran,long,_,_,placed⟩ :=
    upto_keeps e.place_row Inv n (List.replicate n (List.replicate n 0),T) ⟨by simp,height,by simp,by simp⟩ (by
      rintro j ⟨inverse,T'⟩ inside ⟨long,tlong,left,placed⟩
      have stepped : j < steps.length := by rw [tracks.count]; omega
      have taken : steps[j]? = some steps[j] := List.getElem?_eq_getElem stepped
      have pivot : index e.pivots j = .ok steps[j].pivot.val := index_of (by simp [tracks.pivots,taken])
      have tsmall : j < T'.length := by simp only at tlong; omega
      have ismall : steps[j].pivot.val < inverse.length := by have := steps[j].pivot.isLt; simp only at long; omega
      have read : index T' j = .ok T'[j] := index_of (List.getElem?_eq_getElem tsmall)
      refine ⟨(inverse.set steps[j].pivot.val T'[j],T'.set j []),?_,by simpa using long,by simpa using tlong,?_,?_⟩
      · simp only [place_row,pivot,ok_bind,read,set_at_of tsmall,set_at_of ismall,pure_eq]
      · intro k later
        rw [List.getElem?_set_ne (by omega)]
        exact left k (by omega)
      · intro k s before stepk
        by_cases here : k = j
        · subst here
          obtain rfl : steps[k] = s := Option.some.inj (taken.symm.trans stepk)
          rw [List.getElem?_set_self ismall,← left k le_rfl]
          exact (List.getElem?_eq_getElem tsmall).symm
        · have different : steps[j].pivot.val ≠ s.pivot.val := fun same =>
            here (pivot_inj tracks stepk taken (Fin.ext same.symm))
          rw [List.getElem?_set_ne different]
          exact placed k s (by omega) stepk)
  refine ⟨inverse,rest,ran,long,fun k s stepk => placed k s ?_ stepk⟩
  obtain ⟨small,_⟩ := List.getElem?_eq_some_iff.mp stepk
  rw [tracks.count,full] at small
  exact small

/-- At full rank row `c` of the inverse combines the accepted rows into the unit row at `c`. -/
theorem inverse_spec (tracks : Tracks n e accepted steps) (full : e.is_full = true) :
    ∃ inverse, e.inverse = .ok inverse ∧ inverse.length = n ∧ ∀ c : Fin n, ∃ t, inverse[c.val]? = some t ∧ t.length = n ∧
      comb t (accepted.map (coords n)) = Pi.single c 1 := by
  have complete := (is_full_iff tracks).mp full
  obtain ⟨⟨M,T⟩,substituted,kept⟩ := back_substitution tracks complete
  obtain ⟨inverse,rest,placed,long,at_pivot⟩ := placement tracks complete T kept.theight
  refine ⟨inverse,?_,long,?_⟩
  · simp only [IncrementalEchelon.inverse,require_of full,ok_bind,tracks.width,substituted,placed,pure_eq]
  · intro c
    obtain ⟨k,s,stepk,rfl⟩ := pivot_of_column tracks complete c
    have small : k < n := by
      obtain ⟨small,_⟩ := List.getElem?_eq_some_iff.mp stepk
      rw [tracks.count,complete] at small
      exact small
    obtain ⟨r,t,_,ht,_,twide,made,entries⟩ := kept.row k small
    refine ⟨t,by rw [at_pivot k s stepk]; exact ht,twide,?_⟩
    rw [made]
    funext d
    obtain ⟨l,s',stepl,rfl⟩ := pivot_of_column tracks complete d
    by_cases same : l = k
    · subst same
      obtain rfl : s = s' := Option.some.inj (stepk.symm.trans stepl)
      rw [(entries l s stepl).1 rfl,Pi.single_eq_same]
    · have apart : s'.pivot ≠ s.pivot := fun equal => same (pivot_inj tracks stepl stepk equal)
      rw [Pi.single_eq_of_ne apart]
      rcases Nat.lt_or_gt_of_ne same with before | after
      · exact (entries l s' stepl).2 (.inl before)
      · exact (entries l s' stepl).2 (.inr ⟨after,Nat.zero_le l⟩)

end

/-! ### Offering rows one after the other -/

section
variable {n : Nat}

/-- Offer a row as callers do, which never offer one to a full matrix; the answer is
    then missing. -/
def offer (state : IncrementalEchelon F × List (Option Bool)) (row : List F) :
    Rust (IncrementalEchelon F × List (Option Bool)) := do
  let (self,answers) := state
  if self.is_full then
    return (self,answers ++ [none])
  let (self,grew) ← self.add_row row
  return (self,answers ++ [some grew])

def offer_all (n : Nat) (rows : List (List F)) : Rust (IncrementalEchelon F × List (Option Bool)) :=
  rows.foldlM offer (IncrementalEchelon.new n,[])

/-- What the rows span. -/
def row_span (n : Nat) (rows : List (List F)) : Submodule F (Fin n → F) :=
  Submodule.span F {x | x ∈ rows.map (coords n)}

/-- The answer to a row that is offered after others. -/
structure Decides (n : Nat) (before : List (List F)) (row : List F) (answer : Option Bool) : Prop where
  refused : answer = none ↔ row_span n before = ⊤
  accepted : answer = some true ↔ coords n row ∉ row_span n before

/-- The state after these rows: some of them are accepted, with the same span, and
    each answer was right when it was given. -/
structure Offered (n : Nat) (rows : List (List F)) (state : IncrementalEchelon F × List (Option Bool)) : Prop where
  tracks : ∃ (accepted : List (List F)) (steps : List (Step F n)), Tracks n state.1 accepted steps ∧
    row_span n accepted = row_span n rows
  counted : state.2.count (some true) = state.1.rank
  aligned : state.2.length = rows.length
  decided : ∀ (k : Nat) (row : List F) (answer : Option Bool), rows[k]? = some row → state.2[k]? = some answer →
    Decides n (rows.take k) row answer

/-- One more answer, if it is right, keeps the earlier ones right. -/
private theorem decided_snoc {rows : List (List F)} {answers : List (Option Bool)} (aligned : answers.length = rows.length)
    (decided : ∀ (k : Nat) (row : List F) (answer : Option Bool), rows[k]? = some row → answers[k]? = some answer →
      Decides n (rows.take k) row answer) {row : List F} {answer : Option Bool} (right : Decides n rows row answer) :
    ∀ (k : Nat) (r : List F) (a : Option Bool), (rows ++ [row])[k]? = some r → (answers ++ [answer])[k]? = some a →
      Decides n ((rows ++ [row]).take k) r a := by
  intro k r a atRow atAnswer
  rcases Nat.lt_trichotomy k rows.length with earlier | rfl | later
  · rw [List.getElem?_append_left earlier] at atRow
    rw [List.getElem?_append_left (by omega)] at atAnswer
    rw [List.take_append_of_le_length earlier.le]
    exact decided k r a atRow atAnswer
  · rw [List.getElem?_concat_length] at atRow
    rw [← aligned,List.getElem?_concat_length] at atAnswer
    cases atRow
    cases atAnswer
    rw [List.take_left]
    exact right
  · rw [List.getElem?_eq_none (by simp; omega)] at atRow
    cases atRow

theorem offered_new : Offered n [] ((IncrementalEchelon.new n : IncrementalEchelon F),[]) :=
  ⟨⟨[],[],tracks_new,rfl⟩,rfl,rfl,by simp⟩

/-- Offering one row never panics and gives the right answer. -/
theorem offer_spec {rows : List (List F)} {state : IncrementalEchelon F × List (Option Bool)}
    (offered : Offered n rows state) {row : List F} (wide : row.length = n) :
    ∃ state', offer state row = .ok state' ∧ Offered n (rows ++ [row]) state' := by
  obtain ⟨e,answers⟩ := state
  obtain ⟨⟨accepted,steps,tracks,same⟩,counted,aligned,decided⟩ := offered
  have grown : row_span n (rows ++ [row]) = Submodule.span F {coords n row} ⊔ row_span n rows := by
    rw [row_span,List.map_append,List.map_singleton,span_snoc]
    rfl
  cases full : e.is_full with
  | true =>
    have all : row_span n rows = ⊤ := same ▸ (full_iff_spans tracks).mp full
    refine ⟨(e,answers ++ [none]),by simp [offer,full],⟨accepted,steps,tracks,?_⟩,?_,by simp [aligned],?_⟩
    · rw [same,grown,all,sup_top_eq]
    · simpa using counted
    · exact decided_snoc aligned decided ⟨by simp [all],by simp [all]⟩
  | false =>
    have proper : row_span n rows ≠ ⊤ := by
      intro all
      rw [(full_iff_spans tracks).mpr (same.trans all)] at full
      cases full
    rcases add_row_spec tracks full wide with ⟨member,ran⟩ | ⟨fresh,e',step,ran,tracks'⟩
    · rw [← row_span,same] at member
      refine ⟨(e,answers ++ [some false]),by simp [offer,full,ran],⟨accepted,steps,tracks,?_⟩,?_,by simp [aligned],?_⟩
      · rw [same,row_span,row_span,List.map_append,List.map_singleton]
        exact (span_snoc_of_mem member).symm
      · simpa using counted
      · exact decided_snoc aligned decided ⟨by simp [proper],by simp [member]⟩
    · rw [← row_span,same] at fresh
      refine ⟨(e',answers ++ [some true]),by simp [offer,full,ran],⟨accepted ++ [row],_,tracks',?_⟩,?_,by simp [aligned],?_⟩
      · rw [row_span,List.map_append,List.map_singleton,span_snoc,grown]
        exact congrArg _ same
      · rw [rank_eq tracks',List.count_append,counted,rank_eq tracks]
        simp
      · exact decided_snoc aligned decided ⟨by simp [proper],by simp [fresh]⟩

theorem offer_all_spec (rows : List (List F)) (sizes : ∀ row ∈ rows, row.length = n) :
    ∃ state, offer_all n rows = .ok state ∧ Offered n rows state :=
  fold_keeps offer (Offered n) rows _ offered_new (fun before row after state split offered =>
    offer_spec offered (sizes row (by simp [split])))

/-- The rank is the dimension of what the offered rows span, and full rank means that they span everything. -/
theorem Offered.rank {rows : List (List F)} {state : IncrementalEchelon F × List (Option Bool)}
    (offered : Offered n rows state) : state.1.rank = Module.finrank F (row_span n rows) ∧
      (state.1.is_full = true ↔ row_span n rows = ⊤) := by
  obtain ⟨accepted,steps,tracks,same⟩ := offered.tracks
  refine ⟨?_,?_⟩
  · rw [rank_eq tracks,← same,row_span,tracks.innovative.finrank_span,List.length_map]
  · rw [full_iff_spans tracks,← same,row_span]

theorem row_span_perm {rows rows' : List (List F)} (permuted : rows'.Perm rows) : row_span n rows' = row_span n rows := by
  have same : {x | x ∈ rows'.map (coords n)} = {x | x ∈ rows.map (coords n)} := by
    ext x
    exact (permuted.map (coords n)).mem_iff
  rw [row_span,row_span,same]

/-- A row that is offered to a matrix that is not full is accepted exactly when it lies
    outside the span of the rows offered before it; the rank is the dimension of the
    span of all of them, so neither fullness nor the number of accepted rows depends
    on their order. -/
theorem add_row_decides (n : Nat) (rows : List (List F)) (sizes : ∀ row ∈ rows, row.length = n) :
    ∃ e answers, offer_all n rows = .ok (e,answers) ∧ answers.length = rows.length ∧
      (∀ (k : Nat) (row : List F) (answer : Option Bool), rows[k]? = some row → answers[k]? = some answer →
        Decides n (rows.take k) row answer) ∧
      e.rank = Module.finrank F (row_span n rows) ∧ answers.count (some true) = e.rank ∧
      ∀ rows' : List (List F), rows'.Perm rows → ∃ e' answers', offer_all n rows' = .ok (e',answers') ∧
        e'.is_full = e.is_full ∧ e'.rank = e.rank ∧ answers'.count (some true) = answers.count (some true) := by
  obtain ⟨⟨e,answers⟩,ran,offered⟩ := offer_all_spec rows sizes
  obtain ⟨dimension,spans⟩ := offered.rank
  refine ⟨e,answers,ran,offered.aligned,offered.decided,dimension,offered.counted,?_⟩
  intro rows' permuted
  obtain ⟨⟨e',answers'⟩,ran',offered'⟩ := offer_all_spec rows' (fun row member => sizes row (permuted.mem_iff.mp member))
  obtain ⟨dimension',spans'⟩ := offered'.rank
  have ranks : e'.rank = e.rank := by rw [dimension',row_span_perm permuted,← dimension]
  refine ⟨e',answers',ran',?_,ranks,?_⟩
  · rw [Bool.eq_iff_iff,spans',row_span_perm permuted,spans]
  · rw [offered'.counted,offered.counted,ranks]

/-- Three rational rows of which the second is a multiple of the first. -/
theorem add_row_decides_three :
    ∃ (e : IncrementalEchelon ℚ) (answers : List (Option Bool)), offer_all 2 [[0,1],[0,2],[1,1]] = .ok (e,answers) ∧
      answers.length = 3 ∧
      (∀ (k : Nat) (row : List ℚ) (answer : Option Bool), [[0,1],[0,2],[1,1]][k]? = some row → answers[k]? = some answer →
        Decides 2 ([[0,1],[0,2],[1,1]].take k) row answer) ∧
      e.rank = Module.finrank ℚ (row_span 2 [[(0 : ℚ),1],[0,2],[1,1]]) ∧ answers.count (some true) = e.rank ∧
      ∀ rows' : List (List ℚ), rows'.Perm [[0,1],[0,2],[1,1]] → ∃ e' answers', offer_all 2 rows' = .ok (e',answers') ∧
        e'.is_full = e.is_full ∧ e'.rank = e.rank ∧ answers'.count (some true) = answers.count (some true) :=
  add_row_decides 2 [[0,1],[0,2],[1,1]] (by simp)

end

end

end Rlnc.Echelon
