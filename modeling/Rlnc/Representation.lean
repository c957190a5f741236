import Rlnc.Inversion

/-!
The representation of an echelon. Its rows stay in the order in which they came, so
the zeros form neither a staircase nor a reduced form: each row is zero before its own
pivot and at the pivots of earlier rows, and its transformation row is zero after its
own position. Every insertion and every reset keep all of it (`run_represents`).
-/
namespace Rlnc.Representation
open Rlnc.Panics Rlnc.Combination Rlnc.Elimination Rlnc.Echelon Rlnc.Inversion
set_option linter.unusedSectionVars false

section
variable {F : Type} [Field F] [DecidableEq F]

/-- The fields of an echelon of width `n` whose accepted rows are these. In the product
    all three matrices have `n` rows, the missing ones being zero. -/
structure Represents (n : Nat) (e : IncrementalEchelon F) (accepted : List (List F)) : Prop where
  width : e.n = n
  rows_counted : e.echelon.length = accepted.length
  pivots_counted : e.pivots.length = accepted.length
  transform_counted : e.transform.length = accepted.length
  bounded : accepted.length ≤ n
  distinct : e.pivots.Nodup
  inside : ∀ p ∈ e.pivots, p < n
  wide : ∀ row ∈ e.echelon, row.length = n
  leading : ∀ (j : Nat) (row : List F) (p : Nat), e.echelon[j]? = some row → e.pivots[j]? = some p →
    row[p]? = some 1 ∧ ∀ c < p, row[c]? = some 0
  cleared : ∀ (i j : Nat) (row : List F) (p : Nat), i < j → e.echelon[j]? = some row → e.pivots[i]? = some p →
    row[p]? = some 0
  triangular : ∀ (j : Nat) (trow : List F), e.transform[j]? = some trow →
    trow.length = n ∧ (∀ c, j < c → c < n → trow[c]? = some 0) ∧ ∃ x, x ≠ 0 ∧ trow[j]? = some x
  product : matrix n e.transform * matrix n accepted = matrix n e.echelon

/-! ### What one insertion adds -/

/-- A transformation row that is zero after position `j`, and not at it. -/
structure Triangular (n j : Nat) (trow : List F) : Prop where
  wide : trow.length = n
  zero : ∀ c, j < c → trow.getD c 0 = 0
  own : trow.getD j 0 ≠ 0

/-- The zeros that the span of the rows does not tell. -/
structure Shaped (e : IncrementalEchelon F) : Prop where
  rows_counted : e.pivots.length = e.echelon.length
  transform_counted : e.transform.length = e.echelon.length
  leading : ∀ (j : Nat) (row : List F) (p : Nat), e.echelon[j]? = some row → e.pivots[j]? = some p →
    ∀ c < p, row.getD c 0 = 0
  triangular : ∀ (j : Nat) (trow : List F), e.transform[j]? = some trow → Triangular e.n j trow

open IncrementalEchelon

private theorem getD_subtract_scaled {xs ys : List F} (same : xs.length = ys.length) (factor : F) (c : Nat) :
    (subtract_scaled xs ys factor).getD c 0 = xs.getD c 0 - ys.getD c 0 * factor := by
  rw [subtract_scaled,zip_update_eq _ _ _ same]
  by_cases inside : c < xs.length
  · have inside' : c < ys.length := same ▸ inside
    simp [List.getD_eq_getElem?_getD,inside,inside']
  · have outside : ¬c < ys.length := same ▸ inside
    simp [List.getD_eq_getElem?_getD,inside,outside]

private theorem getD_scaled (xs : List F) (factor : F) (c : Nat) :
    (xs.map (· * factor)).getD c 0 = xs.getD c 0 * factor := by
  by_cases inside : c < xs.length
  · simp [List.getD_eq_getElem?_getD,inside]
  · simp [List.getD_eq_getElem?_getD,inside]

theorem Triangular.scaled {n j : Nat} {trow : List F} (kept : Triangular n j trow) {factor : F} (nonzero : factor ≠ 0) :
    Triangular n j (trow.map (· * factor)) where
  wide := by rw [List.length_map,kept.wide]
  zero c after := by rw [getD_scaled,kept.zero c after,zero_mul]
  own := by
    rw [getD_scaled]
    exact mul_ne_zero kept.own nonzero

/-- The unit row at position `j`. -/
theorem triangular_unit {n j : Nat} (inside : j < n) : Triangular n j ((List.replicate n (0 : F)).set j 1) where
  wide := by simp
  zero c after := by
    rw [List.getD_eq_getElem?_getD,List.getElem?_set_ne (by omega)]
    by_cases below : c < n
    · simp [below]
    · simp [below]
  own := by simp [List.getD_eq_getElem?_getD,inside]

/-- Subtracting an earlier transformation row leaves the own position and the zeros after it. -/
theorem Triangular.subtract {n i j : Nat} {trow earlier : List F} (kept : Triangular n j trow)
    (before : Triangular n i earlier) (order : i < j) (factor : F) :
    Triangular n j (subtract_scaled trow earlier factor) := by
  have same : trow.length = earlier.length := kept.wide.trans before.wide.symm
  refine ⟨?_,?_,?_⟩
  · rw [subtract_scaled,zip_update_length,kept.wide]
  · intro c after
    rw [getD_subtract_scaled same,kept.zero c after,before.zero c (order.trans after),zero_mul,sub_zero]
  · rw [getD_subtract_scaled same,before.zero j order,zero_mul,sub_zero]
    exact kept.own

/-- One round of the reduction keeps the transformation row triangular. -/
theorem reduce_by_triangular {e : IncrementalEchelon F} (shaped : Shaped e) {i j : Nat} (order : i < j)
    {rows rows' : List F × List F} (kept : Triangular e.n j rows.2) (ran : e.reduce_by rows i = .ok rows') :
    Triangular e.n j rows'.2 := by
  obtain ⟨row,trow⟩ := rows
  simp only [reduce_by,bind_ok,index_eq_ok] at ran
  obtain ⟨pivot,_,value,_,ran⟩ := ran
  by_cases zero : value = 0
  · rw [if_pos zero] at ran
    obtain rfl := Except.ok.inj ran
    exact kept
  · simp only [if_neg zero,bind_ok,index_eq_ok] at ran
    obtain ⟨echelonRow,_,transformRow,found,ran⟩ := ran
    obtain rfl := Except.ok.inj ran
    exact kept.subtract (shaped.triangular i transformRow found) order value

/-- A row that is taken adds its first non-zero column as the pivot, its multiple that is
    one there, and the same multiple of a triangular transformation row. -/
theorem add_row_grown {e e' : IncrementalEchelon F} (shaped : Shaped e) {row : List F}
    (ran : e.add_row row = .ok (e',true)) : ∃ (row' trow' : List F) (pivot : Nat) (factor : F),
      e' = { e with
        echelon := e.echelon ++ [row'.map (· * factor)],
        pivots := e.pivots ++ [pivot],
        transform := e.transform ++ [trow'.map (· * factor)] } ∧
      factor ≠ 0 ∧ (∀ c < pivot, row'.getD c 0 = 0) ∧ Triangular e.n e.echelon.length trow' := by
  simp only [add_row,bind_ok,require_eq_ok,set_at_eq_ok] at ran
  obtain ⟨_,_,_,_,trow,⟨room,rfl⟩,⟨row',trow'⟩,reduced,ran⟩ := ran
  have unit : Triangular e.n e.echelon.length ((List.replicate e.n (0 : F)).set e.echelon.length 1) :=
    triangular_unit (by simpa using room)
  have kept := upto_kept (fun _ rows => Triangular e.n e.echelon.length rows.2) reduced unit
    (fun i _ _ order kept stepped => reduce_by_triangular shaped order kept stepped)
  cases found : row'.findIdx? (fun x => decide (x ≠ 0)) with
  | none =>
    rw [found] at ran
    cases (ok_pair ran).2
  | some pivot =>
    simp only [found,bind_ok,index_eq_ok] at ran
    obtain ⟨value,read,ran⟩ := ran
    obtain ⟨rfl,_⟩ := ok_pair ran
    obtain ⟨inside,nonzero,before⟩ := List.findIdx?_eq_some_iff_getElem.mp found
    have entry : row'[pivot] = value := by
      rw [List.getElem?_eq_getElem inside] at read
      exact Option.some.inj read
    refine ⟨row',trow',pivot,value⁻¹,rfl,inv_ne_zero ?_,?_,kept⟩
    · rw [← entry]
      simpa using nonzero
    · intro c earlier
      have below : c < row'.length := earlier.trans inside
      simpa [List.getD_eq_getElem?_getD,below] using before c earlier

theorem shaped_new (n : Nat) : Shaped (IncrementalEchelon.new n : IncrementalEchelon F) where
  rows_counted := rfl
  transform_counted := rfl
  leading j row p found := by simp [IncrementalEchelon.new] at found
  triangular j trow found := by simp [IncrementalEchelon.new] at found

/-- A reading of a list that grew by one element. -/
private theorem snoc_read {α : Type} {xs : List α} {x y : α} {j : Nat} (found : (xs ++ [x])[j]? = some y) :
    xs[j]? = some y ∨ j = xs.length ∧ y = x := by
  rcases Nat.lt_trichotomy j xs.length with before | rfl | after
  · rw [List.getElem?_append_left before] at found
    exact .inl found
  · rw [List.getElem?_concat_length] at found
    exact .inr ⟨rfl,(Option.some.inj found).symm⟩
  · rw [List.getElem?_eq_none (by simp; omega)] at found
    cases found

theorem add_row_shaped {e e' : IncrementalEchelon F} (shaped : Shaped e) {row : List F} {grew : Bool}
    (ran : e.add_row row = .ok (e',grew)) : Shaped e' := by
  rcases add_row_cases ran with ⟨rfl,rfl⟩ | ⟨rfl,_⟩
  · exact shaped
  · obtain ⟨row',trow',pivot,factor,rfl,nonzero,before,kept⟩ := add_row_grown shaped ran
    refine ⟨by simp [shaped.rows_counted],by simp [shaped.transform_counted],?_,?_⟩
    · intro j row p found pivoted c earlier
      rcases snoc_read found with old | ⟨last,rfl⟩
      · have inside : j < e.pivots.length := by
          rw [shaped.rows_counted]
          exact (List.getElem?_eq_some_iff.mp old).1
        rw [List.getElem?_append_left inside] at pivoted
        exact shaped.leading j row p old pivoted c earlier
      · rw [last,← shaped.rows_counted,List.getElem?_concat_length] at pivoted
        obtain rfl := Option.some.inj pivoted
        rw [getD_scaled,before c earlier,zero_mul]
    · intro j trow found
      rcases snoc_read found with old | ⟨last,rfl⟩
      · exact shaped.triangular j trow old
      · rw [last,shaped.transform_counted]
        exact kept.scaled nonzero

theorem perform_shaped {state state' : IncrementalEchelon F × List (List F)} (shaped : Shaped state.1) {call : Call F}
    (ran : perform state call = .ok state') : Shaped state'.1 := by
  obtain ⟨e,accepted⟩ := state
  cases call with
  | reset =>
    obtain rfl := Except.ok.inj ran
    exact shaped_new e.n
  | add_row row =>
    simp only [perform,bind_ok] at ran
    obtain ⟨⟨e',grew⟩,added,ran⟩ := ran
    obtain rfl := Except.ok.inj ran
    exact add_row_shaped shaped added

/-! ### The representation -/

variable {n : Nat}

private theorem read_wide {row : List F} (wide : row.length = n) (c : Nat) (inside : c < n) :
    row[c]? = some (row.getD c 0) := by
  have below : c < row.length := wide ▸ inside
  simp [List.getD_eq_getElem?_getD,below]

/-- The steps behind the fields and the zeros beside them make the representation. -/
theorem represents_of {e : IncrementalEchelon F} {accepted : List (List F)} {steps : List (Step F n)}
    (tracks : Tracks n e accepted steps) (shaped : Shaped e) : Represents n e accepted := by
  have bounded := accepted_le tracks
  have step_at : ∀ (j : Nat) (row : List F), e.echelon[j]? = some row → ∃ s, steps[j]? = some s ∧ s.row = row := by
    intro j row found
    rwa [tracks.echelon,List.getElem?_map,Option.map_eq_some_iff] at found
  have pivot_at : ∀ (j p : Nat), e.pivots[j]? = some p → ∃ s, steps[j]? = some s ∧ s.pivot.val = p := by
    intro j p found
    rwa [tracks.pivots,List.getElem?_map,Option.map_eq_some_iff] at found
  refine ⟨tracks.width,by rw [tracks.echelon,List.length_map,tracks.count],by rw [tracks.pivots,List.length_map,tracks.count],
    by rw [tracks.transform,List.length_map,tracks.count],bounded,?_,?_,?_,?_,?_,?_,?_⟩
  · have nodup := tracks.stairs.pivots_nodup.map Fin.val_injective
    rw [tracks.pivots]
    simpa [Function.comp_def,Step.stair] using nodup
  · intro p member
    rw [tracks.pivots] at member
    obtain ⟨s,_,rfl⟩ := List.mem_map.mp member
    exact s.pivot.isLt
  · intro row member
    rw [tracks.echelon] at member
    obtain ⟨s,_,rfl⟩ := List.mem_map.mp member
    exact s.row_length
  · intro j row p found pivoted
    obtain ⟨s,taken,rfl⟩ := step_at j row found
    obtain ⟨s',taken',rfl⟩ := pivot_at j p pivoted
    obtain rfl := Option.some.inj (taken.symm.trans taken')
    refine ⟨?_,fun c before => ?_⟩
    · have one : coords n s.row s.pivot = 1 :=
        tracks.stairs.leading s.stair (List.mem_map_of_mem (List.mem_of_getElem? taken))
      rw [read_wide s.row_length _ s.pivot.isLt,← coords_apply,one]
    · rw [read_wide s.row_length c (before.trans s.pivot.isLt),shaped.leading j s.row s.pivot.val found pivoted c before]
  · intro i j row p order found pivoted
    obtain ⟨s,taken,rfl⟩ := step_at j row found
    obtain ⟨t,earlier,rfl⟩ := pivot_at i p pivoted
    have zero : coords n s.row t.pivot = 0 := by
      obtain ⟨smallj,rfl⟩ := List.getElem?_eq_some_iff.mp taken
      obtain ⟨smalli,rfl⟩ := List.getElem?_eq_some_iff.mp earlier
      have apart := List.pairwise_iff_getElem.mp tracks.stairs.cleared i j (by simpa using smalli) (by simpa using smallj) order
      simpa [Step.stair] using apart
    rw [read_wide s.row_length _ t.pivot.isLt,← coords_apply,zero]
  · intro j trow found
    have kept := shaped.triangular j trow found
    rw [tracks.width] at kept
    have below : j < n := by
      have small := (List.getElem?_eq_some_iff.mp found).1
      rw [tracks.transform,List.length_map,tracks.count] at small
      omega
    refine ⟨kept.wide,fun c after inside => ?_,trow.getD j 0,kept.own,read_wide kept.wide j below⟩
    rw [read_wide kept.wide c inside,kept.zero c after]
  · funext c
    rw [mul_row bounded]
    cases taken : steps[c.val]? with
    | none =>
      simp [matrix,tracks.transform,tracks.echelon,List.getD_eq_getElem?_getD,taken]
      rfl
    | some s =>
      have made := tracks.origins s (List.mem_of_getElem? taken) []
      rw [List.append_nil] at made
      simpa [matrix,tracks.transform,tracks.echelon,List.getD_eq_getElem?_getD,taken] using made

/-- After every sequence of insertions and resets the fields represent the rows accepted
    since the last reset. -/
theorem run_represents (n : Nat) (calls : List (Call F)) (e : IncrementalEchelon F) (accepted : List (List F))
    (ran : run n calls = .ok (e,accepted)) : Represents n e accepted := by
  obtain ⟨⟨steps,tracks⟩,_⟩ := run_recorded ran
  have shaped : Shaped e := fold_kept (fun _ state => Shaped state.1) ran (shaped_new n)
    (fun _ _ _ _ _ _ kept step => perform_shaped kept step)
  exact represents_of tracks shaped

end

/-- After a reset, one rejected row and pivots out of order. -/
theorem run_represents_two :
    Represents 3 (⟨3,[[0,1,2],[1,0,-8]],[1,0],[[1/2,0,0],[-2,1,0]]⟩ : IncrementalEchelon ℚ) [[0,2,4],[1,4,0]] :=
  run_represents 3 [.add_row [1,1,1],.reset,.add_row [0,2,4],.add_row [0,3,6],.add_row [1,4,0]] _ _ (by decide +kernel)

end Rlnc.Representation
