import Rlnc.Combination

/-!
Gaussian elimination that keeps its rows in the order in which they came. A
staircase is a list of rows with a leading one each, where every row vanishes at
the leading columns of the rows before it, in no order of the columns. Reducing
a vector once along the list decides whether it lies in the span (`reduce_eq_zero_iff`).
-/
namespace Rlnc.Elimination
open Rlnc.Combination
universe u v

section
variable {F : Type u} {ι : Type v} [Field F]

/-- Each row is one at its own column, and zero at the columns of earlier rows. -/
structure Staircase (rows : List ((ι → F) × ι)) : Prop where
  leading : ∀ row ∈ rows, row.1 row.2 = 1
  cleared : rows.Pairwise (fun earlier later => later.1 earlier.2 = 0)

/-- The vectors of the rows. -/
def vectors (rows : List ((ι → F) × ι)) : List (ι → F) := rows.map Prod.fst

/-- Subtract the multiple of a row that clears its column. -/
def clear (v : ι → F) (row : (ι → F) × ι) : ι → F := v - v row.2 • row.1

/-- Clear the columns of all rows, in the order of the list. -/
def reduce (rows : List ((ι → F) × ι)) (v : ι → F) : ι → F := rows.foldl clear v

@[simp] theorem reduce_nil (v : ι → F) : reduce [] v = v := rfl
@[simp] theorem reduce_snoc (rows : List ((ι → F) × ι)) (row : (ι → F) × ι) (v : ι → F) :
    reduce (rows ++ [row]) v = clear (reduce rows v) row := by simp [reduce]

theorem Staircase.nil : Staircase ([] : List ((ι → F) × ι)) := ⟨by simp,List.Pairwise.nil⟩

theorem Staircase.tail {row : (ι → F) × ι} {rows : List ((ι → F) × ι)} (stairs : Staircase (row :: rows)) :
    Staircase rows ∧ ∀ later ∈ rows, later.1 row.2 = 0 := by
  obtain ⟨head,rest⟩ := List.pairwise_cons.mp stairs.cleared
  exact ⟨⟨fun r member => stairs.leading r (by simp [member]),rest⟩,head⟩

theorem reduce_keeps (rows : List ((ι → F) × ι)) (v : ι → F) (c : ι) (zero : ∀ row ∈ rows, row.1 c = 0) :
    reduce rows v c = v c := by
  induction rows generalizing v with
  | nil => rfl
  | cons row rows ih =>
    have rest := ih (clear v row) (fun r member => zero r (by simp [member]))
    calc reduce (row :: rows) v c = clear v row c := rest
      _ = v c := by simp [clear,zero row (by simp)]

/-- Later rows keep the columns that earlier rows cleared. -/
theorem reduce_pivot {rows : List ((ι → F) × ι)} (stairs : Staircase rows) (v : ι → F) :
    ∀ row ∈ rows, reduce rows v row.2 = 0 := by
  induction rows generalizing v with
  | nil => simp
  | cons first rows ih =>
    obtain ⟨rest,zero⟩ := stairs.tail
    intro row member
    rcases List.mem_cons.mp member with same | later
    · subst same
      have kept := reduce_keeps rows (clear v row) row.2 zero
      have one := stairs.leading row (by simp)
      calc reduce (row :: rows) v row.2 = clear v row row.2 := kept
        _ = 0 := by simp [clear,one]
    · exact ih rest (clear v first) row later

theorem reduce_sub_mem (rows : List ((ι → F) × ι)) (v : ι → F) :
    v - reduce rows v ∈ Submodule.span F {x | x ∈ vectors rows} := by
  induction rows generalizing v with
  | nil => simp
  | cons row rows ih =>
    have step : v - clear v row ∈ Submodule.span F {x | x ∈ vectors (row :: rows)} := by
      have multiple : v - clear v row = v row.2 • row.1 := by simp [clear]
      rw [multiple]
      exact Submodule.smul_mem _ _ (Submodule.subset_span (by simp [vectors]))
    have rest : clear v row - reduce rows (clear v row) ∈ Submodule.span F {x | x ∈ vectors (row :: rows)} :=
      Submodule.span_mono (fun x member => List.mem_cons_of_mem row.1 member) (ih (clear v row))
    have total := Submodule.add_mem _ step rest
    simpa [reduce] using total

theorem span_zero_at {S : Set (ι → F)} {c : ι} (zero : ∀ x ∈ S, x c = 0) {u : ι → F} (member : u ∈ Submodule.span F S) :
    u c = 0 := by
  induction member using Submodule.span_induction with
  | mem x inside => exact zero x inside
  | zero => rfl
  | add x y _ _ hx hy => simp [hx,hy]
  | smul a x _ hx => simp [hx]

/-- Only zero in the span vanishes at every leading column: the coefficient of
    the first row is the value at its column, and then the next, and so on. -/
theorem eq_zero_of_pivots {rows : List ((ι → F) × ι)} (stairs : Staircase rows) {u : ι → F}
    (member : u ∈ Submodule.span F {x | x ∈ vectors rows}) (zero : ∀ row ∈ rows, u row.2 = 0) : u = 0 := by
  induction rows generalizing u with
  | nil => simpa [vectors] using member
  | cons row rows ih =>
    obtain ⟨rest,below⟩ := stairs.tail
    have split : {x | x ∈ vectors (row :: rows)} = insert row.1 {x | x ∈ vectors rows} := by
      ext x
      simp [vectors]
    rw [split,Submodule.mem_span_insert] at member
    obtain ⟨a,w,inside,sum⟩ := member
    have wZero : w row.2 = 0 := span_zero_at (by
      rintro x listed
      obtain ⟨later,memberLater,rfl⟩ := List.mem_map.mp listed
      exact below later memberLater) inside
    have coefficient : a = 0 := by
      have at_row := zero row (by simp)
      simpa [sum,wZero,stairs.leading row (by simp)] using at_row
    have same : u = w := by simp [sum,coefficient]
    rw [same] at zero ⊢
    exact ih rest inside (fun r later => zero r (by simp [later]))

/-- One pass along the rows decides membership in their span. -/
theorem reduce_eq_zero_iff {rows : List ((ι → F) × ι)} (stairs : Staircase rows) (v : ι → F) :
    reduce rows v = 0 ↔ v ∈ Submodule.span F {x | x ∈ vectors rows} := by
  have difference := reduce_sub_mem rows v
  constructor
  · intro zero
    simpa [zero] using difference
  · intro member
    apply eq_zero_of_pivots stairs ?_ (reduce_pivot stairs v)
    have inside := Submodule.sub_mem _ member difference
    simpa using inside

/-- A reduced vector, scaled to one at a column where it does not vanish, extends the staircase. -/
theorem Staircase.snoc {rows : List ((ι → F) × ι)} (stairs : Staircase rows) (v : ι → F) {c : ι}
    (nonzero : reduce rows v c ≠ 0) :
    Staircase (rows ++ [((reduce rows v c)⁻¹ • reduce rows v,c)]) := by
  refine ⟨?_,?_⟩
  · intro row member
    rcases List.mem_append.mp member with old | new
    · exact stairs.leading row old
    · obtain rfl := List.mem_singleton.mp new
      simp [inv_mul_cancel₀ nonzero]
  · rw [List.pairwise_append]
    refine ⟨stairs.cleared,List.pairwise_singleton _ _,?_⟩
    intro earlier old later new
    obtain rfl := List.mem_singleton.mp new
    simp [reduce_pivot stairs v earlier old]

/-- Adding the scaled reduced vector spans what adding the vector itself spans. -/
theorem span_reduce_snoc (rows : List ((ι → F) × ι)) (v : ι → F) (c : ι) (nonzero : reduce rows v c ≠ 0) :
    Submodule.span F {x | x ∈ vectors (rows ++ [((reduce rows v c)⁻¹ • reduce rows v,c)])} =
      Submodule.span F {v} ⊔ Submodule.span F {x | x ∈ vectors rows} := by
  have asSnoc : vectors (rows ++ [((reduce rows v c)⁻¹ • reduce rows v,c)]) =
      vectors rows ++ [(reduce rows v c)⁻¹ • reduce rows v] := by simp [vectors]
  rw [asSnoc,span_snoc]
  have difference := reduce_sub_mem rows v
  apply le_antisymm
  · apply sup_le _ le_sup_right
    rw [Submodule.span_singleton_le_iff_mem]
    apply Submodule.smul_mem
    have rewritten : reduce rows v = v - (v - reduce rows v) := by simp
    rw [rewritten]
    exact Submodule.sub_mem _ (Submodule.mem_sup_left (Submodule.mem_span_singleton_self v))
      (Submodule.mem_sup_right difference)
  · apply sup_le _ le_sup_right
    rw [Submodule.span_singleton_le_iff_mem]
    have parts : reduce rows v c • ((reduce rows v c)⁻¹ • reduce rows v) + (v - reduce rows v) = v := by
      rw [smul_inv_smul₀ nonzero]
      simp
    have scaled := Submodule.smul_mem _ (reduce rows v c)
      (Submodule.mem_span_singleton_self (R := F) ((reduce rows v c)⁻¹ • reduce rows v))
    have inside := Submodule.add_mem _ (Submodule.mem_sup_left scaled) (Submodule.mem_sup_right difference)
    rwa [parts] at inside

/-- Leading columns are pairwise distinct. -/
theorem Staircase.pivots_nodup {rows : List ((ι → F) × ι)} (stairs : Staircase rows) : (rows.map Prod.snd).Nodup := by
  induction rows with
  | nil => simp
  | cons row rows ih =>
    obtain ⟨rest,zero⟩ := stairs.tail
    rw [List.map_cons,List.nodup_cons]
    refine ⟨?_,ih rest⟩
    intro member
    obtain ⟨later,inside,same⟩ := List.mem_map.mp member
    have one := stairs.leading later (by simp [inside])
    rw [same,zero later inside] at one
    exact zero_ne_one one

end

end Rlnc.Elimination
