import Rlnc.Echelon

/-!
Runs of an echelon: rows are added and it is reset, in any order. The rows that were
accepted since the last reset are recorded beside it (`run`); once it is full they form
a square matrix, and `inverse` returns its two-sided inverse (`inverse_of_accepted`).
-/
namespace Rlnc.Inversion
open Rlnc.Panics Rlnc.Combination Rlnc.Echelon
set_option linter.unusedSectionVars false

/-- The calls that change an echelon. -/
inductive Call (F : Type)
  | add_row (row : List F)
  | reset
deriving DecidableEq

section
variable {F : Type} [Field F] [DecidableEq F]

/-- One call, and what it does to the rows accepted since the last reset. -/
def perform (state : IncrementalEchelon F × List (List F)) (call : Call F) :
    Rust (IncrementalEchelon F × List (List F)) := do
  let (self,accepted) := state
  match call with
  | .reset => return (self.reset,[])
  | .add_row row =>
    let (self,grew) ← self.add_row row
    return (self,if grew then accepted ++ [row] else accepted)

/-- The calls one after the other, on a new echelon. -/
def run (n : Nat) (calls : List (Call F)) : Rust (IncrementalEchelon F × List (List F)) :=
  calls.foldlM perform (IncrementalEchelon.new n,[])

/-- The matrix of these rows. -/
def matrix (n : Nat) (rows : List (List F)) : Matrix (Fin n) (Fin n) F := fun i => coords n (rows.getD i [])

variable {n : Nat}

/-- The steps of the echelon are those of the recorded rows. -/
structure Recorded (n : Nat) (state : IncrementalEchelon F × List (List F)) : Prop where
  tracks : ∃ steps : List (Step F n), Tracks n state.1 state.2 steps
  sizes : ∀ row ∈ state.2, row.length = n

theorem recorded_new : Recorded n ((IncrementalEchelon.new n : IncrementalEchelon F),[]) := ⟨⟨[],tracks_new⟩,by simp⟩

/-- A reset leaves a new echelon. -/
theorem recorded_reset {e : IncrementalEchelon F} {accepted : List (List F)} (recorded : Recorded n (e,accepted)) :
    Recorded n (e.reset,[]) := by
  obtain ⟨steps,tracks⟩ := recorded.tracks
  have fresh : e.reset = IncrementalEchelon.new n := by rw [IncrementalEchelon.reset,tracks.width]; rfl
  rw [fresh]
  exact recorded_new

/-- A row that is added without a panic has the right length and finds room. -/
theorem add_row_requires {e e' : IncrementalEchelon F} {row : List F} {grew : Bool} (ran : e.add_row row = .ok (e',grew)) :
    row.length = e.n ∧ e.is_full = false := by
  simp only [IncrementalEchelon.add_row,bind_ok,require_eq_ok] at ran
  obtain ⟨_,wide,_,room,_⟩ := ran
  exact ⟨wide,room⟩

/-- One call keeps the record. -/
theorem recorded_perform {state state' : IncrementalEchelon F × List (List F)} (recorded : Recorded n state) {call : Call F}
    (ran : perform state call = .ok state') : Recorded n state' := by
  obtain ⟨e,accepted⟩ := state
  cases call with
  | reset =>
    obtain rfl := Except.ok.inj ran
    exact recorded_reset recorded
  | add_row row =>
    obtain ⟨⟨steps,tracks⟩,sizes⟩ := recorded
    simp only [perform,bind_ok] at ran
    obtain ⟨⟨e',grew⟩,added,ran⟩ := ran
    obtain rfl := Except.ok.inj ran
    obtain ⟨wide,room⟩ := add_row_requires added
    rcases add_row_spec tracks room (wide.trans tracks.width) with ⟨_,same⟩ | ⟨_,e'',step,same,tracks'⟩
    · obtain ⟨rfl,rfl⟩ := ok_pair (added.symm.trans same)
      exact ⟨⟨steps,tracks⟩,sizes⟩
    · obtain ⟨rfl,rfl⟩ := ok_pair (added.symm.trans same)
      refine ⟨⟨_,tracks'⟩,fun r member => ?_⟩
      rcases List.mem_append.mp member with old | new
      · exact sizes r old
      · rw [List.mem_singleton.mp new]
        exact wide.trans tracks.width

theorem run_recorded {calls : List (Call F)} {state : IncrementalEchelon F × List (List F)}
    (ran : run n calls = .ok state) : Recorded n state :=
  fold_kept (fun _ state => Recorded n state) ran recorded_new
    (fun _ _ _ _ _ _ recorded step => recorded_perform recorded step)

/-- A row of a product combines the rows of the second matrix. -/
theorem mul_row {rows : List (List F)} (count : rows.length ≤ n) (M : List (List F)) (c : Fin n) :
    (matrix n M * matrix n rows) c = comb (M.getD c []) (rows.map (coords n)) := by
  have row : ∀ i : Fin n, (rows.map (coords n)).getD i 0 = coords n (rows.getD i []) := by
    intro i
    by_cases inside : i.val < rows.length
    · simp [List.getD_eq_getElem?_getD,inside]
    · funext d
      simp [List.getD_eq_getElem?_getD,inside]
  funext d
  rw [comb_eq_weigh_of_le (n := n) _ (by rwa [List.length_map]),weigh,Fintype.linearCombination_apply,Matrix.mul_apply,
    Finset.sum_apply]
  refine Finset.sum_congr rfl fun i _ => ?_
  rw [row i,Pi.smul_apply,smul_eq_mul]
  rfl

/-- Rows that combine the rows of a matrix into the unit rows form its left inverse. -/
theorem left_inverse {rows M : List (List F)} (count : rows.length = n)
    (units : ∀ c : Fin n, ∃ t, M[c.val]? = some t ∧ t.length = n ∧ comb t (rows.map (coords n)) = Pi.single c 1) :
    matrix n M * matrix n rows = 1 := by
  ext c d
  obtain ⟨t,found,_,unit⟩ := units c
  have listed : M.getD c [] = t := by rw [List.getD_eq_getElem?_getD,found,Option.getD_some]
  rw [mul_row count.le,listed,unit,Matrix.one_apply,Pi.single_apply]
  simp only [eq_comm]

/-- Whatever was added and rejected and however often it was reset, a full echelon has
    recorded a square matrix, and `inverse` is the inverse of it. -/
theorem inverse_of_accepted (n : Nat) (calls : List (Call F)) (e : IncrementalEchelon F) (accepted : List (List F))
    (ran : run n calls = .ok (e,accepted)) (full : e.is_full = true) :
    accepted.length = n ∧ (∀ row ∈ accepted, row.length = n) ∧
    ∃ M, e.inverse = .ok M ∧ M.length = n ∧ (∀ row ∈ M, row.length = n) ∧
      matrix n M * matrix n accepted = 1 ∧ matrix n accepted * matrix n M = 1 := by
  obtain ⟨⟨steps,tracks⟩,sizes⟩ := run_recorded ran
  have count : accepted.length = n := (is_full_iff tracks).mp full
  obtain ⟨M,inverted,long,units⟩ := inverse_spec tracks full
  have product := left_inverse count units
  refine ⟨count,sizes,M,inverted,long,?_,product,mul_eq_one_comm.mp product⟩
  intro row member
  obtain ⟨c,small,rfl⟩ := List.getElem_of_mem member
  obtain ⟨t,found,wide,_⟩ := units ⟨c,long ▸ small⟩
  rw [List.getElem?_eq_getElem small] at found
  rw [Option.some.inj found]
  exact wide

end

/-- A row of an earlier block, and after the reset one rejected row and pivots out of order. -/
theorem inverse_of_accepted_two : ∃ e : IncrementalEchelon ℚ,
    run 2 [.add_row [1,1],.reset,.add_row [0,2],.add_row [0,3],.add_row [1,4]] = .ok (e,[[0,2],[1,4]]) ∧
    ∃ M, e.inverse = .ok M ∧ M.length = 2 ∧ (∀ row ∈ M, row.length = 2) ∧
      matrix 2 M * matrix 2 [[0,2],[1,4]] = 1 ∧ matrix 2 [[0,2],[1,4]] * matrix 2 M = 1 := by
  have ran : run 2 [.add_row [1,1],.reset,.add_row [0,2],.add_row [0,3],.add_row [1,4]] =
      .ok ((⟨2,[[0,1],[1,0]],[1,0],[[1/2,0],[-2,1]]⟩ : IncrementalEchelon ℚ),[[0,2],[1,4]]) := by decide +kernel
  exact ⟨_,ran,(inverse_of_accepted 2 _ _ _ ran (by decide +kernel)).2.2⟩

end Rlnc.Inversion
