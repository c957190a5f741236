import Mathlib

/-!
Code that can panic. A computation returns a value or stops with the panic that a
build with debug assertions raises: a failed assertion, a failed `expect`, an
index outside its slice or an integer overflow. Loops are folds over the list of
their indices, with one rule for a loop whose body keeps an invariant
(`fold_keeps`).
-/
namespace Rlnc.Panics

inductive Panic
  | assertion (message : String)
  | expectation (message : String)
  | out_of_bounds
  | overflow
deriving DecidableEq, Repr

/-- A computation that may panic. -/
abbrev Rust (α : Type) := Except Panic α

section
variable {α : Type} {β : Type}

/-- `assert!` and `debug_assert!`. -/
def require (condition : Prop) [Decidable condition] (message : String) : Rust Unit :=
  if condition then .ok () else .error (.assertion message)

/-- `Option::expect`. -/
def expect (x : Option α) (message : String) : Rust α :=
  match x with
  | some x => .ok x
  | none => .error (.expectation message)

/-- `xs[i]` -/
def index (xs : List α) (i : Nat) : Rust α :=
  match xs[i]? with
  | some x => .ok x
  | none => .error .out_of_bounds

/-- `xs[i] = x` -/
def set_at (xs : List α) (i : Nat) (x : α) : Rust (List α) :=
  if i < xs.length then .ok (xs.set i x) else .error .out_of_bounds

/-- `xs[i].push(x)` -/
def push_at (xss : List (List α)) (i : Nat) (x : α) : Rust (List (List α)) := do
  let xs ← index xss i
  set_at xss i (xs ++ [x])

/-- `xs[i] += k` -/
def add_at (xs : List Nat) (i k : Nat) : Rust (List Nat) := do
  let x ← index xs i
  set_at xs i (x + k)

/-- `a - b` on unsigned integers. -/
def checked_sub (a b : Nat) : Rust Nat := if b ≤ a then .ok (a - b) else .error .overflow

/-- `xs[..count]` -/
def slice_to (xs : List α) (count : Nat) : Rust (List α) :=
  if count ≤ xs.length then .ok (xs.take count) else .error .out_of_bounds

/-- `for (x, y) in xs.iter_mut().zip(ys) { *x = f(x, y) }` -/
def zip_update (f : α → β → α) : List α → List β → List α
  | x :: xs, y :: ys => f x y :: zip_update f xs ys
  | xs, _ => xs

end

section
variable {α β : Type}

theorem bind_ok (x : Rust α) (f : α → Rust β) (r : β) :
    (x >>= f) = .ok r ↔ ∃ a, x = .ok a ∧ f a = .ok r := by
  cases x <;> simp [bind,Except.bind]

theorem bind_error (x : Rust α) (f : α → Rust β) (p : Panic) :
    (x >>= f) = .error p ↔ x = .error p ∨ ∃ a, x = .ok a ∧ f a = .error p := by
  cases x <;> simp [bind,Except.bind]

@[simp] theorem ok_bind (a : α) (f : α → Rust β) : ((.ok a : Rust α) >>= f) = f a := rfl
@[simp] theorem pure_bind' (a : α) (f : α → Rust β) : ((pure a : Rust α) >>= f) = f a := rfl
@[simp] theorem error_bind (p : Panic) (f : α → Rust β) : ((.error p : Rust α) >>= f) = .error p := rfl
@[simp] theorem pure_eq (a : α) : (pure a : Rust α) = .ok a := rfl

theorem ok_pair {ε : Type} {a a' : α} {b b' : β} (same : (.ok (a,b) : Except ε (α × β)) = .ok (a',b')) :
    a = a' ∧ b = b' := Prod.mk.inj (Except.ok.inj same)

theorem map_ok {x : Rust α} {f : α → β} {r : β} (ran : x.map f = .ok r) : ∃ a, x = .ok a ∧ f a = r := by
  cases x with
  | error p => cases ran
  | ok a => exact ⟨a,rfl,Except.ok.inj ran⟩

end

section
variable {α : Type} {β : Type}

@[simp] theorem require_eq_ok (condition : Prop) [Decidable condition] (message : String) (r : Unit) :
    require condition message = .ok r ↔ condition := by
  unfold require
  split <;> simp_all

theorem require_of {condition : Prop} [Decidable condition] (holds : condition) (message : String) :
    require condition message = .ok () := if_pos holds

theorem require_not {condition : Prop} [Decidable condition] (fails : ¬condition) (message : String) :
    require condition message = .error (.assertion message) := if_neg fails

@[simp] theorem index_eq_ok (xs : List α) (i : Nat) (x : α) : index xs i = .ok x ↔ xs[i]? = some x := by
  unfold index
  split <;> simp_all

theorem index_of {xs : List α} {i : Nat} {x : α} (found : xs[i]? = some x) : index xs i = .ok x :=
  (index_eq_ok xs i x).mpr found

theorem set_at_eq_ok (xs : List α) (i : Nat) (x : α) (r : List α) :
    set_at xs i x = .ok r ↔ i < xs.length ∧ xs.set i x = r := by
  unfold set_at
  split <;> simp_all

theorem set_at_of {xs : List α} {i : Nat} (inside : i < xs.length) (x : α) : set_at xs i x = .ok (xs.set i x) :=
  if_pos inside

theorem add_at_of {xs : List Nat} {i : Nat} (inside : i < xs.length) (k : Nat) :
    add_at xs i k = .ok (xs.set i (xs[i] + k)) := by
  simp only [add_at,index_of (List.getElem?_eq_getElem inside),ok_bind,set_at_of inside]

theorem push_at_eq_ok (xss : List (List α)) (i : Nat) (x : α) (r : List (List α)) :
    push_at xss i x = .ok r ↔ ∃ xs, xss[i]? = some xs ∧ xss.set i (xs ++ [x]) = r := by
  simp only [push_at,bind_ok,index_eq_ok,set_at_eq_ok]
  constructor
  · rintro ⟨xs,found,_,placed⟩
    exact ⟨xs,found,placed⟩
  · rintro ⟨xs,found,placed⟩
    exact ⟨xs,found,(List.getElem?_eq_some_iff.mp found).1,placed⟩

theorem slice_to_of {xs : List α} {count : Nat} (inside : count ≤ xs.length) :
    slice_to xs count = .ok (xs.take count) := if_pos inside

@[simp] theorem slice_to_eq_ok (xs : List α) (count : Nat) (r : List α) :
    slice_to xs count = .ok r ↔ count ≤ xs.length ∧ xs.take count = r := by
  unfold slice_to
  split <;> simp_all

/-- Updating along a list of the same length is `zipWith`. -/
theorem zip_update_eq (f : α → β → α) (xs : List α) (ys : List β) (same : xs.length = ys.length) :
    zip_update f xs ys = List.zipWith f xs ys := by
  induction xs generalizing ys with
  | nil => rfl
  | cons x xs ih =>
    cases ys with
    | nil => simp at same
    | cons y ys => simp [zip_update,ih ys (by simpa using same)]

@[simp] theorem zip_update_length (f : α → β → α) (xs : List α) (ys : List β) :
    (zip_update f xs ys).length = xs.length := by
  induction xs generalizing ys with
  | nil => rfl
  | cons x xs ih => cases ys <;> simp [zip_update,ih]

end

section
variable {σ : Type} {α : Type}

/-- A loop keeps an invariant over the indices it has passed, if its body does. -/
theorem fold_keeps (body : σ → α → Rust σ) (Inv : List α → σ → Prop) (xs : List α) (s : σ) (start : Inv [] s)
    (step : ∀ before x after s, xs = before ++ x :: after → Inv before s →
      ∃ t, body s x = .ok t ∧ Inv (before ++ [x]) t) :
    ∃ t, xs.foldlM body s = .ok t ∧ Inv xs t := by
  induction xs using List.reverseRecOn with
  | nil => exact ⟨s,rfl,start⟩
  | append_singleton xs x ih =>
    obtain ⟨m,ran,kept⟩ := ih (fun before y after s split =>
      step before y (after ++ [x]) s (by simp [split]))
    obtain ⟨t,last,done⟩ := step xs x [] m rfl kept
    exact ⟨t,by simp [List.foldlM_append,ran,last],done⟩

/-- A loop whose body never panics does not panic. -/
theorem fold_returns {body : σ → α → Rust σ} {xs : List α} {s : σ} {p : Panic}
    (step : ∀ before x after s, xs = before ++ x :: after → ∃ t, body s x = .ok t) : xs.foldlM body s ≠ .error p := by
  obtain ⟨t,ran,_⟩ := fold_keeps body (fun _ _ => True) xs s trivial (fun before x after s split _ =>
    (step before x after s split).imp fun _ ran => ⟨ran,trivial⟩)
  rw [ran]
  exact fun failed => by cases failed

/-- A loop that returned has kept what its body keeps whenever it returns. -/
theorem fold_kept {body : σ → α → Rust σ} (Inv : List α → σ → Prop) {xs : List α} {s t : σ}
    (ran : xs.foldlM body s = .ok t) (start : Inv [] s)
    (step : ∀ before x after s t, xs = before ++ x :: after → Inv before s → body s x = .ok t → Inv (before ++ [x]) t) :
    Inv xs t := by
  induction xs using List.reverseRecOn generalizing t with
  | nil =>
    obtain rfl : s = t := by simpa using ran
    exact start
  | append_singleton xs x ih =>
    simp only [List.foldlM_append,bind_ok,List.foldlM_cons,List.foldlM_nil,pure_eq] at ran
    obtain ⟨m,first,last,final,same⟩ := ran
    obtain rfl : last = t := Except.ok.inj same
    have kept := ih first (fun before y after s t split => step before y (after ++ [x]) s t (by simp [split]))
    exact step xs x [] m last rfl kept final

/-- A loop over `0..n`. -/
theorem upto_keeps (body : σ → Nat → Rust σ) (Inv : Nat → σ → Prop) (n : Nat) (s : σ) (start : Inv 0 s)
    (step : ∀ j s, j < n → Inv j s → ∃ t, body s j = .ok t ∧ Inv (j + 1) t) :
    ∃ t, (List.range n).foldlM body s = .ok t ∧ Inv n t := by
  induction n with
  | zero => exact ⟨s,rfl,start⟩
  | succ n ih =>
    obtain ⟨m,ran,kept⟩ := ih (fun j s inside => step j s (by omega))
    obtain ⟨t,last,done⟩ := step n m (by omega) kept
    exact ⟨t,by simp [List.range_succ,List.foldlM_append,ran,last],done⟩

/-- A loop over `0..n` that returned. -/
theorem upto_kept {body : σ → Nat → Rust σ} (Inv : Nat → σ → Prop) {n : Nat} {s t : σ}
    (ran : (List.range n).foldlM body s = .ok t) (start : Inv 0 s)
    (step : ∀ j s t, j < n → Inv j s → body s j = .ok t → Inv (j + 1) t) : Inv n t := by
  induction n generalizing t with
  | zero =>
    obtain rfl : s = t := by simpa using ran
    exact start
  | succ n ih =>
    simp only [List.range_succ,List.foldlM_append,bind_ok,List.foldlM_cons,List.foldlM_nil,pure_eq] at ran
    obtain ⟨m,first,last,final,same⟩ := ran
    obtain rfl : last = t := Except.ok.inj same
    exact step n m last (by omega) (ih first (fun j s t inside => step j s t (by omega))) final

/-- A loop over `(0..n).rev()`. -/
theorem downto_keeps (body : σ → Nat → Rust σ) (Inv : Nat → σ → Prop) (n : Nat) (s : σ) (start : Inv n s)
    (step : ∀ j s, j < n → Inv (j + 1) s → ∃ t, body s j = .ok t ∧ Inv j t) :
    ∃ t, (List.range n).reverse.foldlM body s = .ok t ∧ Inv 0 t := by
  induction n generalizing s with
  | zero => exact ⟨s,rfl,start⟩
  | succ n ih =>
    obtain ⟨m,first,kept⟩ := step n s (by omega) start
    obtain ⟨t,ran,done⟩ := ih m kept (fun j s inside => step j s (by omega))
    refine ⟨t,?_,done⟩
    rw [List.range_succ,List.reverse_append,List.reverse_singleton,List.singleton_append,List.foldlM_cons,first]
    exact ran

end

section
variable {α β : Type}

/-- Mapping a computation that returns everywhere returns the list of results. -/
theorem map_keeps (f : α → Rust β) (P : α → β → Prop) (xs : List α) (step : ∀ x ∈ xs, ∃ y, f x = .ok y ∧ P x y) :
    ∃ ys, xs.mapM f = .ok ys ∧ List.Forall₂ P xs ys := by
  induction xs with
  | nil => exact ⟨[],rfl,.nil⟩
  | cons x xs ih =>
    obtain ⟨y,here,good⟩ := step x (by simp)
    obtain ⟨ys,rest,all⟩ := ih (fun x member => step x (by simp [member]))
    exact ⟨y :: ys,by simp [List.mapM_cons,here,rest],.cons good all⟩

theorem mapM_replicate {f : α → Rust β} {x : α} {y : β} (run : f x = .ok y) (count : Nat) :
    (List.replicate count x).mapM f = .ok (List.replicate count y) := by
  induction count with
  | zero => rfl
  | succ count ih =>
    rw [List.replicate_succ,List.mapM_cons,run,ok_bind,ih]
    rfl

/-- A computation that returned a list returned an element at each place. -/
theorem mapM_ok {f : α → Rust β} {xs : List α} {ys : List β} (ran : xs.mapM f = .ok ys) :
    List.Forall₂ (fun x y => f x = .ok y) xs ys := by
  induction xs generalizing ys with
  | nil =>
    obtain rfl : [] = ys := by simpa using ran
    exact .nil
  | cons x xs ih =>
    rw [List.mapM_cons,bind_ok] at ran
    obtain ⟨y,here,ran⟩ := ran
    rw [bind_ok] at ran
    obtain ⟨rest,later,ran⟩ := ran
    obtain rfl : y :: rest = ys := by simpa using ran
    exact .cons here (ih later)

theorem mapM_each {f : α → Rust β} {xs : List α} {ys : List β} (ran : xs.mapM f = .ok ys) :
    ∀ y ∈ ys, ∃ x ∈ xs, f x = .ok y := by
  have made := mapM_ok ran
  intro y member
  obtain ⟨i,small,rfl⟩ := List.getElem_of_mem member
  have inside : i < xs.length := made.length_eq ▸ small
  exact ⟨xs[i],List.getElem_mem inside,(List.forall₂_iff_get.mp made).2 i inside small⟩

end

end Rlnc.Panics
