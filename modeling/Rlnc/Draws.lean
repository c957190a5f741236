import Rlnc.Panics

/-!
Randomness. A generator is the stream of outcomes that it will give, so whatever
holds for every generator holds for every random choice. What the random number
library makes of one outcome, a scalar or a shuffled slice, is a parameter.
`CanGive` says that some outcomes make a computation return a wanted value.
-/
namespace Rlnc.Draws
open Rlnc.Panics

/-- The outcomes of a random generator. -/
abbrev Rng := Stream' Nat

/-- `F::random` -/
class Random (F : Type) where
  random : Nat → F

/-- Random scalars are never zero, and every other scalar can be drawn. -/
class LawfulRandom (F : Type) [Zero F] [Random F] : Prop where
  nonzero : ∀ draw, (Random.random draw : F) ≠ 0
  every : ∀ x : F, x ≠ 0 → ∃ draw, Random.random draw = x

/-- `SliceRandom::shuffle` -/
class SliceRandom where
  shuffle : {α : Type} → Nat → List α → List α

/-- Shuffling permutes, and every permutation can be drawn. -/
class LawfulSliceRandom [SliceRandom] : Prop where
  perm : ∀ {α : Type} (draw : Nat) (xs : List α), (SliceRandom.shuffle draw xs).Perm xs
  every : ∀ {α : Type} (xs ys : List α), ys.Perm xs → ∃ draw, SliceRandom.shuffle draw xs = ys

/-- Sample a random coefficient vector of length `n`. -/
def random_coefficients {F : Type} [Random F] : Nat → Rng → List F × Rng
  | 0, rng => ([],rng)
  | n + 1, rng =>
    let (coeffs,rest) := random_coefficients n rng.tail
    (Random.random rng.head :: coeffs,rest)

/-- Random bytes. -/
def random_bytes : Nat → Rng → List UInt8 × Rng
  | 0, rng => ([],rng)
  | n + 1, rng =>
    let (bytes,rest) := random_bytes n rng.tail
    (UInt8.ofNat rng.head :: bytes,rest)

/-- `(0..count).map(|_| step).collect()` with a generator. -/
def collect {α : Type} (step : Rng → Rust (α × Rng)) : Nat → Rng → Rust (List α × Rng)
  | 0, rng => .ok ([],rng)
  | count + 1, rng => do
    let (x,rng) ← step rng
    let (xs,rng) ← collect step count rng
    return (x :: xs,rng)

section
variable {F : Type} [Random F]

theorem random_coefficients_length (n : Nat) (rng : Rng) : ((random_coefficients n rng).1 : List F).length = n := by
  induction n generalizing rng with
  | zero => rfl
  | succ n ih => simp [random_coefficients,ih]

theorem random_bytes_length (n : Nat) (rng : Rng) : (random_bytes n rng).1.length = n := by
  induction n generalizing rng with
  | zero => rfl
  | succ n ih => simp [random_bytes,ih]

end

section
variable {α : Type}

/-- A loop that collects keeps what each round gives. -/
theorem collect_keeps (step : Rng → Rust (α × Rng)) (P : α → Prop)
    (each : ∀ rng, ∃ x rest, step rng = .ok (x,rest) ∧ P x) (count : Nat) (rng : Rng) :
    ∃ xs rest, collect step count rng = .ok (xs,rest) ∧ xs.length = count ∧ ∀ x ∈ xs, P x := by
  induction count generalizing rng with
  | zero => exact ⟨[],rng,rfl,rfl,by simp⟩
  | succ count ih =>
    obtain ⟨x,middle,first,good⟩ := each rng
    obtain ⟨xs,rest,later,long,all⟩ := ih middle
    refine ⟨x :: xs,rest,by simp only [collect,first,ok_bind,later,pure_eq],by simp [long],?_⟩
    intro y member
    rcases List.mem_cons.mp member with rfl | inside
    · exact good
    · exact all y inside

/-- What a loop that returned has collected, it got from its rounds. -/
theorem collect_each {step : Rng → Rust (α × Rng)} {count : Nat} {rng rest : Rng} {xs : List α}
    (ran : collect step count rng = .ok (xs,rest)) :
    xs.length = count ∧ ∀ x ∈ xs, ∃ before after, step before = .ok (x,after) := by
  induction count generalizing rng xs with
  | zero =>
    simp only [collect,Except.ok.injEq,Prod.mk.injEq] at ran
    simp [← ran.1]
  | succ count ih =>
    rw [collect,bind_ok] at ran
    obtain ⟨⟨x,middle⟩,first,ran⟩ := ran
    rw [bind_ok] at ran
    obtain ⟨⟨ys,last⟩,later,ran⟩ := ran
    simp only [pure_eq,Except.ok.injEq,Prod.mk.injEq] at ran
    obtain ⟨rfl,rfl⟩ := ran
    obtain ⟨long,all⟩ := ih later
    refine ⟨by simp [long],?_⟩
    intro y member
    rcases List.mem_cons.mp member with rfl | inside
    · exact ⟨rng,middle,first⟩
    · exact all y inside

/-- Some outcomes, whatever comes after them, make the computation return this value. -/
def CanGive (step : Rng → Rust (α × Rng)) (x : α) : Prop :=
  ∃ draws : List Nat, ∀ rng, step (draws ++ₛ rng) = .ok (x,rng)

theorem CanGive.collect {step : Rng → Rust (α × Rng)} (xs : List α) (each : ∀ x ∈ xs, CanGive step x) :
    CanGive (collect step xs.length) xs := by
  induction xs with
  | nil => exact ⟨[],fun _ => rfl⟩
  | cons x xs ih =>
    obtain ⟨first,gives⟩ := each x (by simp)
    obtain ⟨later,rest⟩ := ih (fun y member => each y (by simp [member]))
    refine ⟨first ++ later,fun rng => ?_⟩
    rw [Stream'.append_append_stream]
    simp only [List.length_cons,Draws.collect,gives,ok_bind,rest,pure_eq]

/-- Every list of scalars without zeros can be sampled. -/
theorem random_coefficients_every {F : Type} [Zero F] [Random F] [LawfulRandom F] (xs : List F)
    (nonzero : ∀ x ∈ xs, x ≠ 0) : ∃ draws : List Nat, ∀ rng, random_coefficients xs.length (draws ++ₛ rng) = (xs,rng) := by
  induction xs with
  | nil => exact ⟨[],fun _ => rfl⟩
  | cons x xs ih =>
    obtain ⟨draw,gives⟩ := LawfulRandom.every x (nonzero x (by simp))
    obtain ⟨draws,rest⟩ := ih (fun y member => nonzero y (by simp [member]))
    refine ⟨draw :: draws,fun rng => ?_⟩
    simp only [Stream'.cons_append_stream,List.length_cons,random_coefficients,Stream'.tail_cons,Stream'.head_cons,
      rest,gives]

end

end Rlnc.Draws
