import Mathlib

/-!
Walks along the edges of a relation, by their number of edges. The distance from a
start is the least number of edges of a walk (`walk_dist`, `dist_le`). Flooding visits
the vertices in the order of their distances: if every message takes the same time and
the earliest is always read first, a vertex is first reached at its distance
(`Flood.visit`, `Flood.complete`).
-/
namespace Rlnc.Walks

section
variable {α : Type} {edge edge' : α → α → Prop} {start u v : α} {k : Nat}

/-- A walk with this number of edges leads from `start` here. -/
inductive Walk (edge : α → α → Prop) (start : α) : Nat → α → Prop
  | here : Walk edge start 0 start
  | step {k : Nat} {u v : α} : Walk edge start k u → edge u v → Walk edge start (k + 1) v

def Reachable (edge : α → α → Prop) (start v : α) : Prop := ∃ k, Walk edge start k v

/-- The number of edges of a shortest walk. -/
noncomputable def dist (edge : α → α → Prop) (start v : α) : Nat := sInf {k | Walk edge start k v}

theorem Walk.mono (walk : Walk edge start k v) (sub : ∀ u v, edge u v → edge' u v) : Walk edge' start k v := by
  induction walk with
  | here => exact .here
  | step _ link ih => exact .step ih (sub _ _ link)

theorem Reachable.refl (edge : α → α → Prop) (start : α) : Reachable edge start start := ⟨0,.here⟩

theorem Reachable.step (reachable : Reachable edge start u) (link : edge u v) : Reachable edge start v := by
  obtain ⟨k,walk⟩ := reachable
  exact ⟨k + 1,.step walk link⟩

theorem Reachable.mono (reachable : Reachable edge start v) (sub : ∀ u v, edge u v → edge' u v) :
    Reachable edge' start v := by
  obtain ⟨k,walk⟩ := reachable
  exact ⟨k,walk.mono sub⟩

/-- What holds at the start and is kept by every edge holds wherever a walk leads. -/
theorem Reachable.closed (reachable : Reachable edge start v) {P : α → Prop} (first : P start)
    (kept : ∀ u v, P u → edge u v → P v) : P v := by
  obtain ⟨k,walk⟩ := reachable
  induction walk with
  | here => exact first
  | step _ link ih => exact kept _ _ ih link

theorem dist_le (walk : Walk edge start k v) : dist edge start v ≤ k := Nat.sInf_le walk

theorem walk_dist (reachable : Reachable edge start v) : Walk edge start (dist edge start v) v :=
  Nat.sInf_mem (s := {k | Walk edge start k v}) reachable

@[simp] theorem dist_self (edge : α → α → Prop) (start : α) : dist edge start start = 0 :=
  Nat.le_zero.mp (dist_le .here)

/-- A walk that leaves a set has a first edge that leads out of it. -/
theorem Walk.leaves (walk : Walk edge start k v) {P : α → Prop} (inside : P start) (outside : ¬P v) :
    ∃ i u w, i < k ∧ Walk edge start i u ∧ edge u w ∧ P u ∧ ¬P w := by
  induction walk with
  | here => exact absurd inside outside
  | @step k u v walk link ih =>
    by_cases left : P u
    · exact ⟨k,u,v,k.lt_succ_self,walk,link,left,outside⟩
    · obtain ⟨i,u',w,small,rest⟩ := ih left
      exact ⟨i,u',w,by omega,rest⟩

/-! ### Flooding -/

/-- Every vertex that was visited has sent a message along each of its edges, which takes the
    time `d`, and was visited when the first message came; the others have read no message. -/
structure Flood (edge : α → α → Prop) (start : α) (d : Nat) (visited : α → Option Nat) (sent : Set (Nat × α)) : Prop where
  first : visited start = some 0
  timed : ∀ v t, visited v = some t → t = d * dist edge start v ∧ Reachable edge start v
  along : ∀ t v, (t,v) ∈ sent → ∃ k, Walk edge start k v ∧ t = d * k
  spread : ∀ u t v, visited u = some t → edge u v → visited v ≠ none ∨ (t + d,v) ∈ sent

variable {d t : Nat} {visited visited' : α → Option Nat} {sent sent' : Set (Nat × α)}

/-- At first the start sends its messages. -/
theorem Flood.begin (first : visited start = some 0) (others : ∀ v, v ≠ start → visited v = none)
    (sends : ∀ t v, (t,v) ∈ sent ↔ t = d ∧ edge start v) : Flood edge start d visited sent := by
  have only : ∀ v t, visited v = some t → v = start ∧ t = 0 := by
    intro v t known
    by_cases same : v = start
    · subst same
      exact ⟨rfl,(Option.some.inj (first.symm.trans known)).symm⟩
    · rw [others v same] at known
      cases known
  refine ⟨first,?_,?_,?_⟩
  · intro v t known
    obtain ⟨rfl,rfl⟩ := only v t known
    exact ⟨by simp,Reachable.refl edge v⟩
  · intro t v member
    obtain ⟨rfl,link⟩ := (sends t v).mp member
    exact ⟨1,.step .here link,by simp⟩
  · intro u t v known link
    obtain ⟨rfl,rfl⟩ := only u t known
    exact .inr ((sends _ _).mpr ⟨by simp,link⟩)

/-- A vertex that was visited reads no further message. -/
theorem Flood.drop (flood : Flood edge start d visited sent) (known : visited v ≠ none)
    (kept : ∀ message ∈ sent, message = (t,v) ∨ message ∈ sent') (only : sent' ⊆ sent) :
    Flood edge start d visited sent' := by
  refine ⟨flood.first,flood.timed,fun t w member => flood.along t w (only member),fun u t' w visits link => ?_⟩
  rcases flood.spread u t' w visits link with visited | waits
  · exact .inl visited
  · rcases kept _ waits with same | member
    · rw [(Prod.mk.inj same).2]
      exact .inl known
    · exact .inr member

/-- The earliest message comes along a shortest walk: a walk that leaves the visited vertices
    earlier has a message on its way that comes earlier. -/
theorem Flood.earliest (flood : Flood edge start d visited sent) (new : visited v = none) (comes : (t,v) ∈ sent)
    (first : ∀ message ∈ sent, t ≤ message.1) : t = d * dist edge start v ∧ Reachable edge start v := by
  obtain ⟨k,walk,rfl⟩ := flood.along t v comes
  refine ⟨?_,k,walk⟩
  apply le_antisymm
  · obtain ⟨i,u,w,shorter,reaches,link,left,outside⟩ :=
      (walk_dist ⟨k,walk⟩).leaves (P := fun u => visited u ≠ none) (by simp [flood.first]) (by simpa using new)
    obtain ⟨t,known⟩ := Option.ne_none_iff_exists'.mp left
    obtain ⟨rfl,_⟩ := flood.timed u t known
    rcases flood.spread u _ w known link with visits | waits
    · exact absurd visits outside
    · calc d * k ≤ d * dist edge start u + d := first _ waits
        _ = d * (dist edge start u + 1) := (Nat.mul_succ d _).symm
        _ ≤ d * dist edge start v := Nat.mul_le_mul_left d ((Nat.succ_le_succ (dist_le reaches)).trans shorter)
  · exact Nat.mul_le_mul_left d (dist_le walk)

/-- A new vertex reads the earliest message, and sends its own. -/
theorem Flood.visit (flood : Flood edge start d visited sent) (new : visited v = none) (comes : (t,v) ∈ sent)
    (first : ∀ message ∈ sent, t ≤ message.1) (here : visited' v = some t) (others : ∀ u, u ≠ v → visited' u = visited u)
    (kept : ∀ message ∈ sent, message = (t,v) ∨ message ∈ sent')
    (only : ∀ message ∈ sent', message ∈ sent ∨ message.1 = t + d ∧ edge v message.2)
    (sends : ∀ w, edge v w → (t + d,w) ∈ sent') : Flood edge start d visited' sent' := by
  obtain ⟨time,reachable⟩ := flood.earliest new comes first
  refine ⟨?_,?_,?_,?_⟩
  · rw [others start ?_]
    · exact flood.first
    · rintro rfl
      rw [flood.first] at new
      cases new
  · intro u t' known
    by_cases same : u = v
    · subst same
      obtain rfl := Option.some.inj (here.symm.trans known)
      exact ⟨time,reachable⟩
    · exact flood.timed u t' (others u same ▸ known)
  · intro t' w member
    rcases only _ member with old | ⟨later,link⟩
    · exact flood.along t' w old
    · exact ⟨dist edge start v + 1,.step (walk_dist reachable) link,by rw [show t' = t + d from later,time,Nat.mul_succ]⟩
  · intro u t' w known link
    by_cases same : u = v
    · subst same
      obtain rfl := Option.some.inj (here.symm.trans known)
      exact .inr (sends w link)
    by_cases itself : w = v
    · exact .inl (by rw [itself,here]; simp)
    rcases flood.spread u t' w (others u same ▸ known) link with visits | waits
    · exact .inl (by rwa [others w itself])
    · rcases kept _ waits with found | member
      · exact absurd (Prod.mk.inj found).2 itself
      · exact .inr member

/-- When no message is on its way, every vertex was visited at its distance. -/
theorem Flood.complete (flood : Flood edge start d visited sent) (quiet : sent = ∅) (reachable : Reachable edge start v) :
    visited v = some (d * dist edge start v) := by
  have visits := reachable.closed (P := fun u => visited u ≠ none) (by simp [flood.first]) (by
    intro u w known link
    obtain ⟨t,timed⟩ := Option.ne_none_iff_exists'.mp known
    rcases flood.spread u t w timed link with visits | waits
    · exact visits
    · rw [quiet] at waits
      cases waits)
  obtain ⟨t,known⟩ := Option.ne_none_iff_exists'.mp visits
  rw [known,(flood.timed v t known).1]

end

end Rlnc.Walks
