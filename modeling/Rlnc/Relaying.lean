import Rlnc.Combination

/-!
Nodes that relay mixtures of vectors. A node that takes a vector outside the span of
what it holds sends mixtures of all that it holds to a few others, as long as it is not
complete. If vectors that span the space are on their way to as many nodes, and a node
sends to as many others, then some order of steps completes every node (`Opening.served`).
-/
namespace Rlnc.Relaying
open Rlnc.Combination Relation
set_option linter.unusedSectionVars false
universe u v w

/-! ### Choosing mixtures -/

section
variable {F : Type u} {V : Type v} {W : Type w} [Field F] [AddCommGroup V] [Module F V] [AddCommGroup W] [Module F W]

/-- Four scalars can be avoided. -/
def Roomy (F : Type u) : Prop := ∀ bad : List F, bad.length ≤ 4 → ∃ x, x ∉ bad

/-- All but one multiple of the second vector leave the image different from zero. -/
theorem mix_nonzero (f : V →ₗ[F] W) {u v : V} (some_image : f u ≠ 0 ∨ f v ≠ 0) :
    ∃ bad : F, ∀ β, β ≠ bad → f (u + β • v) ≠ 0 := by
  by_cases zero : ∃ bad : F, f (u + bad • v) = 0
  · obtain ⟨bad,vanishes⟩ := zero
    refine ⟨bad,fun β other vanishes' => ?_⟩
    rw [map_add,map_smul] at vanishes vanishes'
    have multiple : (β - bad) • f v = 0 := by
      rw [sub_smul,sub_eq_zero]
      exact add_left_cancel (vanishes'.trans vanishes.symm)
    have second : f v = 0 := (smul_eq_zero.mp multiple).resolve_left (sub_ne_zero.mpr other)
    rw [second,smul_zero,add_zero] at vanishes
    exact some_image.elim (· vanishes) (· second)
  · exact ⟨0,fun β _ vanishes => zero ⟨β,vanishes⟩⟩

variable {ι : Type} [DecidableEq ι]

/-- A family that spans still does when all but one multiple of any vector are added to a member. -/
theorem span_mix {family : ι → V} (spans : Submodule.span F (Set.range family) = ⊤) (i : ι) (x : V) :
    ∃ bad : F, ∀ β, β ≠ bad →
      Submodule.span F (Set.range (Function.update family i (family i + β • x))) = ⊤ := by
  have split : Set.range family = insert (family i) (family '' {j | j ≠ i}) := by
    ext y
    constructor
    · rintro ⟨j,rfl⟩
      by_cases same : j = i
      · exact .inl (by rw [same])
      · exact .inr ⟨j,same,rfl⟩
    · rintro (rfl | ⟨j,_,rfl⟩) <;> exact ⟨_,rfl⟩
  have member : x ∈ Submodule.span F (Set.range family) := by rw [spans]; trivial
  rw [split,Submodule.mem_span_insert] at member
  obtain ⟨c,others,listed,rfl⟩ := member
  obtain ⟨bad,good⟩ := mix_nonzero (LinearMap.id : F →ₗ[F] F) (u := 1) (v := c) (.inl one_ne_zero)
  refine ⟨bad,fun β other => ?_⟩
  have factor : 1 + β * c ≠ 0 := good β other
  generalize new : Function.update family i (family i + β • (c • family i + others)) = mixed
  have here : mixed i = family i + β • (c • family i + others) := by rw [← new,Function.update_self]
  have elsewhere : ∀ j, j ≠ i → mixed j = family j := fun j apart => by rw [← new,Function.update_of_ne apart]
  have rest : others ∈ Submodule.span F (Set.range mixed) := by
    refine Submodule.span_mono ?_ listed
    rintro _ ⟨j,apart,rfl⟩
    exact ⟨j,elsewhere j apart⟩
  have recovered : family i ∈ Submodule.span F (Set.range mixed) := by
    have scaled : (1 + β * c) • family i = mixed i - β • others := by rw [here]; module
    rw [← Submodule.smul_mem_iff _ factor,scaled]
    exact Submodule.sub_mem _ (Submodule.subset_span ⟨i,rfl⟩) (Submodule.smul_mem _ β rest)
  rw [eq_top_iff,← spans,Submodule.span_le]
  rintro _ ⟨j,rfl⟩
  by_cases same : j = i
  · rw [same]; exact recovered
  · rw [← elsewhere j same]; exact Submodule.subset_span ⟨j,rfl⟩

/-- To every member of a family that spans a multiple of a helper can be added, so that the
    family still spans and no member vanishes under `σ`. -/
theorem remix [Fintype ι] (roomy : Roomy F) (σ : V →ₗ[F] W) {family : ι → V}
    (spans : Submodule.span F (Set.range family) = ⊤) (helper : ι → V) (helps : ∀ i, σ (helper i) ≠ 0) (avoided : ι → F) :
    ∃ β : ι → F, (∀ i, β i ≠ 0 ∧ β i ≠ avoided i ∧ σ (family i + β i • helper i) ≠ 0) ∧
      Submodule.span F (Set.range fun i => family i + β i • helper i) = ⊤ := by
  suffices part : ∀ members : Finset ι, ∃ β : ι → F,
      (∀ i ∈ members, β i ≠ 0 ∧ β i ≠ avoided i ∧ σ (family i + β i • helper i) ≠ 0) ∧
      (∀ i, i ∉ members → β i = 0) ∧ Submodule.span F (Set.range fun i => family i + β i • helper i) = ⊤ by
    obtain ⟨β,good,_,still⟩ := part Finset.univ
    exact ⟨β,fun i => good i (Finset.mem_univ i),still⟩
  intro members
  induction members using Finset.induction_on with
  | empty => exact ⟨fun _ => 0,by simp,by simp,by simpa using spans⟩
  | insert i members absent ih =>
    obtain ⟨β,good,zero,still⟩ := ih
    obtain ⟨bad,spanning⟩ := span_mix still i (helper i)
    obtain ⟨bad',nonzero⟩ := mix_nonzero σ (u := family i) (v := helper i) (.inr (helps i))
    obtain ⟨b,avoids⟩ := roomy [0,avoided i,bad,bad'] le_rfl
    simp only [List.mem_cons,List.not_mem_nil,or_false,not_or] at avoids
    refine ⟨Function.update β i b,?_,?_,?_⟩
    · intro j member
      by_cases same : j = i
      · subst same
        rw [Function.update_self]
        exact ⟨avoids.1,avoids.2.1,nonzero b avoids.2.2.2⟩
      · rw [Function.update_of_ne same]
        exact good j ((Finset.mem_insert.mp member).resolve_left same)
    · intro j outside
      have apart : j ≠ i := fun same => outside (by simp [same])
      rw [Function.update_of_ne apart]
      exact zero j fun member => outside (Finset.mem_insert_of_mem member)
    · rw [← spanning b avoids.2.2.1]
      congr 2
      funext j
      by_cases same : j = i
      · subst same; simp [zero j absent]
      · simp [same]

variable {n : Nat}

/-- There are coefficient vectors without zeros that span, none of which vanishes under `σ`. -/
theorem nonzero_family (roomy : Roomy F) {σ : (Fin n → F) →ₗ[F] W} (some_image : σ ≠ 0) :
    ∃ family : Fin n → Fin n → F, (∀ i j, family i j ≠ 0) ∧ (∀ i, σ (family i) ≠ 0) ∧
      Submodule.span F (Set.range family) = ⊤ := by
  obtain ⟨i,seen⟩ : ∃ i, σ (Pi.single i 1) ≠ 0 := by
    by_contra unseen
    push Not at unseen
    exact some_image (LinearMap.pi_ext' fun i => LinearMap.ext_ring (unseen i))
  obtain ⟨bad,good⟩ := mix_nonzero σ (u := 1) (v := Pi.single i 1) (.inr seen)
  obtain ⟨c,avoids⟩ := roomy [bad,-1] (by simp)
  simp only [List.mem_cons,List.not_mem_nil,or_false,not_or] at avoids
  have entries : ∀ j, (1 + c • Pi.single i 1 : Fin n → F) j ≠ 0 := by
    intro j
    by_cases same : j = i
    · subst same
      simpa [add_comm] using fun zero : 1 + c = 0 => avoids.2 (eq_neg_of_add_eq_zero_right zero)
    · simp [same]
  have image := good c avoids.1
  generalize (1 + c • Pi.single i 1 : Fin n → F) = helper at entries image
  have units : Submodule.span F (Set.range fun i : Fin n => (Pi.single i 1 : Fin n → F)) = ⊤ := by
    simp [← Pi.basisFun_apply]
  obtain ⟨β,chosen,spans⟩ := remix roomy σ units (fun _ => helper) (fun _ => image) fun i => -(helper i)⁻¹
  refine ⟨_,fun i j => ?_,fun i => (chosen i).2.2,spans⟩
  by_cases same : j = i
  · subst same
    intro zero
    have inverse : β j * helper j = -1 := by
      rw [← add_eq_zero_iff_eq_neg,add_comm]
      simpa using zero
    rw [← eq_mul_inv_iff_mul_eq₀ (entries j),neg_one_mul] at inverse
    exact (chosen j).2.1 inverse
  · simpa [same] using ⟨(chosen i).1,entries j⟩

end

/-! ### Steps -/

/-- What each node holds, in the order in which it took it, and which vectors are on
    their way, from whom to whom. -/
structure State (K : Type) (V : Type v) where
  held : K → List V
  flying : K → K → V → Prop

/-- A node is complete when it holds `size` vectors, it sends to `degree` others at most,
    and it can read the vectors on which `image` does not vanish. -/
structure Rules (F : Type u) (K : Type) (V : Type v) (W : Type w) [Field F] [AddCommGroup V] [Module F V]
    [AddCommGroup W] [Module F W] where
  size : Nat
  degree : Nat
  source : K
  image : V →ₗ[F] W

section
variable {F : Type u} {V : Type v} {W : Type w} [Field F] [AddCommGroup V] [Module F V] [AddCommGroup W] [Module F W]
  {K : Type} [DecidableEq K]

/-- The listed vectors span the space; a node that holds them is complete. -/
def Spans (F : Type u) {V : Type v} [Field F] [AddCommGroup V] [Module F V] (xs : List V) : Prop :=
  Submodule.span F {x | x ∈ xs} = ⊤

/-- A node takes a vector, and sends mixtures of all that it holds. -/
def State.take (s : State K V) (k : K) (x : V) (sends : List (K × List F)) : State K V where
  held := Function.update s.held k (s.held k ++ [x])
  flying a b y := s.flying a b y ∨ a = k ∧ ∃ alphas, (b,alphas) ∈ sends ∧ y = comb alphas (s.held k ++ [x])

namespace Rules
variable (rules : Rules F K V W)

/-- What a node may send when it holds `count` vectors, the last of them from `sender`. -/
structure Proper (sender k : K) (count : Nat) (sends : List (K × List F)) : Prop where
  few : sends.length ≤ rules.degree
  nodup : (sends.map Prod.fst).Nodup
  others : ∀ entry ∈ sends, entry.1 ≠ k ∧ entry.1 ≠ sender
  long : ∀ entry ∈ sends, entry.2.length = count
  nonzero : ∀ entry ∈ sends, ∀ a ∈ entry.2, a ≠ 0
  going_on : sends ≠ [] → count < rules.size

inductive Step (s : State K V) : State K V → Prop
  | takes {sender k : K} {x : V} {sends : List (K × List F)} : k ≠ rules.source → s.flying sender k x → rules.image x ≠ 0 →
      x ∉ Submodule.span F {y | y ∈ s.held k} → rules.Proper sender k ((s.held k).length + 1) sends →
      Step s (s.take k x sends)

def Reaches : State K V → State K V → Prop := ReflTransGen rules.Step

variable {rules} {s t : State K V}

/-- What was sent stays on its way. -/
theorem Reaches.flying (reaches : rules.Reaches s t) {a b : K} {x : V} (sent : s.flying a b x) : t.flying a b x := by
  induction reaches with
  | refl => exact sent
  | tail _ step ih =>
    cases step with
    | takes _ _ _ _ _ => exact .inl ih

/-- What a node holds it keeps. -/
theorem Reaches.held (reaches : rules.Reaches s t) (k : K) : s.held k <+: t.held k := by
  induction reaches with
  | refl => exact List.prefix_refl _
  | @tail t _ _ step ih =>
    cases step with
    | @takes sender j x sends _ _ _ _ _ =>
      refine ih.trans ?_
      by_cases same : k = j
      · subst same
        simp [State.take]
      · simp [State.take,same]

theorem Reaches.complete (reaches : rules.Reaches s t) {k : K} (complete : Spans F (s.held k)) : Spans F (t.held k) := by
  rw [Spans,eq_top_iff,← complete]
  exact Submodule.span_mono fun x member => (reaches.held k).subset member

variable (rules) in
/-- As long as node `k` holds what it holds now, it can come to hold something with `Held`,
    and put what it promises on its way, while the other nodes wait. -/
def Can (s : State K V) (k : K) (Held : List V → Prop) (promise : K → V → Prop) : Prop :=
  ∀ t, rules.Reaches s t → t.held k = s.held k → ∃ t', rules.Reaches t t' ∧ Held (t'.held k) ∧
    (∀ j, j ≠ k → t'.held j = t.held j) ∧ ∀ b x, promise b x → t'.flying k b x

/-- What some nodes can do, they can do one after the other. -/
theorem each {ι : Type} {node : ι → K} (apart : Function.Injective node) {members : List ι} (nodup : members.Nodup)
    {Held : ι → List V → Prop} {promise : ι → K → V → Prop}
    (can : ∀ i ∈ members, rules.Can s (node i) (Held i) (promise i)) :
    ∃ t, rules.Reaches s t ∧ (∀ i ∈ members, Held i (t.held (node i)) ∧ ∀ b x, promise i b x → t.flying (node i) b x) ∧
      ∀ k, (∀ i ∈ members, node i ≠ k) → t.held k = s.held k := by
  induction members with
  | nil => exact ⟨s,.refl,by simp,fun _ _ => rfl⟩
  | cons i members ih =>
    obtain ⟨absent,nodup⟩ := List.nodup_cons.mp nodup
    obtain ⟨t,reaches,done,others⟩ := ih nodup fun j member => can j (List.mem_cons_of_mem i member)
    have elsewhere : ∀ j ∈ members, node j ≠ node i := fun j member same => absent (apart same ▸ member)
    obtain ⟨t',onward,here,wait,sent⟩ := can i (by simp) t reaches (others (node i) elsewhere)
    refine ⟨t',reaches.trans onward,?_,?_⟩
    · intro j member
      rcases List.mem_cons.mp member with rfl | later
      · exact ⟨here,sent⟩
      · obtain ⟨held,promised⟩ := done j later
        rw [← wait (node j) (elsewhere j later)] at held
        exact ⟨held,fun b x promise => Reaches.flying onward (promised b x promise)⟩
    · intro k out
      rw [wait k (Ne.symm (out i (by simp)))]
      exact others k fun j member => out j (List.mem_cons_of_mem i member)

/-! ### What one node can do -/

/-- A node that takes a vector sends the same mixture to all its targets. -/
theorem can_take {sender k : K} {x : V} {targets : List K} {alphas : List F} (receives : k ≠ rules.source)
    (arrives : s.flying sender k x) (readable : rules.image x ≠ 0) (fresh : x ∉ Submodule.span F {y | y ∈ s.held k})
    (few : targets.length ≤ rules.degree) (nodup : targets.Nodup) (others : ∀ b ∈ targets, b ≠ k ∧ b ≠ sender)
    (long : alphas.length = (s.held k).length + 1) (nonzero : ∀ a ∈ alphas, a ≠ 0)
    (going_on : targets ≠ [] → (s.held k).length + 1 < rules.size) :
    rules.Can s k (fun held => held = s.held k ++ [x]) fun b y => b ∈ targets ∧ y = comb alphas (s.held k ++ [x]) := by
  intro t reaches same
  have proper : rules.Proper sender k ((t.held k).length + 1) (targets.map fun b => (b,alphas)) := by
    rw [same]
    refine ⟨by simpa using few,by simpa [Function.comp_def] using nodup,?_,?_,?_,by simpa using going_on⟩
    all_goals
      intro entry member
      obtain ⟨b,listed,rfl⟩ := List.mem_map.mp member
    · exact others b listed
    · exact long
    · exact nonzero
  refine ⟨_,ReflTransGen.single (.takes receives (Reaches.flying reaches arrives) readable (by rw [same]; exact fresh) proper),
    ?_,?_,?_⟩
  · simp [State.take,same]
  · intro j apart
    simp [State.take,apart]
  · rintro b y ⟨member,rfl⟩
    exact .inr ⟨rfl,alphas,List.mem_map_of_mem member,by rw [same]⟩

/-- A node to which a family is on its way that spans, beside what the node holds, can be completed. -/
theorem can_complete {ι : Type} [Finite ι] {family : ι → V} (spans : Submodule.span F (Set.range family) = ⊤) {k : K}
    (receives : k ≠ rules.source)
    (arrives : ∀ i, family i ∈ s.held k ∨ (∃ sender, s.flying sender k (family i)) ∧ rules.image (family i) ≠ 0) :
    rules.Can s k (Spans F) fun _ _ => False := by
  classical
  cases nonempty_fintype ι
  intro t reaches same
  have part : ∀ members : Finset ι, ∃ t', rules.Reaches t t' ∧ (∀ j, j ≠ k → t'.held j = t.held j) ∧
      ∀ i ∈ members, family i ∈ Submodule.span F {x | x ∈ t'.held k} := by
    intro members
    induction members using Finset.induction_on with
    | empty => exact ⟨t,.refl,fun _ _ => rfl,by simp⟩
    | insert i members _ ih =>
      obtain ⟨t',onward,wait,inside⟩ := ih
      by_cases known : family i ∈ Submodule.span F {x | x ∈ t'.held k}
      · refine ⟨t',onward,wait,fun j member => ?_⟩
        rcases Finset.mem_insert.mp member with rfl | old
        · exact known
        · exact inside j old
      · have reached := reaches.trans onward
        rcases arrives i with holds | ⟨⟨sender,sent⟩,readable⟩
        · refine absurd ?_ known
          exact Submodule.subset_span ((Reaches.held reached k).subset holds)
        · have proper : rules.Proper sender k ((t'.held k).length + 1) [] :=
            ⟨Nat.zero_le _,List.nodup_nil,by simp,by simp,by simp,by simp⟩
          have step := Step.takes receives (Reaches.flying reached sent) readable known proper
          refine ⟨_,onward.tail step,?_,?_⟩
          · intro j apart
            rw [← wait j apart]
            simp [State.take,apart]
          · have grown : (t'.take k (family i) ([] : List (K × List F))).held k = t'.held k ++ [family i] := by
              simp [State.take]
            rw [grown]
            intro j member
            rcases Finset.mem_insert.mp member with rfl | old
            · exact Submodule.subset_span (by simp)
            · exact Submodule.span_mono (fun x listed => List.mem_append_left _ listed) (inside j old)
  obtain ⟨t',onward,wait,inside⟩ := part Finset.univ
  refine ⟨t',onward,?_,wait,by simp⟩
  rw [Spans,eq_top_iff,← spans,Submodule.span_le]
  rintro _ ⟨i,rfl⟩
  exact inside i (Finset.mem_univ i)

/-- Nodes to each of which such a family is on its way can all be completed. -/
theorem fill {κ : Type} [Finite κ] {family : κ → V} (spans : Submodule.span F (Set.range family) = ⊤) {ι : Type}
    {node : ι → K} (apart : Function.Injective node) {members : List ι} (nodup : members.Nodup)
    (receives : ∀ i ∈ members, node i ≠ rules.source) (readable : ∀ j, rules.image (family j) ≠ 0)
    (arrives : ∀ i ∈ members, ∀ j, family j ∈ s.held (node i) ∨ ∃ sender, s.flying sender (node i) (family j)) :
    ∃ t, rules.Reaches s t ∧ (∀ i ∈ members, Spans F (t.held (node i))) ∧
      ∀ k, (∀ i ∈ members, node i ≠ k) → t.held k = s.held k := by
  obtain ⟨t,reaches,done,wait⟩ := each apart nodup fun i member =>
    can_complete spans (receives i member) fun j => (arrives i member j).imp_right fun sent => ⟨sent,readable j⟩
  exact ⟨t,reaches,fun i member => (done i member).1,wait⟩

/-! ### Groups of nodes -/

/-- `size` nodes hold nothing yet, and each has its member of the family on its way, from a
    node that is neither in the group nor among the nodes that wait. -/
structure Opening (rules : Rules F K V W) (s : State K V) (family : Fin rules.size → V) (group : Fin rules.size → K)
    (rest : List K) : Prop where
  apart : Function.Injective group
  nodup : rest.Nodup
  disjoint : ∀ i, group i ∉ rest
  group_empty : ∀ i, s.held (group i) = [] ∧ group i ≠ rules.source
  rest_empty : ∀ k ∈ rest, s.held k = [] ∧ k ≠ rules.source
  arrives : ∀ i, ∃ sender, (∀ j, sender ≠ group j) ∧ sender ∉ rest ∧ s.flying sender (group i) (family i)

variable {family : Fin rules.size → V} {group : Fin rules.size → K} {rest : List K}

/-- Each node of the group takes its vector, and sends it to the rest of the group and to
    one node more at most. -/
theorem Opening.exchange (opening : Opening rules s family group rest) (two : 2 ≤ rules.size)
    (wide : rules.size ≤ rules.degree) (readable : ∀ i, rules.image (family i) ≠ 0) (spare : Fin rules.size → List K)
    (few : ∀ i, (spare i).length ≤ 1) (inside : ∀ i, ∀ k ∈ spare i, k ∈ rest) :
    ∃ t, rules.Reaches s t ∧ (∀ i, t.held (group i) = [family i]) ∧ (∀ k, (∀ i, group i ≠ k) → t.held k = s.held k) ∧
      (∀ i j, j ≠ i → t.flying (group i) (group j) (family i)) ∧ ∀ i, ∀ k ∈ spare i, t.flying (group i) k (family i) := by
  let others : Fin rules.size → List K := fun i => ((List.finRange rules.size).erase i).map group
  have member_others : ∀ {i b}, b ∈ others i ↔ ∃ j, j ≠ i ∧ group j = b := by
    simp [others,(List.nodup_finRange rules.size).mem_erase_iff]
  have count : ∀ i, (others i).length = rules.size - 1 := by
    intro i
    simp [others,List.length_erase_of_mem (List.mem_finRange i)]
  have can : ∀ i ∈ List.finRange rules.size, rules.Can s (group i) (fun held => held = s.held (group i) ++ [family i])
      fun b y => b ∈ others i ++ spare i ∧ y = comb [(1 : F)] (s.held (group i) ++ [family i]) := by
    intro i _
    obtain ⟨empty,receives⟩ := opening.group_empty i
    obtain ⟨sender,far,out,sent⟩ := opening.arrives i
    have nonzero : family i ≠ 0 := fun zero => readable i (by rw [zero,map_zero])
    refine can_take receives sent (readable i) (by simpa [empty] using nonzero) ?_ ?_ ?_ (by simp [empty]) (by simp)
      (fun _ => by simp only [empty,List.length_nil]; omega)
    · have one := few i
      have size := count i
      rw [List.length_append]
      omega
    · refine List.Nodup.append ?_ ?_ ?_
      · exact ((List.nodup_finRange _).erase i).map opening.apart
      · have one := few i
        match spare i,one with
        | [],_ => exact List.nodup_nil
        | [k],_ => exact List.nodup_singleton k
      · intro b first second
        obtain ⟨j,_,rfl⟩ := member_others.mp first
        exact opening.disjoint j (inside i _ second)
    · intro b member
      rcases List.mem_append.mp member with first | second
      · obtain ⟨j,different,rfl⟩ := member_others.mp first
        exact ⟨fun same => different (opening.apart same),(far j).symm⟩
      · have waits := inside i b second
        exact ⟨fun same => opening.disjoint i (same ▸ waits),fun same => out (same ▸ waits)⟩
  obtain ⟨t,reaches,done,wait⟩ := each opening.apart (List.nodup_finRange rules.size) can
  have mixture : ∀ i, comb [(1 : F)] (s.held (group i) ++ [family i]) = family i := by
    intro i
    simp [(opening.group_empty i).1]
  refine ⟨t,reaches,fun i => ?_,fun k out => wait k fun i _ => out i,?_,?_⟩
  · rw [(done i (List.mem_finRange i)).1,(opening.group_empty i).1,List.nil_append]
  · intro i j different
    exact (done i (List.mem_finRange i)).2 _ _ ⟨List.mem_append_left _ (member_others.mpr ⟨j,different,rfl⟩),(mixture i).symm⟩
  · intro i k member
    exact (done i (List.mem_finRange i)).2 _ _ ⟨List.mem_append_right _ member,(mixture i).symm⟩

/-- The group completes itself once its members have exchanged their vectors. -/
theorem Opening.fill_group (opening : Opening rules s family group rest)
    (spans : Submodule.span F (Set.range family) = ⊤) (readable : ∀ i, rules.image (family i) ≠ 0)
    (held : ∀ i, family i ∈ t.held (group i))
    (exchanged : ∀ i j, j ≠ i → t.flying (group i) (group j) (family i)) :
    ∃ t', rules.Reaches t t' ∧ (∀ i, Spans F (t'.held (group i))) ∧ ∀ k, (∀ i, group i ≠ k) → t'.held k = t.held k := by
  obtain ⟨t',onward,done,wait⟩ := fill spans opening.apart (List.nodup_finRange rules.size)
    (fun i _ => (opening.group_empty i).2) readable (s := t) (fun i _ j => by
      by_cases same : i = j
      · subst same; exact .inl (held i)
      · exact .inr ⟨group j,exchanged j i same⟩)
  exact ⟨t',onward,fun i => done i (List.mem_finRange i),fun k out => wait k fun i _ => out i⟩

omit [DecidableEq K] in
/-- The first elements of a long enough list, and those after them. -/
theorem split_first {n : Nat} {ks : List K} (enough : n ≤ ks.length) :
    ∃ (first : Fin n → K) (later : List K), ks = List.ofFn first ++ later := by
  refine ⟨fun i => ks.get ⟨i.val,by omega⟩,ks.drop n,?_⟩
  conv_lhs => rw [← List.take_append_drop n ks]
  congr 1
  apply List.ext_getElem
  · simp [enough]
  · intro i _ _
    simp

/-- With one node that waits at most, every member sends its vector to it. -/
theorem Opening.finish_few (opening : Opening rules s family group rest) (two : 2 ≤ rules.size)
    (wide : rules.size ≤ rules.degree) (spans : Submodule.span F (Set.range family) = ⊤)
    (readable : ∀ i, rules.image (family i) ≠ 0) (few : rest.length ≤ 1) :
    ∃ t, rules.Reaches s t ∧ (∀ i, Spans F (t.held (group i))) ∧ ∀ k ∈ rest, Spans F (t.held k) := by
  obtain ⟨t,reaches,held,_,exchanged,spared⟩ := opening.exchange two wide readable (fun _ => rest) (fun _ => few) fun _ _ => id
  obtain ⟨t',onward,complete,_⟩ := opening.fill_group spans readable (fun i => by simp [held i]) exchanged
  obtain ⟨t'',last,done,_⟩ := fill spans Function.injective_id opening.nodup (fun k member => (opening.rest_empty k member).2)
    readable (s := t') fun k member j => .inr ⟨group j,Reaches.flying onward (spared j k member)⟩
  exact ⟨t'',(reaches.trans onward).trans last,fun i => Reaches.complete last (complete i),done⟩

/-- Fewer than `size` nodes that wait get a mixture of two vectors from each member. -/
theorem Opening.finish_some (opening : Opening rules s family group rest) (roomy : Roomy F)
    (dimension : Module.finrank F V = rules.size) (three : 3 ≤ rules.size) (wide : rules.size ≤ rules.degree)
    (spans : Submodule.span F (Set.range family) = ⊤) (readable : ∀ i, rules.image (family i) ≠ 0)
    (few : rest.length < rules.size) :
    ∃ t, rules.Reaches s t ∧ (∀ i, Spans F (t.held (group i))) ∧ ∀ k ∈ rest, Spans F (t.held k) := by
  have several : Nontrivial (Fin rules.size) := Fin.nontrivial_iff_two_le.mpr (by omega)
  choose partner differs using fun i : Fin rules.size => exists_ne i
  obtain ⟨β,mixed,spans'⟩ := remix roomy rules.image spans (fun i => family (partner i))
    (fun i => readable (partner i)) fun _ => 0
  have independent : LinearIndependent F family :=
    linearIndependent_of_top_le_span_of_card_eq_finrank spans.ge (by simp [dimension])
  obtain ⟨t,reaches,held,_,exchanged,_⟩ := opening.exchange (by omega) wide readable (fun _ => []) (fun _ => Nat.zero_le _)
    (by simp)
  -- the second vector of each member
  have can : ∀ i ∈ List.finRange rules.size, rules.Can t (group i)
      (fun held => held = t.held (group i) ++ [family (partner i)])
      fun b y => b ∈ rest ∧ y = comb [1,β i] (t.held (group i) ++ [family (partner i)]) := by
    intro i _
    refine can_take (opening.group_empty i).2 (exchanged (partner i) i (differs i).symm) (readable (partner i)) ?_ (by omega)
      opening.nodup ?_ (by simp [held i]) (by simp [(mixed i).1]) (fun _ => by simp only [held i,List.length_singleton]; omega)
    · have outside := independent.notMem_span_image (s := {i}) (x := partner i) (by simp [differs i])
      rw [held i]
      simpa using outside
    · intro b member
      exact ⟨fun same => opening.disjoint i (same ▸ member),fun same => opening.disjoint (partner i) (same ▸ member)⟩
  obtain ⟨t₂,second,done,_⟩ := each opening.apart (List.nodup_finRange rules.size) can
  obtain ⟨t₃,onward,complete,_⟩ := opening.fill_group spans readable
    (fun i => by rw [(done i (List.mem_finRange i)).1]; simp [held i])
    fun i j different => Reaches.flying second (exchanged i j different)
  obtain ⟨t₄,last,served,_⟩ := fill spans' Function.injective_id opening.nodup
    (fun k member => (opening.rest_empty k member).2) (fun i => (mixed i).2.2) (s := t₃) (fun k member i => .inr ⟨group i,by
      refine Reaches.flying onward ((done i (List.mem_finRange i)).2 k _ ⟨member,?_⟩)
      simp [held i]⟩)
  exact ⟨t₄,((reaches.trans second).trans onward).trans last,fun i => Reaches.complete last (complete i),served⟩

/-- Some order of steps completes the group and all the nodes that wait. -/
theorem Opening.served (roomy : Roomy F) (dimension : Module.finrank F V = rules.size) (two : 2 ≤ rules.size)
    (wide : rules.size ≤ rules.degree) (spans : Submodule.span F (Set.range family) = ⊤)
    (readable : ∀ i, rules.image (family i) ≠ 0) (opening : Opening rules s family group rest) :
    ∃ t, rules.Reaches s t ∧ (∀ i, Spans F (t.held (group i))) ∧ ∀ k ∈ rest, Spans F (t.held k) := by
  induction long : rest.length using Nat.strong_induction_on generalizing s group rest with
  | _ long ih =>
    by_cases few : rest.length ≤ 1
    · exact opening.finish_few two wide spans readable few
    by_cases less : rest.length < rules.size
    · exact opening.finish_some roomy dimension (by omega) wide spans readable less
    -- the next group takes the same family from this one
    obtain ⟨next,later,rfl⟩ := split_first (not_lt.mp less)
    obtain ⟨nodup,nodup',apart⟩ := List.nodup_append'.mp opening.nodup
    have apart' : Function.Injective next := List.nodup_ofFn.mp nodup
    have member : ∀ i, next i ∈ List.ofFn next ++ later := fun i => List.mem_append_left _ (List.mem_ofFn.mpr ⟨i,rfl⟩)
    obtain ⟨t,reaches,held,wait,exchanged,spared⟩ := opening.exchange two wide readable (fun i => [next i]) (by simp) (by
      intro i k listed
      rw [List.mem_singleton.mp listed]
      exact member i)
    obtain ⟨t',onward,complete,wait'⟩ := opening.fill_group spans readable (fun i => by simp [held i]) exchanged
    have untouched : ∀ k ∈ List.ofFn next ++ later, t'.held k = [] ∧ k ≠ rules.source := by
      intro k listed
      have outside : ∀ i, group i ≠ k := fun i same => opening.disjoint i (same ▸ listed)
      rw [wait' k outside,wait k outside]
      exact opening.rest_empty k listed
    have following : Opening rules t' family next later := by
      refine ⟨apart',nodup',fun i inside => apart (List.mem_ofFn.mpr ⟨i,rfl⟩) inside,fun i => untouched _ (member i),
        fun k listed => untouched k (List.mem_append_right _ listed),fun i => ⟨group i,?_,?_,?_⟩⟩
      · exact fun j same => opening.disjoint i (same ▸ member j)
      · exact fun inside => opening.disjoint i (List.mem_append_right _ inside)
      · exact Reaches.flying onward (spared i (next i) (List.mem_singleton_self _))
    obtain ⟨t'',last,done,rest_done⟩ := ih later.length (by rw [← long,List.length_append,List.length_ofFn]; omega) following rfl
    refine ⟨t'',(reaches.trans onward).trans last,fun i => Reaches.complete last (complete i),?_⟩
    intro k listed
    rcases List.mem_append.mp listed with here | there
    · obtain ⟨i,rfl⟩ := List.mem_ofFn.mp here
      exact done i
    · exact rest_done k there

end Rules

end

end Rlnc.Relaying
