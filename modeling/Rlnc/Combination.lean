import Mathlib

/-!
Combinations of listed vectors. `comb` pairs a list of coefficients with a list
of vectors; the linear combinations, the matrix products and the multi-scalar
multiplications of the code are instances of it. A list grows innovatively when
every vector lies outside the span of those before it (`Innovative`), and its
length is then the dimension of its span.
-/
namespace Rlnc.Combination
universe u v w

section
variable {F : Type u} {V : Type v} {W : Type w} [Field F] [AddCommGroup V] [Module F V] [AddCommGroup W] [Module F W]

/-- The sum of `aᵢ • vᵢ` over the positions that both lists have. -/
def comb : List F → List V → V
  | a :: as, v :: vs => a • v + comb as vs
  | _, _ => 0

@[simp] theorem comb_nil (as : List F) : comb as ([] : List V) = 0 := by cases as <;> rfl
@[simp] theorem nil_comb (vs : List V) : comb ([] : List F) vs = 0 := rfl
@[simp] theorem comb_cons (a : F) (as : List F) (v : V) (vs : List V) :
    comb (a :: as) (v :: vs) = a • v + comb as vs := rfl

theorem map_comb (f : V →ₗ[F] W) (as : List F) (vs : List V) : f (comb as vs) = comb as (vs.map f) := by
  induction as generalizing vs with
  | nil => simp
  | cons a as ih =>
    cases vs with
    | nil => simp
    | cons v vs => simp [ih]

theorem comb_append (as bs : List F) (vs ws : List V) (same : as.length = vs.length) :
    comb (as ++ bs) (vs ++ ws) = comb as vs + comb bs ws := by
  induction as generalizing vs with
  | nil =>
    have empty : vs = [] := List.length_eq_zero_iff.mp same.symm
    simp [empty]
  | cons a as ih =>
    cases vs with
    | nil => simp at same
    | cons v vs =>
      have shorter : as.length = vs.length := by simpa using same
      simp [ih vs shorter,add_assoc]

theorem comb_mem_span (as : List F) (vs : List V) : comb as vs ∈ Submodule.span F {v | v ∈ vs} := by
  induction as generalizing vs with
  | nil => simp
  | cons a as ih =>
    cases vs with
    | nil => simp
    | cons v vs =>
      rw [comb_cons]
      apply Submodule.add_mem
      · exact Submodule.smul_mem _ _ (Submodule.subset_span (by simp))
      · exact Submodule.span_mono (fun x member => List.mem_cons_of_mem v member) (ih vs)

/-- Combining with zeros gives zero. -/
theorem comb_zeros (n : Nat) (vs : List V) : comb (List.replicate n (0 : F)) vs = 0 := by
  induction n generalizing vs with
  | zero => simp
  | succ n ih => cases vs <;> simp [List.replicate_succ,ih]

theorem comb_zero_vectors (as : List F) (vs : List V) (zero : ∀ v ∈ vs, v = 0) : comb as vs = 0 := by
  induction as generalizing vs with
  | nil => simp
  | cons a as ih =>
    cases vs with
    | nil => simp
    | cons v vs => simp [zero v (by simp),ih vs (fun x member => zero x (by simp [member]))]

/-- Coefficient lists of one length combine entry by entry. -/
theorem comb_zipWith_sub (as bs : List F) (c : F) (vs : List V) (same : as.length = bs.length) :
    comb (List.zipWith (fun a b => a - b * c) as bs) vs = comb as vs - c • comb bs vs := by
  induction as generalizing bs vs with
  | nil =>
    have empty : bs = [] := List.length_eq_zero_iff.mp same.symm
    simp [empty]
  | cons a as ih =>
    cases bs with
    | nil => simp at same
    | cons b bs =>
      cases vs with
      | nil => simp
      | cons v vs =>
        have shorter : as.length = bs.length := by simpa using same
        simp only [List.zipWith_cons_cons,comb_cons,ih bs vs shorter]
        module

theorem comb_map_mul (as : List F) (c : F) (vs : List V) : comb (as.map (· * c)) vs = c • comb as vs := by
  induction as generalizing vs with
  | nil => simp
  | cons a as ih =>
    cases vs with
    | nil => simp
    | cons v vs => simp only [List.map_cons,comb_cons,ih vs]; module

theorem comb_unit (n k : Nat) (vs : List V) (inside : k < vs.length) (wide : k < n) :
    comb ((List.replicate n (0 : F)).set k 1) vs = vs[k] := by
  induction n generalizing k vs with
  | zero => omega
  | succ n ih =>
    cases vs with
    | nil => simp at inside
    | cons v vs =>
      cases k with
      | zero => simp [List.replicate_succ,comb_zeros]
      | succ k => simpa [List.replicate_succ] using ih k vs (by simpa using inside) (by omega)

theorem comb_smul_vectors (as : List F) (c : F) (vs : List V) : comb as (vs.map (c • ·)) = c • comb as vs :=
  (map_comb (LinearMap.lsmul F V c) as vs).symm

/-! ### Lists as coordinate vectors -/

/-- A list read as a vector with `n` coordinates. -/
def coords (n : Nat) (l : List F) : Fin n → F := fun i => l.getD i 0

@[simp] theorem coords_apply (n : Nat) (l : List F) (i : Fin n) : coords n l i = l.getD i 0 := rfl

/-- Lists of length `n` are determined by their coordinates. -/
theorem coords_injective {n : Nat} {l r : List F} (left : l.length = n) (right : r.length = n)
    (same : coords n l = coords n r) : l = r := by
  apply List.ext_getElem (left.trans right.symm)
  intro i il ir
  have entry := congrFun same ⟨i,left ▸ il⟩
  simpa [List.getD_eq_getElem?_getD,il,ir] using entry

theorem coords_ofFn (n : Nat) (x : Fin n → F) : coords n (List.ofFn x) = x := by
  funext i
  simp [List.getD_eq_getElem?_getD]

theorem coords_zeros (n k : Nat) : coords n (List.replicate k (0 : F)) = 0 := by
  funext i
  simp only [coords_apply,Pi.zero_apply,List.getD_eq_getElem?_getD,List.getElem?_replicate]
  split <;> rfl

theorem coords_zipWith_sub (n : Nat) (as bs : List F) (c : F) (same : as.length = bs.length) :
    coords n (List.zipWith (fun a b => a - b * c) as bs) = coords n as - c • coords n bs := by
  funext i
  simp only [coords_apply,Pi.sub_apply,Pi.smul_apply,smul_eq_mul,List.getD_eq_getElem?_getD,
    List.getElem?_zipWith']
  by_cases inside : i.val < as.length
  · have inside' : i.val < bs.length := by omega
    simp [List.getElem?_eq_getElem inside,List.getElem?_eq_getElem inside',mul_comm]
  · have outside : bs.length ≤ i.val := by omega
    simp [List.getElem?_eq_none (Nat.le_of_not_lt inside),List.getElem?_eq_none outside]

theorem coords_zipWith_add (n : Nat) (as bs : List F) (c : F) (same : as.length = bs.length) :
    coords n (List.zipWith (fun a b => a + b * c) as bs) = coords n as + c • coords n bs := by
  have negated := coords_zipWith_sub n as bs (-c) same
  simpa [sub_eq_add_neg] using negated

theorem coords_map_mul (n : Nat) (as : List F) (c : F) : coords n (as.map (· * c)) = c • coords n as := by
  funext i
  simp only [coords_apply,Pi.smul_apply,smul_eq_mul,List.getD_eq_getElem?_getD,List.getElem?_map]
  cases as[i.val]? <;> simp [mul_comm]

theorem coords_unit (n : Nat) (k : Fin n) :
    coords n ((List.replicate n (0 : F)).set k 1) = Pi.single k 1 := by
  funext i
  by_cases same : k = i
  · subst same; simp [List.getD_eq_getElem?_getD]
  · have different : k.val ≠ i.val := fun equal => same (Fin.ext equal)
    have entry : ((List.replicate n (0 : F)).set k.val 1)[i.val]? = some 0 := by
      rw [List.getElem?_set_ne different,List.getElem?_replicate,if_pos i.isLt]
    rw [coords_apply,List.getD_eq_getElem?_getD,entry,Pi.single_eq_of_ne (Ne.symm same)]
    rfl

/-- The combination of a list of vectors as a linear function of the coordinates. -/
def combination (vs : List V) : (Fin vs.length → F) →ₗ[F] V := Fintype.linearCombination F vs.get

theorem comb_eq_combination (as : List F) (vs : List V) : comb as vs = combination vs (coords vs.length as) := by
  induction vs generalizing as with
  | nil => simp [combination,Fintype.linearCombination_apply]
  | cons v vs ih =>
    cases as with
    | nil => simp [combination,Fintype.linearCombination_apply]
    | cons a as =>
      have rest := ih as
      simp only [combination,Fintype.linearCombination_apply,coords_apply] at rest
      simp only [combination,Fintype.linearCombination_apply,coords_apply,List.length_cons,Fin.sum_univ_succ]
      simpa using rest

/-- The combination of `n` listed vectors as a linear function of `n` coordinates. -/
def weigh (n : Nat) (vs : List V) : (Fin n → F) →ₗ[F] V := Fintype.linearCombination F (fun i => vs.getD i 0)

/-- Vectors that are missing at the end count as zero. -/
theorem comb_eq_weigh_of_le (as : List F) {vs : List V} {n : Nat} (count : vs.length ≤ n) :
    comb as vs = weigh n vs (coords n as) := by
  induction vs generalizing as n with
  | nil => simp [weigh,Fintype.linearCombination_apply]
  | cons v vs ih =>
    cases n with
    | zero => simp at count
    | succ n =>
      have shorter : vs.length ≤ n := by simpa using count
      cases as with
      | nil => simp [weigh,Fintype.linearCombination_apply]
      | cons a as =>
        have rest := ih as shorter
        simp only [weigh,Fintype.linearCombination_apply,coords_apply] at rest
        simp only [weigh,Fintype.linearCombination_apply,coords_apply,Fin.sum_univ_succ]
        simpa using rest

theorem comb_eq_weigh (as : List F) {vs : List V} {n : Nat} (count : vs.length = n) :
    comb as vs = weigh n vs (coords n as) := comb_eq_weigh_of_le as count.le

/-- The unit vectors combine into the coefficients. -/
theorem comb_units (as : List F) (n : Nat) :
    comb as ((List.range n).map (fun i (j : Fin n) => if j.val = i then (1 : F) else 0)) = coords n as := by
  rw [comb_eq_weigh as (n := n) (by simp)]
  funext j
  rw [weigh,Fintype.linearCombination_apply,Finset.sum_apply,Finset.sum_eq_single j]
  · simp [List.getD_eq_getElem?_getD]
  · intro i _ different
    have apart : j.val ≠ i.val := fun same => different (Fin.ext same.symm)
    simp [List.getD_eq_getElem?_getD,apart]
  · intro absent
    exact absurd (Finset.mem_univ j) absent

/-- A combination of combinations combines the coefficients: matrix products associate. -/
theorem comb_comb (as : List F) (rows : List (List F)) (vs : List V) :
    comb as (rows.map (fun row => comb row vs)) = combination vs (comb as (rows.map (coords vs.length))) := by
  rw [map_comb,List.map_map]
  congr 1
  apply List.map_congr_left
  intro row _
  exact comb_eq_combination row vs

theorem comb_comb_eq (as : List F) (rows : List (List F)) (vs : List V) (bs : List F)
    (same : coords vs.length bs = comb as (rows.map (coords vs.length))) :
    comb as (rows.map (fun row => comb row vs)) = comb bs vs := by
  rw [comb_comb,← same,← comb_eq_combination]

/-! ### Lists that grow innovatively -/

/-- Every vector lies outside the span of the vectors before it. -/
inductive Innovative : List V → Prop
  | nil : Innovative []
  | snoc {vs : List V} {v : V} : Innovative vs → v ∉ Submodule.span F {x | x ∈ vs} → Innovative (vs ++ [v])

end

section
variable {F : Type u} {V : Type v} [Field F] [AddCommGroup V] [Module F V]

omit [AddCommGroup V] in
theorem mem_snoc_set (vs : List V) (v : V) : {x | x ∈ vs ++ [v]} = insert v {x | x ∈ vs} := by
  ext x
  simp [or_comm]

theorem span_snoc (vs : List V) (v : V) :
    Submodule.span F {x | x ∈ vs ++ [v]} = Submodule.span F {v} ⊔ Submodule.span F {x | x ∈ vs} := by
  rw [mem_snoc_set,Submodule.span_insert]

theorem span_snoc_of_mem {vs : List V} {v : V} (member : v ∈ Submodule.span F {x | x ∈ vs}) :
    Submodule.span F {x | x ∈ vs ++ [v]} = Submodule.span F {x | x ∈ vs} := by
  rw [mem_snoc_set]
  exact Submodule.span_insert_eq_span member

theorem Innovative.independent {vs : List V} (grown : Innovative (F := F) vs) :
    vs.Nodup ∧ LinearIndepOn F id {x | x ∈ vs} := by
  induction grown with
  | nil => exact ⟨List.nodup_nil,by simp⟩
  | @snoc vs v _ fresh ih =>
    have absent : v ∉ vs := fun member => fresh (Submodule.subset_span member)
    refine ⟨?_,?_⟩
    · rw [List.nodup_append]
      refine ⟨ih.1,List.nodup_singleton v,?_⟩
      rintro a member b single rfl
      exact absent (List.mem_singleton.mp single ▸ member)
    · rw [mem_snoc_set]
      exact ih.2.id_insert fresh

/-- The length of an innovative list is the dimension of its span. -/
theorem Innovative.finrank_span {vs : List V} (grown : Innovative (F := F) vs) :
    Module.finrank F (Submodule.span F {x | x ∈ vs}) = vs.length := by
  classical
  obtain ⟨nodup,independent⟩ := grown.independent
  have asFinset : {x | x ∈ vs} = (vs.toFinset : Set V) := by ext x; simp
  rw [asFinset] at independent ⊢
  rw [finrank_span_finset_eq_card independent,List.toFinset_card_of_nodup nodup]

theorem Innovative.length_le {vs : List V} [Module.Finite F V] (grown : Innovative (F := F) vs) :
    vs.length ≤ Module.finrank F V := by
  rw [← grown.finrank_span]
  exact Submodule.finrank_le _

/-- An innovative list in the span of other vectors is no longer than their list. -/
theorem Innovative.length_le_of_span {vs ws : List V} (grown : Innovative (F := F) vs)
    (inside : ∀ v ∈ vs, v ∈ Submodule.span F {x | x ∈ ws}) : vs.length ≤ ws.length := by
  classical
  have asFinset : {x | x ∈ ws} = (ws.toFinset : Set V) := by ext x; simp
  rw [asFinset] at inside
  rw [← grown.finrank_span]
  exact (Submodule.finrank_mono (Submodule.span_le.mpr inside)).trans
    ((finrank_span_finset_le_card _).trans (List.toFinset_card_le _))

/-- An innovative list is as long as the space is wide exactly when it spans it. -/
theorem Innovative.spans_iff {vs : List V} [Module.Finite F V] (grown : Innovative (F := F) vs) :
    Submodule.span F {x | x ∈ vs} = ⊤ ↔ vs.length = Module.finrank F V := by
  constructor
  · intro spans
    rw [← grown.finrank_span,spans,finrank_top]
  · intro full
    apply Submodule.eq_top_of_finrank_eq
    rw [grown.finrank_span,full]

end

end Rlnc.Combination
