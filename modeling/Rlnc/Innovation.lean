import Rlnc.Coding

/-!
How often re-encoding helps. A node mixes its chunks with non-zero coefficients; if one
of them is new to a neighbour, fixing all coefficients but that one leaves at most one
mixture that is not (`card_weigh_mem_le`). Among all choices at most one in `q - 1` is
therefore redundant (`redundant_bound`), where `q` is the number of scalars.
-/
namespace Rlnc.Innovation
open Rlnc.Panics Rlnc.Combination Rlnc.Linalg Rlnc.Coding
set_option linter.unusedSectionVars false

/-! ### Counting coefficients -/

section
variable {F V : Type} [Field F] [Fintype F] [DecidableEq F] [AddCommGroup V] [Module F V]

/-- Non-zero coefficients of `n` vectors. -/
abbrev Coefficients (F : Type) [Zero F] (n : Nat) := Fin n → {x : F // x ≠ 0}

theorem card_coefficients (n : Nat) : Fintype.card (Coefficients F n) = (Fintype.card F - 1) ^ n := by
  rw [Fintype.card_fun,Fintype.card_fin,Fintype.card_subtype_compl,Fintype.card_subtype_eq]

/-- Two combinations in a subspace that differ at most in the coefficient of a vector
    outside of it do not differ. -/
theorem sum_mem_inj {k : Nat} {W : Submodule F V} {vs : Fin (k + 1) → V} {i : Fin (k + 1)} (outside : vs i ∉ W)
    {a b : Fin (k + 1) → F} (left : ∑ j, a j • vs j ∈ W) (right : ∑ j, b j • vs j ∈ W)
    (same : ∀ j, a (i.succAbove j) = b (i.succAbove j)) : a = b := by
  have multiple : (a i - b i) • vs i ∈ W := by
    have difference := W.sub_mem left right
    rw [Fin.sum_univ_succAbove _ i,Fin.sum_univ_succAbove _ i] at difference
    simp only [same] at difference
    rwa [add_sub_add_right_eq_sub,← sub_smul] at difference
  have equal : a i = b i := by
    by_contra different
    exact outside ((W.smul_mem_iff (sub_ne_zero.mpr different)).mp multiple)
  funext j
  by_cases own : j = i
  · rw [own,equal]
  · obtain ⟨l,rfl⟩ := Fin.exists_succAbove_eq own
    exact same l

/-- If one of `n` vectors is outside a subspace, at most one in `q - 1` of their combinations
    with non-zero coefficients is inside. -/
theorem card_sum_mem_le {n : Nat} (W : Submodule F V) (vs : Fin n → V) (i : Fin n) (outside : vs i ∉ W)
    (inside : Finset (Coefficients F n)) (each : ∀ a ∈ inside, ∑ j, (a j).val • vs j ∈ W) :
    inside.card ≤ (Fintype.card F - 1) ^ (n - 1) := by
  cases n with
  | zero => exact i.elim0
  | succ k =>
    rw [Nat.add_sub_cancel,← card_coefficients k,← Finset.card_univ]
    refine Finset.card_le_card_of_injOn (fun a j => a (i.succAbove j)) (fun _ _ => Finset.mem_univ _) ?_
    intro a listed b listed' same
    have values := sum_mem_inj outside (each a listed) (each b listed') (fun j => congrArg Subtype.val (congrFun same j))
    funext j
    exact Subtype.ext (congrFun values j)

end

/-! ### Redundant mixtures -/

section
variable {F : Type} [Field F] [DecidableEq F] {N : Nat}

/-- The states that a decoder can be in. -/
inductive Built : BlockDecoder F N → Prop
  | new : Built BlockDecoder.new
  | add {d d' : BlockDecoder F N} {c : CodedChunk F N} {grew : Bool} (built : Built d) (ran : d.add c = .ok (d',grew)) : Built d'
  | reset {d : BlockDecoder F N} (built : Built d) : Built d.reset

theorem Built.sound {d : BlockDecoder F N} (built : Built d) : Sound d := by
  induction built with
  | new => exact BlockDecoder.sound_new
  | @add d d' c grew _ ran sound =>
    rcases BlockDecoder.add_spec sound c with ⟨_,same⟩ | ⟨_,_,d'',grown,sound',_⟩
    · obtain ⟨rfl,_⟩ := ok_pair (ran.symm.trans same)
      exact sound
    · obtain ⟨rfl,_⟩ := ok_pair (ran.symm.trans grown)
      exact sound'
  | reset _ sound =>
    rw [BlockDecoder.sound_reset sound]
    exact BlockDecoder.sound_new

/-- What `other` answers to what `self` re-encodes with these coefficients. -/
def offer_mixture (self other : BlockDecoder F N) (alphas : List F) : Rust Bool := do
  let coded ← self.reencode_with alphas
  let (_,grew) ← other.add coded
  return grew

/-- The coefficients with which a re-encoded chunk is redundant. -/
def redundant [Fintype F] (self other : BlockDecoder F N) : Finset (Coefficients F self.coded_chunks.length) :=
  {alphas | offer_mixture self other (List.ofFn fun i => (alphas i).val) = .ok false}

/-- The coefficients of what was re-encoded, whatever the widths of the chunks. -/
theorem reencode_with_coefficients {d : BlockDecoder F N} {alphas : List F} {c : CodedChunk F N}
    (ran : d.reencode_with alphas = .ok c) : c.coefficients = comb alphas (d.coded_chunks.map CodedChunk.coefficients) := by
  simp only [BlockDecoder.reencode_with,Linalg.reencode,bind_ok,require_eq_ok,pure_eq] at ran
  obtain ⟨_,some_stored,_,same,⟨new_data,new_coeffs⟩,⟨data,_,coeffs,mixed,pair⟩,w,_,made⟩ := ran
  obtain ⟨rfl,rfl⟩ := ok_pair pair
  obtain ⟨r,ran,_,value⟩ := linear_combination_spec N (d.coded_chunks.map CodedChunk.b) alphas (by simpa using some_stored)
    (by rw [List.length_map,same]) (by
      intro b listed
      obtain ⟨c,_,rfl⟩ := List.mem_map.mp listed
      exact c.b_length)
  obtain rfl := Except.ok.inj (mixed.symm.trans ran)
  rw [CodedChunk.coefficients,(CodedChunk.new_eq_ok made).2,value,List.map_map]
  rfl

/-- A redundant mixture lies in what the neighbour has. -/
theorem redundant_mem {self other : BlockDecoder F N} (built : Built other) {alphas : List F}
    (idle : offer_mixture self other alphas = .ok false) :
    comb alphas (self.coded_chunks.map CodedChunk.coefficients) ∈ coefficient_span other.coded_chunks := by
  simp only [offer_mixture,bind_ok] at idle
  obtain ⟨c,mixed,⟨other',grew⟩,added,last⟩ := idle
  obtain rfl := Except.ok.inj last
  rw [← reencode_with_coefficients mixed]
  rcases BlockDecoder.add_spec built.sound c with ⟨member,_⟩ | ⟨_,_,_,grown,_⟩
  · exact member
  · cases (ok_pair (added.symm.trans grown)).2

/-- Chunks of one width are mixed and offered without a panic. -/
theorem offer_mixture_runs {self other : BlockDecoder F N} (built : Built other) {alphas : List F} {m : Nat}
    (some_stored : self.coded_chunks ≠ []) (same : alphas.length = self.coded_chunks.length)
    (wide : ∀ c ∈ self.coded_chunks, c.w.v.length = m) : ∃ grew, offer_mixture self other alphas = .ok grew := by
  obtain ⟨c,mixed,_⟩ := BlockDecoder.reencode_with_spec self alphas some_stored same wide
  rcases BlockDecoder.add_spec built.sound c with ⟨_,kept⟩ | ⟨_,_,other',grown,_⟩
  · exact ⟨false,by simp only [offer_mixture,mixed,ok_bind,kept,pure_eq]⟩
  · exact ⟨true,by simp only [offer_mixture,mixed,ok_bind,grown,pure_eq]⟩

/-- If a chunk of a node is new to a neighbour, at most `(q - 1) ^ (L - 1)` of the
    `(q - 1) ^ L` choices of non-zero coefficients for its `L` chunks give the neighbour a
    redundant one. Where the chunks have one width, the neighbour answers to all of them.
    Nothing is new to a complete neighbour, and any chunks may be mixed. -/
theorem redundant_bound [Fintype F] (self other : BlockDecoder F N) (built : Built other)
    (novel : ∃ c ∈ self.coded_chunks, c.coefficients ∉ coefficient_span other.coded_chunks) :
    (redundant self other).card ≤ (Fintype.card F - 1) ^ (self.coded_chunks.length - 1) ∧
      Fintype.card (Coefficients F self.coded_chunks.length) = (Fintype.card F - 1) ^ self.coded_chunks.length ∧
      ∀ m, (∀ c ∈ self.coded_chunks, c.w.v.length = m) → ∀ alphas : Coefficients F self.coded_chunks.length,
        ∃ grew, offer_mixture self other (List.ofFn fun i => (alphas i).val) = .ok grew := by
  obtain ⟨c,member,outside⟩ := novel
  obtain ⟨i,inside,rfl⟩ := List.getElem_of_mem member
  refine ⟨?_,card_coefficients _,fun m wide alphas => ?_⟩
  · refine card_sum_mem_le (coefficient_span other.coded_chunks) (fun j => self.coded_chunks[j].coefficients) ⟨i,inside⟩ outside
      _ fun alphas listed => ?_
    have mixed := redundant_mem built (Finset.mem_filter.mp listed).2
    rw [comb_eq_weigh (n := self.coded_chunks.length) _ (by rw [List.length_map]),coords_ofFn,weigh,
      Fintype.linearCombination_apply] at mixed
    simpa [List.getD_eq_getElem?_getD] using mixed
  · exact offer_mixture_runs built (List.ne_nil_of_mem member) (by simp) wide

end

/-- A coded chunk of two originals with one scalar each. -/
private def coded_pair (w x y : ZMod 3) : CodedChunk (ZMod 3) 2 := ⟨⟨[w],by simp⟩,[x,y],rfl⟩

/-- The chunks of a node, and the state of a neighbour that has their sum. -/
private def both_chunks : BlockDecoder (ZMod 3) 2 :=
  ⟨[coded_pair 1 1 0,coded_pair 1 0 1],⟨2,[[1,0],[0,1]],[0,1],[[1,0],[0,1]]⟩⟩

private def sum_only : BlockDecoder (ZMod 3) 2 := ⟨[coded_pair (1 + 1) 1 1],⟨2,[[1,1]],[0],[[1,0]]⟩⟩

/-- Of the four choices in the field of three elements at most two are redundant. -/
theorem redundant_bound_three : (redundant both_chunks sum_only).card ≤ 2 := by
  have added : BlockDecoder.new.add (coded_pair (1 + 1) 1 1) = .ok (sum_only,true) := by decide +kernel
  refine (redundant_bound both_chunks sum_only (.add .new added) ⟨coded_pair 1 1 0,by decide +kernel,?_⟩).1
  intro member
  obtain ⟨x,same⟩ : ∃ x : ZMod 3, x • (coded_pair (1 + 1) 1 1).coefficients = (coded_pair 1 1 0).coefficients := by
    simpa [coefficient_span,sum_only,Submodule.mem_span_singleton] using member
  revert x
  decide +kernel

end Rlnc.Innovation
