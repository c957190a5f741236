import Rlnc.Innovation

/-!
How many packets a decoder needs. Each of them raises the rank except for one choice of
coefficients in `q - 1`, so of all choices for `k` packets at most `C(k, d)` in `(q - 1) ^ (k - d)`
leave a decoder that lacks `d + 1` chunks incomplete (`decoding_failure_bound`).
-/
namespace Rlnc.Shortfall
open Rlnc.Panics Rlnc.Combination Rlnc.Linalg Rlnc.Coding Rlnc.Innovation
set_option linter.unusedSectionVars false

/-! ### Counting choices for several packets -/

section
variable {F V : Type} [Field F] [Fintype F] [DecidableEq F] [AddCommGroup V] [Module F V]

/-- Vectors mixed with non-zero coefficients. -/
def mixture {n : Nat} (vs : Fin n → V) (a : Coefficients F n) : V := ∑ j, (a j).val • vs j

/-- Coefficients for several mixtures. -/
abbrev Choices (F : Type) [Zero F] {k : Nat} (n : Fin k → Nat) := (t : Fin k) → Coefficients F (n t)

/-- What a subspace and some mixtures span. -/
def gained {k : Nat} {n : Fin k → Nat} (W : Submodule F V) (vs : (t : Fin k) → Fin (n t) → V) (a : Choices F n) :
    Submodule F V := W ⊔ Submodule.span F (Set.range fun t => mixture (vs t) (a t))

theorem card_choices {k : Nat} (n : Fin k → Nat) : Fintype.card (Choices F n) = ∏ t, (Fintype.card F - 1) ^ n t := by
  rw [Fintype.card_pi]
  exact Finset.prod_congr rfl fun t _ => card_coefficients (n t)

/-- The first mixture may be counted with the subspace. -/
theorem gained_succ {k : Nat} {n : Fin (k + 1) → Nat} (W : Submodule F V) (vs : (t : Fin (k + 1)) → Fin (n t) → V)
    (a : Choices F n) :
    gained W vs a = gained (W ⊔ Submodule.span F {mixture (vs 0) (a 0)}) (fun t => vs t.succ) (Fin.tail a) := by
  have split : Set.range (fun t => mixture (vs t) (a t)) =
      insert (mixture (vs 0) (a 0)) (Set.range fun t : Fin k => mixture (vs t.succ) (Fin.tail a t)) :=
    Fin.range_cons (mixture (vs 0) (a 0)) _ ▸ congrArg Set.range (funext fun t => by cases t using Fin.cases <;> rfl)
  rw [gained,gained,split,Submodule.span_insert,sup_assoc]

/-- A sum over two kinds of terms is bounded by the number and the bound of each kind. -/
theorem sum_two_kinds {ι : Type} [Fintype ι] [DecidableEq ι] (few : Finset ι) (f : ι → Nat) {A B : Nat}
    (inside : ∀ i ∈ few, f i ≤ A) (outside : ∀ i ∉ few, f i ≤ B) : ∑ i, f i ≤ few.card * A + Fintype.card ι * B := by
  calc ∑ i, f i ≤ ∑ i, ((if i ∈ few then A else 0) + B) := by
        refine Finset.sum_le_sum fun i _ => ?_
        by_cases member : i ∈ few
        · rw [if_pos member]
          exact (inside i member).trans (Nat.le_add_right ..)
        · rw [if_neg member,Nat.zero_add]
          exact outside i member
    _ = few.card * A + Fintype.card ι * B := by
        rw [Finset.sum_add_distrib,Finset.sum_ite_mem,Finset.univ_inter,Finset.sum_const,Finset.sum_const,Finset.card_univ,
          smul_eq_mul,smul_eq_mul]

/-- Choices counted by the coefficients of the first mixture. -/
theorem card_by_first {k : Nat} {n : Fin (k + 1) → Nat} [DecidableEq (Choices F n)]
    [DecidableEq (Choices F fun t : Fin k => n t.succ)] (short : Finset (Choices F n)) :
    short.card = ∑ first : Coefficients F (n 0), ((short.filter fun a => a 0 = first).image Fin.tail).card := by
  rw [Finset.card_eq_sum_card_fiberwise (t := Finset.univ) (f := fun a => a 0) fun _ _ => by simp]
  refine Finset.sum_congr rfl fun first _ => (Finset.card_image_of_injOn ?_).symm
  intro a listed b listed' same
  rw [← Fin.cons_self_tail a,← Fin.cons_self_tail b,same,(Finset.mem_filter.mp listed).2,(Finset.mem_filter.mp listed').2]

/-- What completes a subspace that is not everything has a vector outside of it. -/
theorem some_outside {n : Nat} {W : Submodule F V} {vs : Fin n → V} (helpful : W ⊔ Submodule.span F (Set.range vs) = ⊤)
    (proper : W ≠ ⊤) : ∃ i, vs i ∉ W := by
  by_contra inside
  push Not at inside
  refine proper ?_
  rw [← helpful,left_eq_sup,Submodule.span_le]
  rintro _ ⟨i,rfl⟩
  exact inside i

/-- Few mixtures stay within the subspace. -/
theorem card_within_le {n : Nat} {W : Submodule F V} {vs : Fin n → V} (helpful : W ⊔ Submodule.span F (Set.range vs) = ⊤)
    (proper : W ≠ ⊤) (within : Finset (Coefficients F n)) (each : ∀ a ∈ within, mixture vs a ∈ W) :
    within.card * (Fintype.card F - 1) ≤ (Fintype.card F - 1) ^ n := by
  obtain ⟨i,outside⟩ := some_outside helpful proper
  calc within.card * (Fintype.card F - 1) ≤ (Fintype.card F - 1) ^ (n - 1) * (Fintype.card F - 1) :=
        Nat.mul_le_mul_right _ (card_sum_mem_le W vs i outside within each)
    _ = (Fintype.card F - 1) ^ n := by
        rw [← pow_succ,Nat.sub_add_cancel (by have := i.isLt; omega)]

/-- Where each list of vectors completes a subspace that lacks `d + 1` dimensions, at most
    `C(k, d)` in `(q - 1) ^ (k - d)` choices of `k` mixtures do not complete it. -/
theorem card_short_le [Module.Finite F V] {k : Nat} {n : Fin k → Nat} (W : Submodule F V) (vs : (t : Fin k) → Fin (n t) → V)
    (helpful : ∀ t, W ⊔ Submodule.span F (Set.range (vs t)) = ⊤) {d : Nat}
    (lacking : Module.finrank F V = Module.finrank F W + (d + 1)) (many : d ≤ k) (short : Finset (Choices F n))
    (each : ∀ a ∈ short, gained W vs a ≠ ⊤) :
    short.card * (Fintype.card F - 1) ^ (k - d) ≤ k.choose d * ∏ t, (Fintype.card F - 1) ^ n t := by
  classical
  have all : short.card ≤ ∏ t, (Fintype.card F - 1) ^ n t := card_choices (F := F) n ▸ Finset.card_le_univ short
  induction k generalizing W d with
  | zero =>
    obtain rfl : d = 0 := by omega
    simpa using all
  | succ k ih =>
    by_cases last : d = k + 1
    · subst last
      simpa using all
    have few : d ≤ k := by omega
    have proper : W ≠ ⊤ := by
      rintro rfl
      rw [finrank_top] at lacking
      omega
    let rest (first : Coefficients F (n 0)) := (short.filter fun a => a 0 = first).image Fin.tail
    have shorter : ∀ first, ∀ b ∈ rest first,
        gained (W ⊔ Submodule.span F {mixture (vs 0) first}) (fun t => vs t.succ) b ≠ ⊤ := by
      intro first b member
      obtain ⟨a,chosen,rfl⟩ := Finset.mem_image.mp member
      obtain ⟨listed,rfl⟩ := Finset.mem_filter.mp chosen
      rw [← gained_succ]
      exact each a listed
    have others : ∀ x t, W ⊔ Submodule.span F {x} ⊔ Submodule.span F (Set.range (vs (Fin.succ t))) = ⊤ := fun x t =>
      top_unique ((helpful t.succ).symm.le.trans (sup_le_sup_right le_sup_left _))
    have bound : ∀ first, (rest first).card ≤ ∏ t : Fin k, (Fintype.card F - 1) ^ n t.succ := fun first =>
      card_choices (F := F) (fun t : Fin k => n t.succ) ▸ Finset.card_le_univ _
    -- a redundant mixture leaves as much to do with one packet less
    have stays : ∀ first, mixture (vs 0) first ∈ W → (rest first).card * (Fintype.card F - 1) ^ (k - d) ≤
        k.choose d * ∏ t : Fin k, (Fintype.card F - 1) ^ n t.succ := by
      intro first inside
      have same : W ⊔ Submodule.span F {mixture (vs 0) first} = W := by simpa using inside
      exact ih W _ (same ▸ others (mixture (vs 0) first)) lacking few _ (same ▸ shorter first) (bound first)
    -- any other leaves less to do, or nothing
    obtain ⟨c,pascal,grows⟩ : ∃ c, (k + 1).choose d = k.choose d + c ∧ ∀ first, mixture (vs 0) first ∉ W →
        (rest first).card * (Fintype.card F - 1) ^ (k + 1 - d) ≤ c * ∏ t : Fin k, (Fintype.card F - 1) ^ n t.succ := by
      cases d with
      | zero =>
        refine ⟨0,by simp,fun first outside => ?_⟩
        have complete : W ⊔ Submodule.span F {mixture (vs 0) first} = ⊤ :=
          Submodule.eq_top_of_finrank_eq (by rw [Submodule.finrank_sup_span_singleton outside,lacking])
        have none_left : rest first = ∅ := by
          refine Finset.eq_empty_of_forall_notMem fun b member => shorter first b member ?_
          rw [complete,gained,top_sup_eq]
        simp [none_left]
      | succ d =>
        refine ⟨k.choose d,by rw [Nat.choose_succ_succ,Nat.add_comm],fun first outside => ?_⟩
        rw [Nat.add_sub_add_right]
        refine ih _ _ (others _) ?_ (by omega) _ (shorter first) (bound first)
        rw [Submodule.finrank_sup_span_singleton outside,lacking]
        omega
    set Q := Fintype.card F - 1 with scalars
    set P := ∏ t : Fin k, Q ^ n t.succ with product
    let within : Finset (Coefficients F (n 0)) := {first | mixture (vs 0) first ∈ W}
    have few_within : within.card * Q ≤ Q ^ n 0 :=
      card_within_le (helpful 0) proper within fun first member => (Finset.mem_filter.mp member).2
    calc short.card * Q ^ (k + 1 - d) = ∑ first, (rest first).card * Q ^ (k + 1 - d) := by
          rw [card_by_first,Finset.sum_mul]
      _ ≤ within.card * (Q * (k.choose d * P)) + Fintype.card (Coefficients F (n 0)) * (c * P) := by
          refine sum_two_kinds within _ (fun first member => ?_) fun first member => ?_
          · have step : k + 1 - d = (k - d) + 1 := by omega
            rw [step,pow_succ,← mul_assoc,mul_comm _ Q]
            exact Nat.mul_le_mul_left _ (stays first (Finset.mem_filter.mp member).2)
          · exact grows first fun inside => member (Finset.mem_filter.mpr ⟨Finset.mem_univ _,inside⟩)
      _ ≤ Q ^ n 0 * (k.choose d * P) + Q ^ n 0 * (c * P) := by
          rw [card_coefficients,← mul_assoc]
          exact Nat.add_le_add_right (Nat.mul_le_mul_right _ few_within) _
      _ = (k + 1).choose d * ∏ t, Q ^ n t := by
          rw [pascal,Fin.prod_univ_succ,← product]
          ring

end

/-! ### Packets from several neighbours -/

section
variable {F : Type} [Field F] [DecidableEq F] {N m : Nat}

/-- What a decoder holds after one re-encoded chunk from each neighbour. -/
def listen (self : BlockDecoder F N) (offers : List (BlockDecoder F N × List F)) : Rust (BlockDecoder F N) :=
  offers.foldlM (fun self (neighbour,alphas) => do
    let coded ← neighbour.reencode_with alphas
    let (self,_) ← self.add coded
    return self) self

/-- Whether the decoder is complete then. -/
def completes (self : BlockDecoder F N) (offers : List (BlockDecoder F N × List F)) : Rust Bool := do
  let self ← listen self offers
  return self.is_complete

/-- Adding a chunk adds its coefficients to the span. -/
theorem add_gains {d : BlockDecoder F N} (sound : Sound d) (c : CodedChunk F N) :
    ∃ d' grew, d.add c = .ok (d',grew) ∧ Sound d' ∧
      coefficient_span d'.coded_chunks = coefficient_span d.coded_chunks ⊔ Submodule.span F {c.coefficients} := by
  rcases BlockDecoder.add_spec sound c with ⟨member,kept⟩ | ⟨_,_,d',grown,sound',stored⟩
  · exact ⟨d,false,kept,sound,by simpa using member⟩
  · refine ⟨d',true,grown,sound',?_⟩
    rw [stored,coefficient_span,List.map_append,List.map_singleton,span_snoc,sup_comm]
    rfl

/-- A neighbour with chunks of `m` elements, and coefficients for all of them. -/
structure Offered (m : Nat) (offer : BlockDecoder F N × List F) : Prop where
  stored : offer.1.coded_chunks ≠ []
  same : offer.2.length = offer.1.coded_chunks.length
  wide : ∀ c ∈ offer.1.coded_chunks, c.w.v.length = m

/-- The coefficients of what is offered. -/
def offered_coefficients (offer : BlockDecoder F N × List F) : Fin N → F :=
  comb offer.2 (offer.1.coded_chunks.map CodedChunk.coefficients)

/-- What neighbours offer is taken, and its coefficients are added to the span. -/
theorem listen_spec {d : BlockDecoder F N} (sound : Sound d) (offers : List (BlockDecoder F N × List F))
    (each : ∀ offer ∈ offers, Offered m offer) :
    ∃ d', listen d offers = .ok d' ∧ Sound d' ∧ coefficient_span d'.coded_chunks =
      coefficient_span d.coded_chunks ⊔ Submodule.span F {x | x ∈ offers.map offered_coefficients} := by
  apply fold_keeps _ (fun passed (d' : BlockDecoder F N) => Sound d' ∧ coefficient_span d'.coded_chunks =
    coefficient_span d.coded_chunks ⊔ Submodule.span F {x | x ∈ passed.map offered_coefficients}) offers
  · exact ⟨sound,by simp⟩
  · rintro before ⟨neighbour,alphas⟩ after d' split ⟨sound',spans⟩
    obtain ⟨stored,same,wide⟩ := each (neighbour,alphas) (by simp [split])
    obtain ⟨c,mixed,_,_,coefficients⟩ := BlockDecoder.reencode_with_spec neighbour alphas stored same wide
    obtain ⟨d'',grew,added,sound'',gains⟩ := add_gains sound' c
    refine ⟨d'',by simp only [mixed,ok_bind,added]; rfl,sound'',?_⟩
    rw [gains,spans,List.map_append,List.map_singleton,span_snoc,coefficients,sup_assoc,sup_comm (Submodule.span F _)]
    rfl

/-- One choice of coefficients for each neighbour. -/
def offers {k : Nat} (neighbours : Fin k → BlockDecoder F N)
    (alphas : Choices F fun t => (neighbours t).coded_chunks.length) : List (BlockDecoder F N × List F) :=
  List.ofFn fun t => (neighbours t,List.ofFn fun i => (alphas t i).val)

/-- The choices that leave a decoder incomplete. -/
def incomplete [Fintype F] {k : Nat} (neighbours : Fin k → BlockDecoder F N) (self : BlockDecoder F N) :
    Finset (Choices F fun t => (neighbours t).coded_chunks.length) :=
  {alphas | completes self (offers neighbours alphas) ≠ .ok true}

theorem offered_mixture {d : BlockDecoder F N} (a : Coefficients F d.coded_chunks.length) :
    offered_coefficients (d,List.ofFn fun i => (a i).val) = ∑ i, (a i).val • d.coded_chunks[i].coefficients := by
  rw [offered_coefficients,comb_eq_weigh (n := d.coded_chunks.length) _ (by rw [List.length_map]),coords_ofFn,weigh,
    Fintype.linearCombination_apply]
  simp [List.getD_eq_getElem?_getD]

theorem range_coefficients (cs : List (CodedChunk F N)) :
    Submodule.span F (Set.range fun i : Fin cs.length => cs[i].coefficients) = coefficient_span cs := by
  congr 1
  ext x
  constructor
  · rintro ⟨i,rfl⟩
    exact List.mem_map_of_mem (List.getElem_mem i.isLt)
  · intro member
    obtain ⟨c,listed,rfl⟩ := List.mem_map.mp member
    obtain ⟨i,inside,rfl⟩ := List.getElem_of_mem listed
    exact ⟨⟨i,inside⟩,rfl⟩

/-- What the neighbours have offered completes the decoder, if the mixtures complete its span. -/
theorem offers_complete [Fintype F] {k : Nat} {neighbours : Fin k → BlockDecoder F N} {self : BlockDecoder F N} (sound : Sound self)
    (stored : ∀ t, (neighbours t).coded_chunks ≠ []) (wide : ∀ t, ∀ c ∈ (neighbours t).coded_chunks, c.w.v.length = m)
    {alphas : Choices F fun t => (neighbours t).coded_chunks.length}
    (full : gained (coefficient_span self.coded_chunks) (fun t i => ((neighbours t).coded_chunks[i]).coefficients) alphas = ⊤) :
    completes self (offers neighbours alphas) = .ok true := by
  obtain ⟨d,ran,sound',spans⟩ := listen_spec (m := m) sound (offers neighbours alphas) fun offer member => by
    obtain ⟨t,rfl⟩ := (List.mem_ofFn' _ _).mp member
    exact ⟨stored t,by simp,wide t⟩
  have mixtures : {x | x ∈ (offers neighbours alphas).map offered_coefficients} =
      Set.range fun t => mixture (fun i => ((neighbours t).coded_chunks[i]).coefficients) (alphas t) := by
    ext x
    simp only [offers,List.map_ofFn,Set.mem_ofPred_eq,List.mem_ofFn',Set.mem_range,Function.comp_apply,offered_mixture,mixture]
  have complete : d.is_complete = true := (BlockDecoder.complete_iff_spans sound').mpr (by rw [spans,mixtures]; exact full)
  simp only [completes,ran,ok_bind,complete,pure_eq]

/-- A decoder that lacks `d + 1` chunks hears one mixture from each of `k` neighbours, each of which
    holds all that is lacking. Of all choices of non-zero coefficients at most `C(k, d)` in
    `(q - 1) ^ (k - d)` leave it incomplete. -/
theorem decoding_failure_bound [Fintype F] {k d : Nat} (neighbours : Fin k → BlockDecoder F N) {self : BlockDecoder F N}
    (built : Built self) (wide : ∀ t, ∀ c ∈ (neighbours t).coded_chunks, c.w.v.length = m)
    (helpful : ∀ t, coefficient_span self.coded_chunks ⊔ coefficient_span (neighbours t).coded_chunks = ⊤)
    (lacking : N = self.rank + (d + 1)) (many : d ≤ k) :
    (incomplete neighbours self).card * (Fintype.card F - 1) ^ (k - d) ≤
      k.choose d * Fintype.card (Choices F fun t => (neighbours t).coded_chunks.length) := by
  have sound := built.sound
  have dimension : Module.finrank F (coefficient_span self.coded_chunks) = self.rank := by
    rw [BlockDecoder.rank_eq sound,← List.length_map (f := CodedChunk.coefficients)]
    exact (BlockDecoder.innovative sound).finrank_span
  have stored : ∀ t, (neighbours t).coded_chunks ≠ [] := by
    intro t empty
    have everything : coefficient_span self.coded_chunks = ⊤ := by simpa [empty,coefficient_span] using helpful t
    rw [everything,finrank_top,Module.finrank_fin_fun] at dimension
    omega
  rw [card_choices]
  refine card_short_le (coefficient_span self.coded_chunks) (fun t i => ((neighbours t).coded_chunks[i]).coefficients)
    (fun t => ?_) ?_ many _ fun alphas listed full => ?_
  · rw [range_coefficients]
    exact helpful t
  · rw [dimension,Module.finrank_fin_fun]
    exact lacking
  · exact (Finset.mem_filter.mp listed).2 (offers_complete sound stored wide full)

end

/-- A chunk of a block of two, and a decoder with one or both of them. -/
private def one_of_two (x : ZMod 3) : CodedChunk (ZMod 3) 2 := ⟨⟨[x + 1],by simp⟩,[x,1 - x],rfl⟩

private def first_of_two : BlockDecoder (ZMod 3) 2 := ⟨[one_of_two 1],⟨2,[[1,0]],[0],[[1,0]]⟩⟩

private def both_of_two : BlockDecoder (ZMod 3) 2 :=
  ⟨[one_of_two 1,one_of_two 0],⟨2,[[1,0],[0,1]],[0,1],[[1,0],[0,1]]⟩⟩

/-- In the field of three elements four packets leave at most half of the 256 choices incomplete. -/
theorem decoding_failure_bound_three : (incomplete (fun _ : Fin 4 => both_of_two) BlockDecoder.new).card ≤ 128 := by
  have first : BlockDecoder.new.add (one_of_two 1) = .ok (first_of_two,true) := by decide +kernel
  have second : first_of_two.add (one_of_two 0) = .ok (both_of_two,true) := by decide +kernel
  have everything : coefficient_span both_of_two.coded_chunks = ⊤ :=
    (BlockDecoder.complete_iff_spans (Built.add (.add .new first) second).sound).mp (by decide +kernel)
  have bound := decoding_failure_bound (m := 1) (d := 1) (fun _ : Fin 4 => both_of_two) .new
    (by simp [both_of_two,one_of_two]) (fun _ => by rw [everything,sup_top_eq]) (by decide) (by decide)
  have choices : Fintype.card (Choices (ZMod 3) fun _ : Fin 4 => both_of_two.coded_chunks.length) = 256 := by
    rw [card_choices]
    simp [both_of_two]
  rw [choices] at bound
  simp at bound
  omega

end Rlnc.Shortfall
