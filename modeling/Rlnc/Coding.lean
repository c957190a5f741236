import Rlnc.Linalg
import Rlnc.Echelon

/-!
Chunks, coded chunks and the block decoder. The decoder keeps the chunks whose
coefficients grow the span (`add_spec`); once they span everything it returns the
chunks that were encoded, whatever order, duplicates and dependent chunks it was
given (`decoder_recovers`). A re-encoded chunk is the combination of the stored
ones in data and in coefficients (`reencode_with_spec`).
-/
namespace Rlnc.Coding
open Rlnc.Panics Rlnc.Combination Rlnc.Linalg Rlnc.Echelon
set_option linter.unusedSectionVars false

/-- An original chunk: the data vector, never empty. -/
structure Chunk (F : Type) where
  v : List F
  nonempty : v ≠ []
deriving DecidableEq

/-- A coded chunk: `N` coefficients and the combination of the original chunks with them. -/
structure CodedChunk (F : Type) (N : Nat) where
  w : Chunk F
  b : List F
  b_length : b.length = N
deriving DecidableEq

structure BlockDecoder (F : Type) (N : Nat) where
  coded_chunks : List (CodedChunk F N)
  echelon : IncrementalEchelon F
deriving DecidableEq

section
variable {F : Type} [Field F] [DecidableEq F] {N m : Nat}

def Chunk.new (v : List F) : Rust (Chunk F) :=
  if nonempty : v ≠ [] then .ok ⟨v,nonempty⟩ else .error (.assertion "chunk must not be empty")

def CodedChunk.new (w : Chunk F) (b : List F) : Rust (CodedChunk F N) :=
  if same : b.length = N then .ok ⟨w,b,same⟩
  else .error (.assertion s!"coefficient vector must have length N={N}, got {b.length}")

namespace BlockDecoder

def new : BlockDecoder F N := ⟨[],IncrementalEchelon.new N⟩

def rank (self : BlockDecoder F N) : Nat := self.echelon.rank

def is_complete (self : BlockDecoder F N) : Bool := self.echelon.is_full

def reset (self : BlockDecoder F N) : BlockDecoder F N := ⟨[],self.echelon.reset⟩

def add (self : BlockDecoder F N) (coded : CodedChunk F N) : Rust (BlockDecoder F N × Bool) := do
  if self.echelon.is_full then
    return (self,false)
  let (echelon,grew) ← self.echelon.add_row coded.b
  if grew then
    return (⟨self.coded_chunks ++ [coded],echelon⟩,true)
  else
    return ({ self with echelon := echelon },false)

def decode (self : BlockDecoder F N) : Rust (List (Chunk F)) := do
  require (self.is_complete = true) s!"cannot decode: need N={N} independent chunks"
  let inv ← self.echelon.inverse
  let data_refs := self.coded_chunks.map (fun c => c.w.v)
  (List.range N).mapM fun i => do
    let row ← index inv i
    let recovered ← linear_combination data_refs row
    Chunk.new recovered

def reencode_with (self : BlockDecoder F N) (alphas : List F) : Rust (CodedChunk F N) := do
  require (self.coded_chunks ≠ []) "cannot reencode: no coded chunks"
  require (alphas.length = self.coded_chunks.length)
    s!"alphas length ({alphas.length}) must equal collected chunk count ({self.coded_chunks.length})"
  let data_refs := self.coded_chunks.map (fun c => c.w.v)
  let coeff_refs := self.coded_chunks.map CodedChunk.b
  let (new_data,new_coeffs) ← reencode data_refs coeff_refs alphas
  let w ← Chunk.new new_data
  CodedChunk.new w new_coeffs

end BlockDecoder

theorem Chunk.new_of {v : List F} (nonempty : v ≠ []) : Chunk.new v = .ok ⟨v,nonempty⟩ := dif_pos nonempty

theorem Chunk.new_eq_ok (v : List F) (c : Chunk F) : Chunk.new v = .ok c ↔ c.v = v := by
  unfold Chunk.new
  split
  · rename_i nonempty
    constructor
    · rintro ran; cases ran; rfl
    · rintro rfl; rfl
  · rename_i empty
    constructor
    · intro ran; cases ran
    · rintro rfl; exact absurd c.nonempty empty

theorem CodedChunk.new_of {w : Chunk F} {b : List F} (same : b.length = N) :
    CodedChunk.new (N := N) w b = .ok ⟨w,b,same⟩ := dif_pos same

theorem CodedChunk.new_eq_ok {w : Chunk F} {b : List F} {c : CodedChunk F N} (made : CodedChunk.new w b = .ok c) :
    c.w = w ∧ c.b = b := by
  unfold CodedChunk.new at made
  split at made
  · obtain rfl := Except.ok.inj made
    exact ⟨rfl,rfl⟩
  · cases made

/-! ### What the decoder holds -/

/-- The coefficients of a coded chunk as a vector. -/
def CodedChunk.coefficients (c : CodedChunk F N) : Fin N → F := coords N c.b

/-- The span of the coefficients of listed chunks. -/
def coefficient_span (cs : List (CodedChunk F N)) : Submodule F (Fin N → F) :=
  Submodule.span F {x | x ∈ cs.map CodedChunk.coefficients}

/-- The echelon of the decoder has taken the stored chunks, in their order. -/
def Sound (d : BlockDecoder F N) : Prop :=
  ∃ steps : List (Step F N), Tracks N d.echelon (d.coded_chunks.map CodedChunk.b) steps

/-- The data of a coded chunk is the combination of the originals with its coefficients. -/
structure Encodes (m : Nat) (originals : List (Chunk F)) (c : CodedChunk F N) : Prop where
  width : c.w.v.length = m
  combined : coords m c.w.v = comb c.b (originals.map (fun v => coords m v.v))

namespace BlockDecoder

private theorem coefficients_map (cs : List (CodedChunk F N)) :
    (cs.map CodedChunk.b).map (coords N) = cs.map CodedChunk.coefficients := by
  rw [List.map_map]; rfl

theorem sound_new : Sound (new : BlockDecoder F N) := ⟨[],tracks_new⟩

theorem sound_reset {d : BlockDecoder F N} (sound : Sound d) : d.reset = new := by
  obtain ⟨steps,tracks⟩ := sound
  have width := tracks.width
  simp only [reset,IncrementalEchelon.reset,width,new,IncrementalEchelon.new]

theorem rank_eq {d : BlockDecoder F N} (sound : Sound d) : d.rank = d.coded_chunks.length := by
  obtain ⟨steps,tracks⟩ := sound
  rw [rank,Echelon.rank_eq tracks,List.length_map]

theorem rank_le {d : BlockDecoder F N} (sound : Sound d) : d.rank ≤ N := by
  rw [rank_eq sound]
  obtain ⟨steps,tracks⟩ := sound
  simpa using accepted_le tracks

theorem is_complete_iff {d : BlockDecoder F N} (sound : Sound d) :
    d.is_complete = true ↔ d.coded_chunks.length = N := by
  obtain ⟨steps,tracks⟩ := sound
  rw [is_complete,is_full_iff tracks,List.length_map]

theorem complete_iff_spans {d : BlockDecoder F N} (sound : Sound d) :
    d.is_complete = true ↔ coefficient_span d.coded_chunks = ⊤ := by
  obtain ⟨steps,tracks⟩ := sound
  rw [is_complete,full_iff_spans tracks,coefficients_map]
  rfl

theorem innovative {d : BlockDecoder F N} (sound : Sound d) :
    Innovative (F := F) (d.coded_chunks.map CodedChunk.coefficients) := by
  obtain ⟨steps,tracks⟩ := sound
  rw [← coefficients_map]
  exact tracks.innovative

/-- A chunk is stored exactly when its coefficients are outside the span of the stored ones. -/
theorem add_spec {d : BlockDecoder F N} (sound : Sound d) (c : CodedChunk F N) :
    (c.coefficients ∈ coefficient_span d.coded_chunks ∧ d.add c = .ok (d,false)) ∨
    (c.coefficients ∉ coefficient_span d.coded_chunks ∧ d.is_complete = false ∧
      ∃ d', d.add c = .ok (d',true) ∧ Sound d' ∧ d'.coded_chunks = d.coded_chunks ++ [c]) := by
  cases full : d.echelon.is_full with
  | true =>
    left
    have all := (complete_iff_spans sound).mp full
    exact ⟨all ▸ Submodule.mem_top,by simp [add,full]⟩
  | false =>
    obtain ⟨steps,tracks⟩ := sound
    rcases add_row_spec tracks full c.b_length with ⟨member,ran⟩ | ⟨fresh,e',step,ran,tracks'⟩
    · left
      rw [coefficients_map] at member
      exact ⟨member,by simp [add,full,ran]⟩
    · right
      rw [coefficients_map] at fresh
      refine ⟨fresh,full,⟨d.coded_chunks ++ [c],e'⟩,by simp [add,full,ran],⟨steps ++ [step],?_⟩,rfl⟩
      simpa using tracks'

/-- Whatever the decoder holds, it takes the chunk or stays as it was. -/
theorem add_cases {d d' : BlockDecoder F N} {c : CodedChunk F N} {grew : Bool} (ran : d.add c = .ok (d',grew)) :
    grew = false ∧ d' = d ∨ grew = true ∧ d'.coded_chunks = d.coded_chunks ++ [c] ∧ d'.rank = d.rank + 1 := by
  rw [add] at ran
  split at ran
  · obtain ⟨rfl,rfl⟩ := ok_pair ran
    exact .inl ⟨rfl,rfl⟩
  · rw [bind_ok] at ran
    obtain ⟨⟨e',taken⟩,row,ran⟩ := ran
    rcases add_row_cases row with ⟨rfl,rfl⟩ | ⟨rfl,longer⟩
    · obtain ⟨rfl,rfl⟩ := ok_pair ran
      exact .inl ⟨rfl,rfl⟩
    · obtain ⟨rfl,rfl⟩ := ok_pair ran
      exact .inr ⟨rfl,rfl,longer⟩

/-- Add the chunks one after the other. -/
def add_all (d : BlockDecoder F N) (received : List (CodedChunk F N)) : Rust (BlockDecoder F N) :=
  received.foldlM (fun d c => do let (d,_) ← d.add c; return d) d

/-- Adding a whole sequence stores some of it, with the same span. -/
theorem add_all_spec (received : List (CodedChunk F N)) :
    ∃ d : BlockDecoder F N, new.add_all received = .ok d ∧ Sound d ∧ d.coded_chunks.Sublist received ∧
      coefficient_span d.coded_chunks = coefficient_span received := by
  apply fold_keeps _ (fun passed (d : BlockDecoder F N) => Sound d ∧ d.coded_chunks.Sublist passed ∧
    coefficient_span d.coded_chunks = coefficient_span passed) received
  · exact ⟨sound_new,List.Sublist.refl _,rfl⟩
  · rintro before c after d _ ⟨sound,stored,same⟩
    rcases add_spec sound c with ⟨member,ran⟩ | ⟨_,_,d',ran,sound',grown⟩
    · refine ⟨d,by rw [ran]; rfl,sound,stored.trans (List.sublist_append_left _ _),?_⟩
      rw [same] at member ⊢
      rw [coefficient_span,coefficient_span,List.map_append,List.map_singleton]
      exact (span_snoc_of_mem member).symm
    · refine ⟨d',by rw [ran]; rfl,sound',?_,?_⟩
      · rw [grown]
        exact stored.append (List.Sublist.refl [c])
      · rw [coefficient_span] at same
        rw [grown,coefficient_span,coefficient_span,List.map_append,List.map_append,List.map_singleton,span_snoc,
          span_snoc,same]
        rfl

/-! ### Decoding -/

/-- A complete decoder returns `N` chunks, and chunk `c` combines the stored data by a
    list that combines the stored coefficients into the unit vector at `c`. -/
theorem decode_runs {d : BlockDecoder F N} (sound : Sound d) (complete : d.is_complete = true)
    (wide : ∀ c ∈ d.coded_chunks, c.w.v.length = m) :
    ∃ chunks, d.decode = .ok chunks ∧
      List.Forall₂ (fun (c : Nat) (chunk : Chunk F) => chunk.v.length = m ∧ ∀ inside : c < N, ∃ row : List F,
        comb row (d.coded_chunks.map CodedChunk.coefficients) = Pi.single ⟨c,inside⟩ 1 ∧
        coords m chunk.v = comb row (d.coded_chunks.map (fun c => coords m c.w.v))) (List.range N) chunks := by
  have count := (is_complete_iff sound).mp complete
  obtain ⟨steps,tracks⟩ := sound
  obtain ⟨inv,inverted,_,rows⟩ := inverse_spec tracks complete
  let recover : Nat → Rust (Chunk F) := fun i => do
    let row ← index inv i
    let recovered ← linear_combination (d.coded_chunks.map (fun c => c.w.v)) row
    Chunk.new recovered
  have unfolded : d.decode = (List.range N).mapM recover := by
    simp only [decode,require_of complete,ok_bind,inverted,recover]
  rw [unfolded]
  apply map_keeps
  intro i member
  have inside : i < N := List.mem_range.mp member
  obtain ⟨row,found,long,unit⟩ := rows ⟨i,inside⟩
  rw [coefficients_map] at unit
  have some_stored : d.coded_chunks ≠ [] := by
    intro empty
    rw [empty,List.length_nil] at count
    omega
  obtain ⟨recovered,ran,width,value⟩ := linear_combination_spec m
    (d.coded_chunks.map (fun c => c.w.v)) row (by simpa using some_stored)
    (by rw [List.length_map,count,long]) (by
      intro v listed
      obtain ⟨c,stored,rfl⟩ := List.mem_map.mp listed
      exact wide c stored)
  have nonempty : recovered ≠ [] := by
    obtain ⟨c,stored⟩ := List.exists_mem_of_ne_nil _ some_stored
    have positive := List.length_pos_of_ne_nil c.w.nonempty
    rw [wide c stored] at positive
    exact List.ne_nil_of_length_pos (width ▸ positive)
  refine ⟨⟨recovered,nonempty⟩,?_,width,fun _ => ⟨row,unit,?_⟩⟩
  · simp only [recover,index_of found,ok_bind,ran,Chunk.new_of nonempty]
  · rw [value,List.map_map]; rfl

/-- A complete decoder returns chunks that its coded chunks encode. -/
theorem decode_encodes {d : BlockDecoder F N} (sound : Sound d) (complete : d.is_complete = true)
    (wide : ∀ c ∈ d.coded_chunks, c.w.v.length = m) :
    ∃ chunks, d.decode = .ok chunks ∧ chunks.length = N ∧ (∀ v ∈ chunks, v.v.length = m) ∧
      ∀ c ∈ d.coded_chunks, Encodes m chunks c := by
  have count := (is_complete_iff sound).mp complete
  obtain ⟨chunks,ran,each⟩ := decode_runs sound complete wide
  have long : chunks.length = N := by simpa using each.length_eq.symm
  have rows : ∀ i : Fin N, chunks[i.val].v.length = m ∧ ∃ row : List F,
      comb row (d.coded_chunks.map CodedChunk.coefficients) = Pi.single i 1 ∧
      coords m chunks[i.val].v = comb row (d.coded_chunks.map (fun c => coords m c.w.v)) := by
    intro i
    obtain ⟨width,recovered⟩ := (List.forall₂_iff_get.mp each).2 i.val (by simp) (by omega)
    simp only [List.get_eq_getElem,List.getElem_range] at width recovered
    exact ⟨width,recovered i.isLt⟩
  choose widths row unit value using rows
  -- the rows invert the stored coefficients from the right, hence from the left
  let gather : (Fin N → F) →ₗ[F] (Fin N → F) := weigh N (d.coded_chunks.map CodedChunk.coefficients)
  let mix : (Fin N → F) →ₗ[F] (Fin m → F) := weigh N (d.coded_chunks.map (fun c => coords m c.w.v))
  let solve : (Fin N → F) →ₗ[F] (Fin N → F) := Fintype.linearCombination F (fun i => coords N (row i))
  have right : gather ∘ₗ solve = LinearMap.id := by
    refine LinearMap.pi_ext' fun i => LinearMap.ext_ring ?_
    have known := unit i
    rw [comb_eq_weigh (n := N) _ (by rw [List.length_map,count])] at known
    simpa [gather,solve,Fintype.linearCombination_apply] using known
  have left : solve ∘ₗ gather = LinearMap.id := (LinearMap.comp_eq_id_comm F (Fin N → F)).mp right
  have originals : weigh N (chunks.map (fun v => coords m v.v)) = mix ∘ₗ solve := by
    refine LinearMap.pi_ext' fun i => LinearMap.ext_ring ?_
    have known := value i
    rw [comb_eq_weigh (n := N) _ (by rw [List.length_map,count])] at known
    simpa [mix,solve,weigh,Fintype.linearCombination_apply,List.getD_eq_getElem?_getD,long] using known
  refine ⟨chunks,ran,long,?_,?_⟩
  · intro v member
    obtain ⟨i,inside,rfl⟩ := List.mem_iff_getElem.mp member
    exact widths ⟨i,by omega⟩
  · intro c member
    refine ⟨wide c member,?_⟩
    obtain ⟨i,inside,rfl⟩ := List.mem_iff_getElem.mp member
    rw [comb_eq_weigh (n := N) _ (by rw [List.length_map,long]),originals]
    have at_unit : gather (Pi.single ⟨i,by omega⟩ 1) = d.coded_chunks[i].coefficients := by
      simp [gather,weigh,Fintype.linearCombination_apply,List.getD_eq_getElem?_getD,inside]
    have solved := LinearMap.congr_fun left (Pi.single ⟨i,by omega⟩ 1)
    rw [LinearMap.comp_apply,at_unit] at solved
    change _ = mix (solve d.coded_chunks[i].coefficients)
    rw [solved]
    simp [mix,weigh,Fintype.linearCombination_apply,List.getD_eq_getElem?_getD,inside]

/-- A complete decoder whose chunks encode the originals returns them, in their order. -/
theorem decode_encoded {d : BlockDecoder F N} (sound : Sound d) (complete : d.is_complete = true)
    {originals : List (Chunk F)} (count : originals.length = N) (sizes : ∀ v ∈ originals, v.v.length = m)
    (encoded : ∀ c ∈ d.coded_chunks, Encodes m originals c) : d.decode = .ok originals := by
  obtain ⟨chunks,ran,each⟩ := decode_runs sound complete (m := m) (fun c stored => (encoded c stored).width)
  have long : chunks.length = N := by simpa using each.length_eq.symm
  rw [ran]
  congr 1
  apply List.ext_getElem (long.trans count.symm)
  intro c small small'
  have inside : c < N := by omega
  obtain ⟨width,recovered⟩ := List.forall₂_iff_get.mp each |>.2 c (by simpa using inside) small
  simp only [List.get_eq_getElem,List.getElem_range] at width recovered
  obtain ⟨row,unit,value⟩ := recovered inside
  -- the row turns the stored data into the originals at the unit vector
  have data : d.coded_chunks.map (fun c => coords m c.w.v) =
      (d.coded_chunks.map CodedChunk.b).map (fun b => comb b (originals.map (fun v => coords m v.v))) := by
    rw [List.map_map]
    apply List.map_congr_left
    intro c stored
    exact (encoded c stored).combined
  have same : coords m chunks[c].v = coords m originals[c].v := by
    rw [value,data,comb_comb_eq row _ _ ((List.replicate N (0 : F)).set c 1),comb_unit N c _ (by simpa using small') inside]
    · simp
    · rw [List.length_map,count,coords_unit N ⟨c,inside⟩,coefficients_map,unit]
  have vectors : chunks[c].v = originals[c].v :=
    coords_injective width (sizes _ (List.getElem_mem small')) same
  cases left : chunks[c]
  cases right : originals[c]
  simpa [left,right] using vectors

/-- Coded chunks whose coefficients span everything encode at most one list of originals. -/
theorem encodes_unique {cs : List (CodedChunk F N)} (spans : coefficient_span cs = ⊤) {left right : List (Chunk F)}
    (counts : left.length = N ∧ right.length = N) (sizes : (∀ v ∈ left, v.v.length = m) ∧ ∀ v ∈ right, v.v.length = m)
    (encoded : ∀ c ∈ cs, Encodes m left c ∧ Encodes m right c) : left = right := by
  have same : (weigh N (left.map (fun v => coords m v.v)) : (Fin N → F) →ₗ[F] (Fin m → F)) =
      weigh N (right.map (fun v => coords m v.v)) := by
    refine LinearMap.ext_on spans ?_
    rintro x listed
    obtain ⟨c,member,rfl⟩ := List.mem_map.mp listed
    obtain ⟨first,second⟩ := encoded c member
    have agree := first.combined.symm.trans second.combined
    rwa [comb_eq_weigh (n := N) _ (by simp [counts.1]),comb_eq_weigh (n := N) _ (by simp [counts.2])] at agree
  apply List.ext_getElem (counts.1.trans counts.2.symm)
  intro i inside inside'
  have entry := LinearMap.congr_fun same (Pi.single ⟨i,by omega⟩ 1)
  simp only [weigh,Fintype.linearCombination_apply_single,one_smul,List.getD_eq_getElem?_getD,List.getElem?_map,
    List.getElem?_eq_getElem inside,List.getElem?_eq_getElem inside',Option.map_some,Option.getD_some] at entry
  have vectors : left[i].v = right[i].v :=
    coords_injective (sizes.1 _ (List.getElem_mem inside)) (sizes.2 _ (List.getElem_mem inside')) entry
  cases first : left[i]
  cases second : right[i]
  simpa [first,second] using vectors

/-- Whatever sequence of encoded chunks is added, the decoder is complete exactly
    when their coefficients span everything, and then decodes to the originals. -/
theorem decoder_recovers (originals : List (Chunk F)) (count : originals.length = N)
    (sizes : ∀ v ∈ originals, v.v.length = m) (received : List (CodedChunk F N))
    (encoded : ∀ c ∈ received, Encodes m originals c) :
    ∃ d : BlockDecoder F N, new.add_all received = .ok d ∧
      (d.is_complete = true ↔ coefficient_span received = ⊤) ∧
      (d.is_complete = true → d.decode = .ok originals) := by
  obtain ⟨d,ran,sound,stored,same⟩ := add_all_spec received
  refine ⟨d,ran,?_,fun complete => ?_⟩
  · rw [complete_iff_spans sound,same]
  · exact decode_encoded sound complete count sizes (fun c member => encoded c (stored.subset member))

/-- Two chunks of rationals, recovered from a redundant sequence in another order. -/
theorem decoder_recovers_pair :
    ∃ d : BlockDecoder ℚ 2, new.add_all [⟨⟨[3,4],by simp⟩,[0,1],rfl⟩,⟨⟨[6,8],by simp⟩,[0,2],rfl⟩,
        ⟨⟨[4,6],by simp⟩,[1,1],rfl⟩] = .ok d ∧
      (d.is_complete = true ↔ coefficient_span [(⟨⟨[3,4],by simp⟩,[0,1],rfl⟩ : CodedChunk ℚ 2),
        ⟨⟨[6,8],by simp⟩,[0,2],rfl⟩,⟨⟨[4,6],by simp⟩,[1,1],rfl⟩] = ⊤) ∧
      (d.is_complete = true → d.decode = .ok [⟨[1,2],by simp⟩,⟨[3,4],by simp⟩]) := by
  apply decoder_recovers (m := 2) [⟨[1,2],by simp⟩,⟨[3,4],by simp⟩] rfl (by simp)
  intro c member
  simp only [List.mem_cons,List.not_mem_nil,or_false] at member
  rcases member with rfl | rfl | rfl
  all_goals
    refine ⟨rfl,?_⟩
    funext i
    fin_cases i <;> norm_num [comb,coords]

/-! ### Re-encoding -/

/-- Re-encoding mixes data and coefficients alike. -/
theorem reencode_with_spec (d : BlockDecoder F N) (alphas : List F) (some_stored : d.coded_chunks ≠ [])
    (same : alphas.length = d.coded_chunks.length) (wide : ∀ c ∈ d.coded_chunks, c.w.v.length = m) :
    ∃ c, d.reencode_with alphas = .ok c ∧ c.w.v.length = m ∧
      coords m c.w.v = comb alphas (d.coded_chunks.map (fun c => coords m c.w.v)) ∧
      c.coefficients = comb alphas (d.coded_chunks.map CodedChunk.coefficients) := by
  obtain ⟨new_data,ran,width,value⟩ := linear_combination_spec m
    (d.coded_chunks.map (fun c => c.w.v)) alphas (by simpa using some_stored)
    (by rw [List.length_map,same]) (by
      intro v listed
      obtain ⟨c,stored,rfl⟩ := List.mem_map.mp listed
      exact wide c stored)
  obtain ⟨new_coeffs,ran',width',value'⟩ := linear_combination_spec N
    (d.coded_chunks.map CodedChunk.b) alphas (by simpa using some_stored)
    (by rw [List.length_map,same]) (by
      intro v listed
      obtain ⟨c,_,rfl⟩ := List.mem_map.mp listed
      exact c.b_length)
  have nonempty : new_data ≠ [] := by
    obtain ⟨c,stored⟩ := List.exists_mem_of_ne_nil _ some_stored
    have positive := List.length_pos_of_ne_nil c.w.nonempty
    rw [wide c stored] at positive
    exact List.ne_nil_of_length_pos (width ▸ positive)
  refine ⟨⟨⟨new_data,nonempty⟩,new_coeffs,width'⟩,?_,width,?_,?_⟩
  · simp only [reencode_with,require_of some_stored,require_of same,ok_bind,reencode,ran,ran',Chunk.new_of nonempty,
      CodedChunk.new_of width',pure_eq]
  · rw [value,List.map_map]; rfl
  · rw [← coefficients_map]; exact value'

theorem reencode_with_width {d : BlockDecoder F N} {alphas : List F} {c : CodedChunk F N}
    (wide : ∀ c ∈ d.coded_chunks, c.w.v.length = m) (ran : d.reencode_with alphas = .ok c) : c.w.v.length = m := by
  have checked := ran
  simp only [reencode_with,bind_ok,require_eq_ok] at checked
  obtain ⟨_,some_stored,_,same,_⟩ := checked
  obtain ⟨c',ran',width,_⟩ := reencode_with_spec d alphas some_stored same wide
  obtain rfl := Except.ok.inj (ran.symm.trans ran')
  exact width

/-- A mixture of chunks that encode the originals encodes them. -/
theorem reencode_encodes (d : BlockDecoder F N) (alphas : List F) (some_stored : d.coded_chunks ≠ [])
    (same : alphas.length = d.coded_chunks.length) {originals : List (Chunk F)} (count : originals.length = N)
    (encoded : ∀ c ∈ d.coded_chunks, Encodes m originals c) :
    ∃ c, d.reencode_with alphas = .ok c ∧ Encodes m originals c := by
  obtain ⟨c,ran,wide,data,coefficients⟩ := reencode_with_spec d alphas some_stored same
    (fun c stored => (encoded c stored).width)
  refine ⟨c,ran,wide,?_⟩
  have stored : d.coded_chunks.map (fun c => coords m c.w.v) =
      (d.coded_chunks.map CodedChunk.b).map (fun b => comb b (originals.map (fun v => coords m v.v))) := by
    rw [List.map_map]
    apply List.map_congr_left
    intro c stored
    exact (encoded c stored).combined
  rw [data,stored]
  apply comb_comb_eq
  rw [List.length_map,count,coefficients_map]
  exact coefficients

end BlockDecoder

end

end Rlnc.Coding
