import Rlnc.Mesh

/-!
How peers are drawn. A partial shuffle leaves its sample in the last positions of the
candidates, and the peers are read from the first ones. Counted over all draws, each
candidate is then read equally often only if the positions that are read and the sample
cover the candidates, so that what is read is the complement of a smaller sample
(`drawn_evenly_iff`).
-/
namespace Rlnc.Sampling
open Rlnc.Panics Rlnc.Draws Rlnc.Topology Rlnc.Mesh
set_option linter.unusedSectionVars false

/-! ### Draw sequences -/

/-- All sequences of indices that can be drawn for `count` positions from `last` down. -/
def draws : Nat → Nat → List (List Nat)
  | 0, _ => [[]]
  | count + 1, last => (List.range (last + 1)).flatMap fun g => (draws count (last - 1)).map (g :: ·)

theorem mem_draws_succ {count last : Nat} {ds : List Nat} :
    ds ∈ draws (count + 1) last ↔ ∃ g ≤ last, ∃ gs ∈ draws count (last - 1), ds = g :: gs := by
  simp only [draws,List.mem_flatMap,List.mem_range,List.mem_map,Nat.lt_succ_iff,eq_comm]

section
variable {α : Type}

/-- The swaps of a sequence of drawn indices. -/
def swap_all (xs : List α) (last : Nat) : List Nat → List α
  | [] => xs
  | g :: gs => swap_all (swap xs last g) (last - 1) gs

/-- A shuffle with these outcomes makes these swaps. -/
theorem swap_down_draws {count last : Nat} {ds : List Nat} (drawn : ds ∈ draws count last) (xs : List α) (rng : Rng) :
    swap_down xs count last (ds ++ₛ rng) = (swap_all xs last ds,rng) := by
  induction count generalizing last ds xs with
  | zero =>
    obtain rfl : ds = [] := by simpa [draws] using drawn
    rfl
  | succ count ih =>
    obtain ⟨g,small,gs,rest,rfl⟩ := mem_draws_succ.mp drawn
    simp only [swap_down,Stream'.cons_append_stream,Stream'.head_cons,Stream'.tail_cons]
    rw [Nat.mod_eq_of_lt (by omega)]
    exact ih rest _

theorem swap_get {xs : List α} {i j : Nat} (hi : i < xs.length) (hj : j < xs.length) (k : Nat) :
    (swap xs i j)[k]? = if j = k then xs[i]? else if i = k then xs[j]? else xs[k]? := by
  simp only [swap,Array.swapIfInBounds_def,List.size_toArray,hi,hj,dif_pos,Array.getElem?_toList,Array.getElem?_swap,
    List.getElem_toArray,List.getElem?_toArray,List.getElem?_eq_getElem]

theorem swap_length (xs : List α) (i j : Nat) : (swap xs i j).length = xs.length := (swap_perm xs i j).length_eq

theorem swap_all_perm (xs : List α) (last : Nat) (ds : List Nat) : (swap_all xs last ds).Perm xs := by
  induction ds generalizing xs last with
  | nil => exact List.Perm.refl xs
  | cons g gs ih => exact (ih _ _).trans (swap_perm xs last g)

/-- Positions above those that are drawn for stay as they are. -/
theorem swap_all_above {count last : Nat} {ds : List Nat} (drawn : ds ∈ draws count last) {xs : List α}
    (room : last < xs.length) {i : Nat} (above : last < i ∨ count = 0) : (swap_all xs last ds)[i]? = xs[i]? := by
  induction count generalizing last ds xs with
  | zero =>
    obtain rfl : ds = [] := by simpa [draws] using drawn
    rfl
  | succ count ih =>
    obtain ⟨g,small,gs,rest,rfl⟩ := mem_draws_succ.mp drawn
    rw [swap_all,ih rest (by rw [swap_length]; omega) (.inl (by omega)),swap_get room (by omega),if_neg (by omega),
      if_neg (by omega)]

/-! ### Even draws -/

/-- In how many sequences for `count` positions an element ends in one of the `top` last positions. -/
def chances : Nat → Nat → Nat → Nat
  | count + 1, last, top + 1 => (draws count (last - 1)).length + last * chances count (last - 1) top
  | _, _, _ => 0

/-- The positions `low`, ..., `high - 1`. -/
theorem mem_window {xs : List α} {low high : Nat} {x : α} :
    x ∈ (xs.take high).drop low ↔ ∃ i, low ≤ i ∧ i < high ∧ xs[i]? = some x := by
  rw [List.mem_iff_getElem?]
  constructor
  · rintro ⟨k,found⟩
    rw [List.getElem?_drop,List.getElem?_take] at found
    split at found
    · exact ⟨low + k,by omega,by omega,found⟩
    · cases found
  · rintro ⟨i,above,below,found⟩
    refine ⟨i - low,?_⟩
    rw [List.getElem?_drop,Nat.add_sub_cancel' above,List.getElem?_take,if_pos below,found]

theorem mem_first {xs : List α} {high : Nat} {x : α} : x ∈ xs.take high ↔ ∃ i < high, xs[i]? = some x := by
  have window : x ∈ (xs.take high).drop 0 ↔ _ := mem_window
  simpa using window

/-- The element ends in one of the `top` positions up to `last`. -/
def lands [DecidableEq α] (xs : List α) (last top : Nat) (x : α) (ds : List Nat) : Bool :=
  decide (x ∈ ((swap_all xs last ds).take (last + 1)).drop (last + 1 - top))

theorem lands_iff [DecidableEq α] {xs : List α} {last top : Nat} {x : α} {ds : List Nat} :
    lands xs last top x ds = true ↔ ∃ i, last < i + top ∧ i ≤ last ∧ (swap_all xs last ds)[i]? = some x := by
  rw [lands,decide_eq_true_eq,mem_window]
  constructor
  · rintro ⟨i,above,below,found⟩
    exact ⟨i,by omega,by omega,found⟩
  · rintro ⟨i,above,below,found⟩
    exact ⟨i,by omega,by omega,found⟩

/-- A sum over `0..n` of which one term differs. -/
theorem sum_one (n p a b : Nat) (inside : p ≤ n) :
    ((List.range (n + 1)).map (fun g => if g = p then a else b)).sum = a + n * b := by
  have others : ∀ k, k ≤ p → ((List.range k).map (fun g => if g = p then a else b)).sum = k * b := by
    intro k
    induction k with
    | zero => simp
    | succ k ih =>
      intro below
      rw [List.range_succ,List.map_append,List.sum_append,ih (by omega),Nat.succ_mul]
      simp [show k ≠ p by omega]
  induction n with
  | zero =>
    obtain rfl : p = 0 := by omega
    simp
  | succ n ih =>
    rw [List.range_succ,List.map_append,List.sum_append]
    rcases Nat.lt_or_ge n p with new | old
    · obtain rfl : p = n + 1 := by omega
      rw [others (n + 1) le_rfl]
      simp
      ring
    · rw [ih old,Nat.succ_mul]
      simp [show n + 1 ≠ p by omega]
      ring

/-- The sample in the last positions is drawn evenly. -/
theorem sampled_evenly [DecidableEq α] (top : Nat) {count last : Nat} {xs : List α} (nodup : xs.Nodup) (room : last < xs.length)
    (part : top ≤ count) (small : count ≤ last + 1) {p : Nat} (inside : p ≤ last) {x : α} (here : xs[p]? = some x) :
    (draws count last).countP (lands xs last top x) = chances count last top := by
  induction top generalizing count last xs p with
  | zero =>
    rw [List.countP_eq_zero.mpr]
    · cases count <;> rfl
    · intro ds _ landed
      obtain ⟨i,above,below,_⟩ := lands_iff.mp landed
      omega
  | succ top ih =>
    obtain ⟨count,rfl⟩ : ∃ k, count = k + 1 := ⟨count - 1,by omega⟩
    rw [draws,List.countP_flatMap,chances]
    -- the draw of the position of `x` puts it in the last position, where it stays
    have each : ∀ g ∈ List.range (last + 1),
        ((draws count (last - 1)).map (g :: ·)).countP (lands xs last (top + 1) x) =
        if g = p then (draws count (last - 1)).length else chances count (last - 1) top := by
      intro g listed
      have low : g ≤ last := Nat.lt_succ_iff.mp (List.mem_range.mp listed)
      have placed : ∀ gs ∈ draws count (last - 1), (swap_all (swap xs last g) (last - 1) gs)[last]? = xs[g]? := by
        intro gs drawn
        rw [swap_all_above drawn (by rw [swap_length]; omega) (by omega),swap_get room (by omega)]
        by_cases same : g = last
        · rw [if_pos same,same]
        · rw [if_neg same,if_pos rfl]
      rw [List.countP_map]
      by_cases same : g = p
      · rw [if_pos same,List.countP_eq_length.mpr]
        intro gs drawn
        exact lands_iff.mpr ⟨last,by omega,le_rfl,(placed gs drawn).trans (same ▸ here)⟩
      · rw [if_neg same]
        have fresh : xs[g]? ≠ some x := fun found =>
          same ((List.getElem?_inj (by omega) nodup).mp (found.trans here.symm))
        have moved : ∃ q ≤ last - 1, (swap xs last g)[q]? = some x := by
          by_cases highest : p = last
          · exact ⟨g,by omega,by rw [swap_get room (by omega),if_pos rfl,← highest,here]⟩
          · exact ⟨p,by omega,by rw [swap_get room (by omega),if_neg same,if_neg (Ne.symm highest),here]⟩
        obtain ⟨q,low',here'⟩ := moved
        rw [← ih ((swap_perm xs last g).nodup_iff.mpr nodup) (by rw [swap_length]; omega) (by omega) (by omega) low' here']
        refine List.countP_congr fun gs drawn => ?_
        rw [Function.comp_apply,lands_iff,lands_iff]
        constructor
        · rintro ⟨i,above,below,found⟩
          refine ⟨i,by omega,?_,found⟩
          by_contra highest
          obtain rfl : i = last := by omega
          exact fresh (placed gs drawn ▸ found)
        · rintro ⟨i,above,below,found⟩
          exact ⟨i,by omega,by omega,found⟩
    exact (congrArg List.sum (List.map_congr_left each)).trans (sum_one last p _ _ inside)

/-- Where the sample reaches what is read, each element is read in as many sequences. -/
theorem read_evenly [DecidableEq α] {xs : List α} (nodup : xs.Nodup) {count : Nat} (some_element : 0 < xs.length)
    (small : count ≤ xs.length) (covered : xs.length ≤ 2 * count) {x : α} (member : x ∈ xs) :
    (draws count (xs.length - 1)).countP (fun ds => decide (x ∈ (swap_all xs (xs.length - 1) ds).take count)) =
      (draws count (xs.length - 1)).length - chances count (xs.length - 1) (xs.length - count) := by
  obtain ⟨p,inside,here⟩ := List.getElem_of_mem member
  have sampled := sampled_evenly (xs.length - count) nodup (by omega : xs.length - 1 < xs.length) (by omega : _ ≤ count)
    (by omega) (by omega : p ≤ xs.length - 1) ((List.getElem?_eq_getElem inside).trans (congrArg some here))
  -- what is not read is the end of the list, and lies in the sample
  have complement : ∀ ds ∈ draws count (xs.length - 1),
      decide (x ∈ (swap_all xs (xs.length - 1) ds).take count) = true ↔
        (!lands xs (xs.length - 1) (xs.length - count) x ds) = true := by
    intro ds _
    have permuted := swap_all_perm xs (xs.length - 1) ds
    have long := permuted.length_eq
    have listed : x ∈ (swap_all xs (xs.length - 1) ds).take count ++ (swap_all xs (xs.length - 1) ds).drop count := by
      rw [List.take_append_drop]
      exact permuted.mem_iff.mpr member
    have apart := List.disjoint_take_drop (permuted.nodup_iff.mpr nodup) (le_refl count)
    have read : (swap_all xs (xs.length - 1) ds).take (xs.length - 1 + 1) = swap_all xs (xs.length - 1) ds :=
      List.take_of_length_le (by omega)
    rw [decide_eq_true_eq,Bool.not_eq_true',lands,decide_eq_false_iff_not,read,
      show xs.length - 1 + 1 - (xs.length - count) = count by omega]
    constructor
    · exact fun low high => apart low high
    · exact fun not_high => (List.mem_append.mp listed).resolve_right not_high
  have total := List.length_eq_countP_add_countP (lands xs (xs.length - 1) (xs.length - count) x)
    (l := draws count (xs.length - 1))
  rw [List.countP_congr complement,← sampled,total]
  simp only [Bool.not_eq_true,Bool.decide_eq_false]
  omega

/-- An element above the first positions, that no draw is for, is never moved to them. -/
theorem never_read {count last r : Nat} {ds : List Nat} (drawn : ds ∈ draws count last) {xs : List α}
    (room : last < xs.length) (low : r + count ≤ last + 1) {x : α} (unread : x ∉ xs.take r)
    (elsewhere : ∀ i ≤ last, last < i + count → xs[i]? ≠ some x) : x ∉ (swap_all xs last ds).take r := by
  induction count generalizing last ds xs with
  | zero =>
    obtain rfl : ds = [] := by simpa [draws] using drawn
    exact unread
  | succ count ih =>
    obtain ⟨g,small,gs,rest,rfl⟩ := mem_draws_succ.mp drawn
    have outside := elsewhere last le_rfl (by omega)
    -- a swap moves to the positions below only what was in position `last`
    have moved : ∀ i < last, (swap xs last g)[i]? = some x → xs[i]? = some x := by
      intro i below found
      rw [swap_get room (by omega)] at found
      by_cases here : g = i
      · rw [if_pos here] at found
        exact absurd found outside
      · rwa [if_neg here,if_neg (by omega)] at found
    refine ih rest (by rw [swap_length]; omega) (by omega) ?_ ?_
    · intro member
      obtain ⟨i,below,found⟩ := mem_first.mp member
      exact unread (mem_first.mpr ⟨i,below,moved i (by omega) found⟩)
    · intro i upto used found
      exact elsewhere i (by omega) (by omega) (moved i (by omega) found)

/-- Some draws change nothing. -/
theorem unmoved (count last : Nat) {xs : List α} (room : last < xs.length) :
    ∃ ds ∈ draws count last, swap_all xs last ds = xs := by
  induction count generalizing last with
  | zero => exact ⟨[],by simp [draws],rfl⟩
  | succ count ih =>
    obtain ⟨gs,drawn,same⟩ := ih (last - 1) (by omega)
    have self : swap xs last last = xs := by
      apply List.ext_getElem?
      intro k
      rw [swap_get room room]
      split
      · rename_i here
        rw [here]
      · rfl
    exact ⟨last :: gs,mem_draws_succ.mpr ⟨last,le_rfl,gs,drawn,rfl⟩,by rw [swap_all,self,same]⟩

/-- If some positions are neither read nor drawn for, not all elements are read equally often. -/
theorem read_unevenly [DecidableEq α] {xs : List α} (nodup : xs.Nodup) {count : Nat} (positive : 0 < count)
    (uncovered : 2 * count < xs.length) : ∃ x ∈ xs, ∃ y ∈ xs,
      (draws count (xs.length - 1)).countP (fun ds => decide (x ∈ (swap_all xs (xs.length - 1) ds).take count)) ≠
        (draws count (xs.length - 1)).countP (fun ds => decide (y ∈ (swap_all xs (xs.length - 1) ds).take count)) := by
  have first : 0 < xs.length := by omega
  have middle : count < xs.length := by omega
  refine ⟨xs[count],List.getElem_mem middle,xs[0],List.getElem_mem first,?_⟩
  have place : ∀ i, xs[i]? = some xs[count] → i = count := fun i found =>
    ((List.getElem?_inj middle nodup).mp ((List.getElem?_eq_getElem middle).trans found.symm)).symm
  have never : (draws count (xs.length - 1)).countP
      (fun ds => decide (xs[count] ∈ (swap_all xs (xs.length - 1) ds).take count)) = 0 := by
    rw [List.countP_eq_zero]
    intro ds drawn read
    refine never_read drawn (by omega) (by omega) ?_ ?_ (of_decide_eq_true read)
    · intro member
      obtain ⟨i,below,found⟩ := mem_first.mp member
      have := place i found
      omega
    · intro i _ used found
      have := place i found
      omega
  have sometimes : 0 < (draws count (xs.length - 1)).countP
      (fun ds => decide (xs[0] ∈ (swap_all xs (xs.length - 1) ds).take count)) := by
    obtain ⟨ds,drawn,same⟩ := unmoved count (xs.length - 1) (show xs.length - 1 < xs.length by omega)
    rw [List.countP_pos_iff]
    refine ⟨ds,drawn,decide_eq_true ?_⟩
    rw [same]
    exact mem_first.mpr ⟨0,positive,List.getElem?_eq_getElem first⟩
  omega

end

/-! ### Drawing peers -/

section
variable {num_nodes degree node : Nat} {peers : List Nat}

/-- With these draws the first candidates after the swaps become peers. -/
theorem fill_peers_draws (few : peers.length ≤ degree)
    (room : degree - peers.length ≤ (candidates num_nodes node peers).length) {ds : List Nat}
    (drawn : ds ∈ draws (degree - peers.length) ((candidates num_nodes node peers).length - 1)) (rng : Rng) :
    fill_peers num_nodes degree peers node (ds ++ₛ rng) =
      .ok (peers ++ (swap_all (candidates num_nodes node peers) ((candidates num_nodes node peers).length - 1) ds).take
        (degree - peers.length),rng) := by
  have subtracted : checked_sub degree peers.length = .ok (degree - peers.length) := if_pos few
  by_cases none : degree - peers.length = 0
  · rw [none] at drawn
    obtain rfl : ds = [] := by simpa [draws] using drawn
    simp only [fill_peers,subtracted,ok_bind,none,if_true,pure_eq,List.take_zero,List.append_nil]
    rfl
  · have shuffled : partial_shuffle (candidates num_nodes node peers) (degree - peers.length) (ds ++ₛ rng) =
        (swap_all (candidates num_nodes node peers) ((candidates num_nodes node peers).length - 1) ds,rng) := by
      rw [partial_shuffle,min_eq_left room,swap_down_draws drawn]
    have enough := slice_to_of (room.trans_eq (swap_all_perm (candidates num_nodes node peers)
      ((candidates num_nodes node peers).length - 1) ds).length_eq.symm)
    simp only [candidates] at shuffled enough ⊢
    simp only [fill_peers,subtracted,ok_bind,if_neg none,shuffled,enough,pure_eq]

/-- In how many draw sequences of the node a candidate becomes a peer. -/
def appended (num_nodes degree node : Nat) (peers : List Nat) (rng : Rng) (p : Nat) : Nat :=
  (draws (degree - peers.length) ((candidates num_nodes node peers).length - 1)).countP fun ds =>
    match fill_peers num_nodes degree peers node (ds ++ₛ rng) with
    | .ok (filled,_) => decide (p ∈ filled)
    | .error _ => false

theorem appended_eq (few : peers.length ≤ degree)
    (room : degree - peers.length ≤ (candidates num_nodes node peers).length) (rng : Rng) {p : Nat} (fresh : p ∉ peers) :
    appended num_nodes degree node peers rng p =
      (draws (degree - peers.length) ((candidates num_nodes node peers).length - 1)).countP fun ds =>
        decide (p ∈ (swap_all (candidates num_nodes node peers) ((candidates num_nodes node peers).length - 1) ds).take
          (degree - peers.length)) := by
  refine List.countP_congr fun ds drawn => ?_
  rw [fill_peers_draws few room drawn]
  simp [fresh]

/-- Every candidate becomes a peer in as many draw sequences, exactly when there is nothing
    to draw, or at most twice as many candidates as peers to draw. -/
theorem drawn_evenly_iff (num_nodes degree node : Nat) (peers : List Nat) (small : degree < num_nodes)
    (inside : node < num_nodes) (proper : Peers num_nodes node peers) (few : peers.length ≤ degree) (rng : Rng) :
    (∀ p q, p < num_nodes → p ≠ node → p ∉ peers → q < num_nodes → q ≠ node → q ∉ peers →
      appended num_nodes degree node peers rng p = appended num_nodes degree node peers rng q) ↔
    degree = peers.length ∨ num_nodes - 1 - peers.length ≤ 2 * (degree - peers.length) := by
  have count : (candidates num_nodes node peers).length = num_nodes - 1 - peers.length := by
    have all := candidates_length inside proper
    omega
  have room : degree - peers.length ≤ (candidates num_nodes node peers).length := by omega
  rw [← count]
  constructor
  · intro even
    by_contra neither
    have nodup : (candidates num_nodes node peers).Nodup := candidates_nodup
    obtain ⟨x,candidate,y,candidate',differ⟩ := read_unevenly nodup (by omega : 0 < degree - peers.length) (by omega)
    obtain ⟨below,other,fresh⟩ := (mem_candidates inside x).mp candidate
    obtain ⟨below',other',fresh'⟩ := (mem_candidates inside y).mp candidate'
    apply differ
    rw [← appended_eq few room rng fresh,← appended_eq few room rng fresh']
    exact even x y below other fresh below' other' fresh'
  · intro condition p q below other fresh below' other' fresh'
    rw [appended_eq few room rng fresh,appended_eq few room rng fresh']
    rcases condition with none | covered
    · have nothing : degree - peers.length = 0 := by omega
      simp only [nothing,List.take_zero,List.not_mem_nil]
    · have candidate := (mem_candidates inside p).mpr ⟨below,other,fresh⟩
      have candidate' := (mem_candidates inside q).mpr ⟨below',other',fresh'⟩
      have positive := List.length_pos_of_mem candidate
      rw [read_evenly candidates_nodup positive room covered candidate,
        read_evenly candidates_nodup positive room covered candidate']

/-- Five nodes of degree two, and node 0 with the peer 1: of the candidates 2, 3 and 4 the
    middle one is never drawn. -/
theorem drawn_unevenly : appended 5 2 0 [1] (Stream'.const 0) 2 = 2 ∧ appended 5 2 0 [1] (Stream'.const 0) 3 = 0 ∧
    appended 5 2 0 [1] (Stream'.const 0) 4 = 1 := by decide +kernel

theorem drawn_evenly_iff_five :
    ((∀ p q, p < 5 → p ≠ 0 → p ∉ [1] → q < 5 → q ≠ 0 → q ∉ [1] →
        appended 5 2 0 [1] (Stream'.const 0) p = appended 5 2 0 [1] (Stream'.const 0) q) ↔
      2 = [1].length ∨ 5 - 1 - [1].length ≤ 2 * (2 - [1].length)) ∧
    ((∀ p q, p < 5 → p ≠ 0 → p ∉ [1] → q < 5 → q ≠ 0 → q ∉ [1] →
        appended 5 3 0 [1] (Stream'.const 0) p = appended 5 3 0 [1] (Stream'.const 0) q) ↔
      3 = [1].length ∨ 5 - 1 - [1].length ≤ 2 * (3 - [1].length)) :=
  ⟨drawn_evenly_iff 5 2 0 [1] (by decide) (by decide) ⟨by decide,by decide,by decide⟩ (by decide) _,
    drawn_evenly_iff 5 3 0 [1] (by decide) (by decide) ⟨by decide,by decide,by decide⟩ (by decide) _⟩

end

end Rlnc.Sampling
