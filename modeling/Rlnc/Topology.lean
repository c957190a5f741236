import Rlnc.Draws

/-!
The random mesh of the simulator. Each node has a list of outgoing peers: first a
random path through all nodes is laid, then each list is filled up to the degree
with peers that are not in it. All peers are nodes of the mesh (`random_mesh_peers`).
-/
namespace Rlnc
open Rlnc.Panics Rlnc.Draws

abbrev Topology.NodeId := Nat

structure Topology where
  neighbors : List (List Topology.NodeId)
  degree : Nat

namespace Topology

section
variable {α : Type}

/-- `slice::swap` -/
def swap (xs : List α) (i j : Nat) : List α := (xs.toArray.swapIfInBounds i j).toList

/-- Swap position `last` with a random one up to it, then so the `count` positions below. -/
def swap_down (xs : List α) : Nat → Nat → Rng → List α × Rng
  | 0, _, rng => (xs,rng)
  | count + 1, last, rng => swap_down (swap xs last (rng.head % (last + 1))) count (last - 1) rng.tail

/-- `partial_shuffle`: the last `amount` positions are drawn from the whole slice. -/
def partial_shuffle (xs : List α) (amount : Nat) (rng : Rng) : List α × Rng :=
  swap_down xs (min amount xs.length) (xs.length - 1) rng

theorem swap_perm (xs : List α) (i j : Nat) : (swap xs i j).Perm xs := by
  rw [swap,Array.swapIfInBounds_def]
  split
  · split
    · exact (Array.swap_perm _ _).toList
    · exact List.Perm.refl _
  · exact List.Perm.refl _

theorem partial_shuffle_perm (xs : List α) (amount : Nat) (rng : Rng) : (partial_shuffle xs amount rng).1.Perm xs := by
  have down : ∀ (count last : Nat) (ys : List α) (rng : Rng), (swap_down ys count last rng).1.Perm ys := by
    intro count
    induction count with
    | zero => exact fun _ ys _ => List.Perm.refl ys
    | succ count ih => exact fun last ys rng => (ih _ _ _).trans (swap_perm ys _ _)
  exact down _ _ xs rng

end

section
variable [SliceRandom]

/-- `0 → p[0] → p[1] → ...` over a random order of the other nodes. -/
def lay_path (num_nodes : Nat) (rng : Rng) : Rust (List (List NodeId) × Rng) := do
  let neighbors := List.replicate num_nodes []
  if num_nodes > 1 then
    let perm := SliceRandom.shuffle rng.head (List.range' 1 (num_nodes - 1))
    let first ← index perm 0
    let neighbors ← push_at neighbors 0 first
    let neighbors ← (List.range (perm.length - 1)).foldlM (fun neighbors i => do
      let node ← index perm i
      let peer ← index perm (i + 1)
      push_at neighbors node peer) neighbors
    return (neighbors,rng.tail)
  else
    return (neighbors,rng)

/-- Fill the peers of a node up to the degree. -/
def fill_peers (num_nodes degree : Nat) (peers : List NodeId) (node : NodeId) (rng : Rng) :
    Rust (List NodeId × Rng) := do
  let remaining ← checked_sub degree peers.length
  if remaining = 0 then
    return (peers,rng)
  let candidates := (List.range node ++ List.range' (node + 1) (num_nodes - (node + 1))).filter (fun p => !peers.contains p)
  let (candidates,rng) := partial_shuffle candidates remaining rng
  let chosen ← slice_to candidates remaining
  return (peers ++ chosen,rng)

/-- A mesh in which each node has `degree` outgoing peers. -/
def random_mesh (num_nodes degree : Nat) (rng : Rng) : Rust (Topology × Rng) := do
  require (degree < num_nodes) s!"degree ({degree}) must be < num_nodes ({num_nodes})"
  let (neighbors,rng) ← lay_path num_nodes rng
  let (neighbors,rng) ← neighbors.zipIdx.foldlM (fun (filled,rng) (peers,node) => do
    let (peers,rng) ← fill_peers num_nodes degree peers node rng
    return (filled ++ [peers],rng)) (([] : List (List NodeId)),rng)
  return (⟨neighbors,degree⟩,rng)

/-! ### The peers are nodes -/

omit [SliceRandom]

/-- Lists of nodes below a bound. -/
def Below (num_nodes : Nat) (neighbors : List (List Nat)) : Prop := ∀ peers ∈ neighbors, ∀ p ∈ peers, p < num_nodes

theorem Below.push {num_nodes : Nat} {neighbors pushed : List (List Nat)} (below : Below num_nodes neighbors)
    {i p : Nat} (small : p < num_nodes) (ran : push_at neighbors i p = .ok pushed) :
    Below num_nodes pushed ∧ pushed.length = neighbors.length := by
  obtain ⟨xs,found,rfl⟩ := (push_at_eq_ok _ _ _ _).mp ran
  refine ⟨?_,List.length_set⟩
  intro peers member q inside
  rcases List.mem_or_eq_of_mem_set member with old | rfl
  · exact below peers old q inside
  · rcases List.mem_append.mp inside with old | new
    · exact below xs (List.mem_of_getElem? found) q old
    · rw [List.mem_singleton.mp new]
      exact small

theorem lay_path_below [SliceRandom] [LawfulSliceRandom] {num_nodes : Nat} {rng rest : Rng} {neighbors : List (List Nat)}
    (ran : lay_path num_nodes rng = .ok (neighbors,rest)) : Below num_nodes neighbors ∧ neighbors.length = num_nodes := by
  have start : Below num_nodes (List.replicate num_nodes []) ∧ (List.replicate num_nodes ([] : List Nat)).length = num_nodes := by
    refine ⟨?_,List.length_replicate⟩
    intro peers member p inside
    rw [List.eq_of_mem_replicate member] at inside
    cases inside
  unfold lay_path at ran
  split at ran
  · simp only [bind_ok,pure_eq,Except.ok.injEq,Prod.mk.injEq] at ran
    obtain ⟨first,atFirst,pushed,begun,path,laid,rfl,_⟩ := ran
    have shuffled : ∀ p ∈ SliceRandom.shuffle rng.head (List.range' 1 (num_nodes - 1)), p < num_nodes := by
      intro p member
      have listed := (LawfulSliceRandom.perm _ _).mem_iff.mp member
      rw [List.mem_range'_1] at listed
      omega
    have placed : ∀ {i p : Nat},
        index (SliceRandom.shuffle rng.head (List.range' 1 (num_nodes - 1))) i = .ok p → p < num_nodes := by
      intro i p found
      rw [index_eq_ok] at found
      exact shuffled p (List.mem_of_getElem? found)
    obtain ⟨below,long⟩ := start.1.push (placed atFirst) begun
    refine fold_kept (fun _ ns => Below num_nodes ns ∧ ns.length = num_nodes) laid ⟨below,long.trans start.2⟩ ?_
    rintro _ i _ before after _ ⟨below,long⟩ step
    simp only [bind_ok] at step
    obtain ⟨node,_,peer,atPeer,pushed⟩ := step
    obtain ⟨below',long'⟩ := below.push (placed atPeer) pushed
    exact ⟨below',long'.trans long⟩
  · simp only [pure_eq,Except.ok.injEq,Prod.mk.injEq] at ran
    rw [← ran.1]
    exact start

theorem fill_peers_below {num_nodes degree node : Nat} {peers filled : List Nat} {rng rest : Rng}
    (inside : node < num_nodes) (below : ∀ p ∈ peers, p < num_nodes)
    (ran : fill_peers num_nodes degree peers node rng = .ok (filled,rest)) : ∀ p ∈ filled, p < num_nodes := by
  simp only [fill_peers,bind_ok] at ran
  obtain ⟨remaining,_,ran⟩ := ran
  split at ran
  · cases ran
    exact below
  · simp only [bind_ok,slice_to_eq_ok,pure_eq,Except.ok.injEq,Prod.mk.injEq] at ran
    obtain ⟨chosen,⟨_,rfl⟩,rfl,_⟩ := ran
    intro p member
    rcases List.mem_append.mp member with old | new
    · exact below p old
    · have candidate := (partial_shuffle_perm _ _ _).mem_iff.mp (List.mem_of_mem_take new)
      have listed := (List.mem_filter.mp candidate).1
      rw [List.mem_append,List.mem_range,List.mem_range'_1] at listed
      omega

/-- A mesh has a list of peers for each node, and all of them are nodes. -/
theorem random_mesh_peers [SliceRandom] [LawfulSliceRandom] {num_nodes degree : Nat} {rng rest : Rng} {topo : Topology}
    (ran : random_mesh num_nodes degree rng = .ok (topo,rest)) :
    0 < num_nodes ∧ topo.neighbors.length = num_nodes ∧ Below num_nodes topo.neighbors := by
  simp only [random_mesh,bind_ok,require_eq_ok] at ran
  obtain ⟨_,small,⟨laid,rng'⟩,path,⟨filled,rng''⟩,filling,made⟩ := ran
  obtain ⟨below,long⟩ := lay_path_below path
  cases made
  have kept := fold_kept (fun passed (state : List (List Nat) × Rng) =>
    state.1.length = passed.length ∧ Below num_nodes state.1) filling ⟨rfl,by simp [Below]⟩ (by
      rintro before ⟨peers,node⟩ after ⟨done,rng⟩ state split ⟨count,fine⟩ step
      simp only [bind_ok,pure_eq,Except.ok.injEq] at step
      obtain ⟨⟨more,rng'⟩,run,rfl⟩ := step
      have listed : (peers,node) ∈ laid.zipIdx := by rw [split]; simp
      obtain ⟨inside,here⟩ := List.mem_zipIdx' listed
      refine ⟨by simp [count],?_⟩
      intro qs member
      rcases List.mem_append.mp member with old | new
      · exact fine qs old
      · rw [List.mem_singleton.mp new]
        exact fill_peers_below (by omega) (below peers (by rw [here]; exact List.getElem_mem _)) run)
  obtain ⟨count,fine⟩ := kept
  exact ⟨by omega,by rw [count,List.length_zipIdx,long],fine⟩

end

end Topology

end Rlnc
