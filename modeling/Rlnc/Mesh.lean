import Rlnc.Reference
import Rlnc.Topology
import Rlnc.Walks

/-!
The mesh that `random_mesh` builds. The first phase lays a path that leads from node 0
to every node, with at most one peer for each (`lay_path_spec`); the second adds peers
that are not there yet (`fill_peers_spec`), so that every node ends with `degree` proper
peers and the path is still there (`random_mesh_spec`). Neither phase panics when the
degree leaves room for the path (`random_mesh_returns_iff`).
-/
namespace Rlnc.Mesh
open Rlnc.Panics Rlnc.Draws Rlnc.Topology Rlnc.Walks
set_option linter.unusedSectionVars false

/-- Node `v` is a peer of node `u`. -/
def Link (neighbors : List (List Nat)) (u v : Nat) : Prop := ∃ peers, neighbors[u]? = some peers ∧ v ∈ peers

/-- Peers of a node are other nodes, each listed once. -/
structure Peers (num_nodes : Nat) (node : Nat) (peers : List Nat) : Prop where
  nodup : peers.Nodup
  below : ∀ p ∈ peers, p < num_nodes
  other : node ∉ peers

/-! ### Pushing a peer -/

section
variable {num_nodes : Nat} {neighbors : List (List Nat)} {node peer : Nat} {peers : List Nat}

/-- A new peer keeps the links that are there, and adds one. -/
theorem link_push (found : neighbors[node]? = some peers) {u v : Nat} (link : Link neighbors u v) :
    Link (neighbors.set node (peers ++ [peer])) u v := by
  obtain ⟨qs,listed,member⟩ := link
  by_cases same : u = node
  · subst same
    obtain rfl : peers = qs := Option.some.inj (found.symm.trans listed)
    exact ⟨peers ++ [peer],List.getElem?_set_self (List.getElem?_eq_some_iff.mp found).1,by simp [member]⟩
  · exact ⟨qs,(List.getElem?_set_ne (Ne.symm same)).trans listed,member⟩

theorem link_pushed (found : neighbors[node]? = some peers) : Link (neighbors.set node (peers ++ [peer])) node peer :=
  ⟨peers ++ [peer],List.getElem?_set_self (List.getElem?_eq_some_iff.mp found).1,by simp⟩

/-! ### The path -/

/-- The path is laid up to position `j` of the order: later nodes have no peers yet. -/
structure Laid (num_nodes : Nat) (perm : List Nat) (j : Nat) (neighbors : List (List Nat)) : Prop where
  count : neighbors.length = num_nodes
  proper : ∀ node peers, neighbors[node]? = some peers → Peers num_nodes node peers
  fresh : ∀ i p, j ≤ i → perm[i]? = some p → neighbors[p]? = some []
  reached : ∀ i p, i ≤ j → perm[i]? = some p → Reachable (Link neighbors) 0 p

/-- The first peer of a node that is already on the path leads the path on. -/
theorem Laid.extend {perm : List Nat} {j : Nat} (laid : Laid num_nodes perm j neighbors) (nodup : perm.Nodup)
    (below : ∀ p ∈ perm, p < num_nodes) (at_node : perm[j]? = some node) (at_peer : perm[j + 1]? = some peer) :
    Laid num_nodes perm (j + 1) (neighbors.set node [peer]) := by
  have found := laid.fresh j node le_rfl at_node
  have inside := (List.getElem?_eq_some_iff.mp found).1
  have place : ∀ {i : Nat}, perm[i]? = some node → i = j := fun listed =>
    (List.getElem?_inj (List.getElem?_eq_some_iff.mp at_node).1 nodup).mp (at_node.trans listed.symm) |>.symm
  have kept : ∀ {v : Nat}, Reachable (Link neighbors) 0 v → Reachable (Link (neighbors.set node [peer])) 0 v :=
    fun reachable => reachable.mono fun _ _ link => link_push found link
  refine ⟨List.length_set.trans laid.count,?_,?_,?_⟩
  · intro u qs listed
    by_cases same : u = node
    · subst same
      rw [List.getElem?_set_self inside] at listed
      obtain rfl := Option.some.inj listed
      refine ⟨List.nodup_singleton peer,?_,?_⟩
      · intro p member
        rw [List.mem_singleton.mp member]
        exact below peer (List.mem_of_getElem? at_peer)
      · intro member
        rw [List.mem_singleton.mp member] at place
        have := place at_peer
        omega
    · rw [List.getElem?_set_ne (Ne.symm same)] at listed
      exact laid.proper u qs listed
  · intro i p later listed
    have apart : node ≠ p := by
      rintro rfl
      have := place listed
      omega
    rw [List.getElem?_set_ne apart]
    exact laid.fresh i p (by omega) listed
  · intro i p upto listed
    rcases Nat.lt_or_ge j i with here | earlier
    · obtain rfl : i = j + 1 := by omega
      obtain rfl : peer = p := Option.some.inj (at_peer.symm.trans listed)
      exact (kept (laid.reached j node le_rfl at_node)).step (link_pushed found)
    · exact kept (laid.reached i p earlier listed)

/-- An order of all nodes but node 0. -/
structure Order (num_nodes : Nat) (perm : List Nat) : Prop where
  nodup : perm.Nodup
  members : ∀ p, p ∈ perm ↔ 0 < p ∧ p < num_nodes
  long : perm.length = num_nodes - 1

theorem order_shuffled [SliceRandom] [LawfulSliceRandom] (num_nodes draw : Nat) :
    Order num_nodes (SliceRandom.shuffle draw (List.range' 1 (num_nodes - 1))) := by
  have permuted := LawfulSliceRandom.perm draw (List.range' 1 (num_nodes - 1))
  refine ⟨permuted.nodup_iff.mpr List.nodup_range',?_,permuted.length_eq.trans List.length_range'⟩
  intro p
  rw [permuted.mem_iff,List.mem_range'_1]
  omega

private theorem proper_start (node : Nat) (peers : List Nat)
    (listed : (List.replicate num_nodes ([] : List Nat))[node]? = some peers) : Peers num_nodes node peers := by
  rw [List.eq_of_mem_replicate (List.mem_of_getElem? listed)]
  exact ⟨List.nodup_nil,by simp,by simp⟩

/-- Node 0 is not in the order, so the first step of the path does not disturb it. -/
theorem Order.opening {perm : List Nat} (order : Order num_nodes perm) {first : Nat} (at_first : perm[0]? = some first) :
    Laid num_nodes perm 0 ((List.replicate num_nodes []).set 0 [first]) := by
  obtain ⟨above,below⟩ := (order.members first).mp (List.mem_of_getElem? at_first)
  have found : (List.replicate num_nodes ([] : List Nat))[0]? = some [] :=
    List.getElem?_replicate_of_lt (by omega)
  refine ⟨by simp,?_,?_,?_⟩
  · intro u qs listed
    by_cases same : u = 0
    · subst same
      rw [List.getElem?_set_self (by simp; omega)] at listed
      obtain rfl := Option.some.inj listed
      refine ⟨by simp,?_,?_⟩
      · intro p member
        rw [List.mem_singleton.mp member]
        exact below
      · intro member
        have := List.mem_singleton.mp member
        omega
    · rw [List.getElem?_set_ne (Ne.symm same)] at listed
      exact proper_start u qs listed
  · intro i p _ listed
    obtain ⟨above,below⟩ := (order.members p).mp (List.mem_of_getElem? listed)
    rw [List.getElem?_set_ne (by omega)]
    simp [below]
  · intro i p upto listed
    obtain rfl : i = 0 := by omega
    obtain rfl : first = p := Option.some.inj (at_first.symm.trans listed)
    exact (Reachable.refl _ 0).step (link_pushed found)

/-- The first phase leaves every node with at most one peer, and leads to all of them. -/
theorem lay_path_spec [SliceRandom] [LawfulSliceRandom] {rng rest : Rng} (positive : 0 < num_nodes)
    (ran : lay_path num_nodes rng = .ok (neighbors,rest)) :
    neighbors.length = num_nodes ∧ (∀ node peers, neighbors[node]? = some peers → Peers num_nodes node peers) ∧
      ∀ v < num_nodes, Reachable (Link neighbors) 0 v := by
  unfold lay_path at ran
  split at ran
  · rename_i several
    have order := order_shuffled num_nodes rng.head
    generalize SliceRandom.shuffle rng.head (List.range' 1 (num_nodes - 1)) = perm at order ran
    simp only [bind_ok,index_eq_ok,pure_eq] at ran
    obtain ⟨first,at_first,begun,pushed,path,laid,ran⟩ := ran
    obtain ⟨rfl,_⟩ := ok_pair ran
    have opened : Laid num_nodes perm 0 begun := by
      obtain ⟨peers,found,rfl⟩ := (push_at_eq_ok _ _ _ _).mp pushed
      obtain rfl := List.eq_of_mem_replicate (List.mem_of_getElem? found)
      exact order.opening at_first
    have done := upto_kept (fun j ns => Laid num_nodes perm j ns) laid opened (by
      intro j ns ns' inside kept step
      simp only [bind_ok,index_eq_ok] at step
      obtain ⟨node,at_node,peer,at_peer,pushed⟩ := step
      obtain ⟨peers,found,rfl⟩ := (push_at_eq_ok _ _ _ _).mp pushed
      obtain rfl : [] = peers := Option.some.inj ((kept.fresh j node le_rfl at_node).symm.trans found)
      exact kept.extend order.nodup (fun p member => ((order.members p).mp member).2) at_node at_peer)
    refine ⟨done.count,done.proper,?_⟩
    intro v small
    rcases Nat.eq_zero_or_pos v with rfl | above
    · exact Reachable.refl _ 0
    · obtain ⟨i,inside,rfl⟩ := List.getElem_of_mem ((order.members v).mpr ⟨above,small⟩)
      have long := order.long
      exact done.reached i perm[i] (by omega) (List.getElem?_eq_getElem inside)
  · obtain ⟨rfl,_⟩ := ok_pair ran
    refine ⟨List.length_replicate,proper_start,?_⟩
    intro v small
    obtain rfl : v = 0 := by omega
    exact Reachable.refl _ 0

/-- The first phase never panics. It leaves no node with two peers, and node 0 with one
    when there are others. -/
theorem lay_path_returns [SliceRandom] [LawfulSliceRandom] (num_nodes : Nat) (rng : Rng) :
    ∃ neighbors rest, lay_path num_nodes rng = .ok (neighbors,rest) ∧ (∀ peers ∈ neighbors, peers.length ≤ 1) ∧
      (1 < num_nodes → ∃ peer, neighbors[0]? = some [peer]) := by
  unfold lay_path
  by_cases several : num_nodes > 1
  · rw [if_pos several]
    have order := order_shuffled num_nodes rng.head
    generalize SliceRandom.shuffle rng.head (List.range' 1 (num_nodes - 1)) = perm at order
    have long := order.long
    have at_first : perm[0]? = some perm[0] := List.getElem?_eq_getElem (by omega)
    have pushed : push_at (List.replicate num_nodes []) 0 perm[0] = .ok ((List.replicate num_nodes []).set 0 [perm[0]]) :=
      (push_at_eq_ok _ _ _ _).mpr ⟨[],List.getElem?_replicate_of_lt (by omega),rfl⟩
    obtain ⟨neighbors,ran,_,few,start⟩ := upto_keeps (fun neighbors i => do
        let node ← index perm i
        let peer ← index perm (i + 1)
        push_at neighbors node peer)
      (fun j ns => Laid num_nodes perm j ns ∧ (∀ peers ∈ ns, peers.length ≤ 1) ∧ ns[0]? = some [perm[0]])
      (perm.length - 1) ((List.replicate num_nodes []).set 0 [perm[0]])
      ⟨order.opening at_first,by
        intro peers member
        rcases List.mem_or_eq_of_mem_set member with old | rfl
        · rw [List.eq_of_mem_replicate old]
          exact Nat.zero_le 1
        · exact le_rfl,List.getElem?_set_self (by simp; omega)⟩ (by
      rintro j ns inside ⟨laid,few,start⟩
      have at_node : perm[j]? = some perm[j] := List.getElem?_eq_getElem (by omega)
      have at_peer : perm[j + 1]? = some perm[j + 1] := List.getElem?_eq_getElem (by omega)
      have found := laid.fresh j perm[j] le_rfl at_node
      have above := ((order.members perm[j]).mp (List.getElem_mem _)).1
      refine ⟨ns.set perm[j] [perm[j + 1]],?_,?_,?_,?_⟩
      · rw [index_of at_node,index_of at_peer]
        exact (push_at_eq_ok _ _ _ _).mpr ⟨[],found,rfl⟩
      · exact laid.extend order.nodup (fun p member => ((order.members p).mp member).2) at_node at_peer
      · intro peers member
        rcases List.mem_or_eq_of_mem_set member with old | rfl
        · exact few peers old
        · exact le_rfl
      · rw [List.getElem?_set_ne (by omega)]
        exact start)
    refine ⟨neighbors,rng.tail,?_,few,fun _ => ⟨perm[0],start⟩⟩
    simp only [index_of at_first,ok_bind,pushed,ran,pure_eq]
  · rw [if_neg several]
    refine ⟨List.replicate num_nodes [],rng,rfl,?_,fun more => absurd more several⟩
    intro peers member
    rw [List.eq_of_mem_replicate member]
    exact Nat.zero_le 1

end

/-! ### Filling up -/

section
variable {num_nodes degree node : Nat} {peers filled : List Nat} {rng rest : Rng}

/-- The nodes that may become peers. -/
def candidates (num_nodes node : Nat) (peers : List Nat) : List Nat :=
  (List.range node ++ List.range' (node + 1) (num_nodes - (node + 1))).filter (fun p => !peers.contains p)

theorem mem_candidates (inside : node < num_nodes) (p : Nat) :
    p ∈ candidates num_nodes node peers ↔ p < num_nodes ∧ p ≠ node ∧ p ∉ peers := by
  simp only [candidates,List.mem_filter,List.mem_append,List.mem_range,List.mem_range'_1,Bool.not_eq_eq_eq_not,Bool.not_true,
    List.contains_eq_mem,decide_eq_false_iff_not]
  constructor
  · rintro ⟨low | high,fresh⟩
    · exact ⟨by omega,by omega,fresh⟩
    · exact ⟨by omega,by omega,fresh⟩
  · rintro ⟨small,apart,fresh⟩
    exact ⟨by omega,fresh⟩

theorem candidates_nodup : (candidates num_nodes node peers).Nodup := by
  refine (List.nodup_append.mpr ⟨List.nodup_range,List.nodup_range',?_⟩).filter _
  intro p low q high
  rw [List.mem_range] at low
  rw [List.mem_range'_1] at high
  omega

/-- What is added to the peers: the first of the shuffled candidates. -/
theorem fill_peers_ok (ran : fill_peers num_nodes degree peers node rng = .ok (filled,rest)) :
    peers.length ≤ degree ∧ degree - peers.length ≤ (candidates num_nodes node peers).length ∧
      filled = peers ++ (partial_shuffle (candidates num_nodes node peers) (degree - peers.length) rng).1.take
        (degree - peers.length) := by
  simp only [fill_peers,checked_sub,bind_ok] at ran
  obtain ⟨remaining,subtracted,ran⟩ := ran
  split at subtracted
  · rename_i enough
    obtain rfl := Except.ok.inj subtracted
    refine ⟨enough,?_⟩
    split at ran
    · rename_i none
      obtain ⟨rfl,_⟩ := ok_pair ran
      simp [none]
    · simp only [bind_ok,slice_to_eq_ok,pure_eq] at ran
      obtain ⟨chosen,⟨room,rfl⟩,ran⟩ := ran
      obtain ⟨rfl,_⟩ := ok_pair ran
      have long := (partial_shuffle_perm (candidates num_nodes node peers) (degree - peers.length) rng).length_eq
      exact ⟨long ▸ room,rfl⟩
  · cases subtracted

/-- Filling up keeps the peers and leaves `degree` of them. -/
theorem fill_peers_spec (inside : node < num_nodes) (proper : Peers num_nodes node peers)
    (ran : fill_peers num_nodes degree peers node rng = .ok (filled,rest)) :
    filled.length = degree ∧ Peers num_nodes node filled ∧ ∀ p ∈ peers, p ∈ filled := by
  obtain ⟨few,room,made⟩ := fill_peers_ok ran
  have permuted := partial_shuffle_perm (candidates num_nodes node peers) (degree - peers.length) rng
  obtain ⟨chosen,named⟩ : ∃ chosen, chosen =
    (partial_shuffle (candidates num_nodes node peers) (degree - peers.length) rng).1.take (degree - peers.length) := ⟨_,rfl⟩
  have admissible : ∀ p ∈ chosen, p < num_nodes ∧ p ≠ node ∧ p ∉ peers := by
    intro p member
    rw [named] at member
    exact (mem_candidates inside p).mp (permuted.mem_iff.mp (List.mem_of_mem_take member))
  rw [← named] at made
  subst made
  refine ⟨?_,⟨?_,?_,?_⟩,fun p member => List.mem_append_left _ member⟩
  · rw [List.length_append,named,List.length_take,permuted.length_eq]
    omega
  · refine List.nodup_append.mpr ⟨proper.nodup,?_,?_⟩
    · rw [named]
      exact (permuted.nodup_iff.mpr candidates_nodup).sublist (List.take_sublist _ _)
    · rintro p old q new rfl
      exact (admissible p new).2.2 old
  · intro p member
    rcases List.mem_append.mp member with old | new
    · exact proper.below p old
    · exact (admissible p new).1
  · intro member
    rcases List.mem_append.mp member with old | new
    · exact proper.other old
    · exact (admissible node new).2.1 rfl

/-- A node, its peers and its candidates are all the nodes. -/
theorem candidates_length (inside : node < num_nodes) (proper : Peers num_nodes node peers) :
    (candidates num_nodes node peers).length + peers.length + 1 = num_nodes := by
  have distinct : (node :: (peers ++ candidates num_nodes node peers)).Nodup := by
    refine List.nodup_cons.mpr ⟨?_,List.nodup_append.mpr ⟨proper.nodup,candidates_nodup,?_⟩⟩
    · intro member
      rcases List.mem_append.mp member with old | new
      · exact proper.other old
      · exact ((mem_candidates inside node).mp new).2.1 rfl
    · rintro p old q new rfl
      exact ((mem_candidates inside p).mp new).2.2 old
  have every : (node :: (peers ++ candidates num_nodes node peers)).Perm (List.range num_nodes) := by
    rw [List.perm_ext_iff_of_nodup distinct List.nodup_range]
    intro p
    rw [List.mem_cons,List.mem_append,mem_candidates inside,List.mem_range]
    constructor
    · rintro (rfl | old | ⟨small,_⟩)
      · exact inside
      · exact proper.below p old
      · exact small
    · intro small
      by_cases same : p = node
      · exact .inl same
      · by_cases old : p ∈ peers
        · exact .inr (.inl old)
        · exact .inr (.inr ⟨small,same,old⟩)
  have long := every.length_eq
  rw [List.length_cons,List.length_append,List.length_range] at long
  omega

/-- Filling up finds enough candidates whenever the degree leaves out a node. -/
theorem fill_peers_returns (inside : node < num_nodes) (proper : Peers num_nodes node peers)
    (few : peers.length ≤ degree) (small : degree < num_nodes) (rng : Rng) :
    ∃ filled rest, fill_peers num_nodes degree peers node rng = .ok (filled,rest) := by
  by_cases full : degree - peers.length = 0
  · exact ⟨peers,rng,by simp only [fill_peers,checked_sub,if_pos few,ok_bind,full,if_true,pure_eq]⟩
  · have count := candidates_length inside proper
    have permuted := partial_shuffle_perm (candidates num_nodes node peers) (degree - peers.length) rng
    have room : degree - peers.length ≤
        (partial_shuffle (candidates num_nodes node peers) (degree - peers.length) rng).1.length := by
      rw [permuted.length_eq]
      omega
    refine ⟨peers ++ (partial_shuffle (candidates num_nodes node peers) (degree - peers.length) rng).1.take
      (degree - peers.length),(partial_shuffle (candidates num_nodes node peers) (degree - peers.length) rng).2,?_⟩
    simp only [fill_peers,checked_sub,if_pos few,ok_bind,if_neg full]
    exact congrArg (· >>= _) (slice_to_of room)

end

/-- The mesh is built unless the degree leaves no room for the path: a degree of zero is
    admitted by the assertion, but when there are several nodes the path has already
    given node 0 a peer. -/
theorem random_mesh_returns_iff [SliceRandom] [LawfulSliceRandom] (num_nodes degree : Nat) (small : degree < num_nodes)
    (rng : Rng) : (∃ topo rest, random_mesh num_nodes degree rng = .ok (topo,rest)) ↔ 1 ≤ degree ∨ num_nodes = 1 := by
  obtain ⟨laid,rng',path,few,start⟩ := lay_path_returns num_nodes rng
  obtain ⟨count,proper,_⟩ := lay_path_spec (by omega) path
  constructor
  · rintro ⟨topo,rest,ran⟩
    by_cases single : num_nodes = 1
    · exact .inr single
    · left
      obtain ⟨peer,first⟩ := start (by omega)
      simp only [random_mesh,require_of small,ok_bind,path,bind_ok] at ran
      obtain ⟨_,filling,_⟩ := ran
      have enough := fold_kept (fun passed (_ : List (List Nat) × Rng) => ∀ entry ∈ passed, entry.1.length ≤ degree)
        filling (by simp) (by
          rintro before ⟨peers,node⟩ after ⟨done,rng⟩ state _ kept step
          simp only [bind_ok] at step
          obtain ⟨⟨more,_⟩,run,_⟩ := step
          intro entry member
          rcases List.mem_append.mp member with old | new
          · exact kept entry old
          · rw [List.mem_singleton.mp new]
            exact (fill_peers_ok run).1)
      obtain ⟨inside,here⟩ := List.getElem?_eq_some_iff.mp first
      have listed : ([peer],0) ∈ laid.zipIdx := by
        rw [List.mem_zipIdx_iff_getElem?]
        exact first
      exact enough _ listed
  · intro room
    have low : ∀ peers ∈ laid, peers.length ≤ degree := by
      intro peers member
      rcases room with enough | single
      · exact (few peers member).trans enough
      · -- a single node has no other node as a peer
        obtain ⟨node,inside,rfl⟩ := List.getElem_of_mem member
        have good := proper node laid[node] (List.getElem?_eq_getElem inside)
        have none : laid[node] = [] := by
          refine List.eq_nil_iff_forall_not_mem.mpr fun p listed => ?_
          have zero : ∀ k : Nat, k < num_nodes → k = 0 := fun k below => by omega
          have same : p = node := (zero p (good.below p listed)).trans (zero node (count ▸ inside)).symm
          exact good.other (same ▸ listed)
        rw [none]
        exact Nat.zero_le degree
    cases ran : random_mesh num_nodes degree rng with
    | ok r => exact ⟨r.1,r.2,rfl⟩
    | error p =>
      simp only [random_mesh,require_of small,ok_bind,path,bind_error] at ran
      rcases ran with failed | ⟨_,_,failed⟩
      · refine absurd failed (fold_returns ?_)
        rintro before ⟨peers,node⟩ after ⟨done,rng⟩ split
        have listed : (peers,node) ∈ laid.zipIdx := by rw [split]; simp
        obtain ⟨inside,here⟩ := List.mem_zipIdx' listed
        have member : peers ∈ laid := by rw [here]; exact List.getElem_mem _
        obtain ⟨more,rng'',run⟩ := fill_peers_returns (count ▸ inside)
          (proper node peers (by rw [here]; exact List.getElem?_eq_getElem inside)) (low peers member) small rng
        exact ⟨(done ++ [more],rng''),by simp only [run,ok_bind,pure_eq]⟩
      · cases failed

open Rlnc.Reference in
/-- Three nodes of degree two, and a node alone. -/
theorem random_mesh_returns_iff_three :
    (∃ topo rest, random_mesh 3 2 (Stream'.const 5) = .ok (topo,rest)) ∧
      ∃ topo rest, random_mesh 1 0 (Stream'.const 5) = .ok (topo,rest) :=
  ⟨(random_mesh_returns_iff 3 2 (by decide) _).mpr (.inl (by decide)),
    (random_mesh_returns_iff 1 0 (by decide) _).mpr (.inr rfl)⟩

open Rlnc.Reference in
/-- Two nodes of degree zero: the assertion holds, and the subtraction underflows. -/
theorem random_mesh_degree_zero : 0 < 2 ∧ random_mesh 2 0 (Stream'.const 5) = .error .overflow := ⟨by decide,rfl⟩

/-- Every node of a mesh has `degree` peers, other nodes and each listed once, and every
    node can be reached from node 0. -/
theorem random_mesh_spec [SliceRandom] [LawfulSliceRandom] (num_nodes degree : Nat) (rng rest : Rng) (topo : Topology)
    (ran : random_mesh num_nodes degree rng = .ok (topo,rest)) :
    topo.neighbors.length = num_nodes ∧
      (∀ (node : Nat) (peers : List Nat), topo.neighbors[node]? = some peers →
        peers.length = degree ∧ peers.Nodup ∧ ∀ p ∈ peers, p < num_nodes ∧ p ≠ node) ∧
      ∀ v < num_nodes, Reachable (Link topo.neighbors) 0 v := by
  simp only [random_mesh,bind_ok,require_eq_ok] at ran
  obtain ⟨_,small,⟨laid,_⟩,path,⟨filled,_⟩,filling,made⟩ := ran
  obtain ⟨rfl,_⟩ := ok_pair made
  obtain ⟨count,proper,reached⟩ := lay_path_spec (by omega) path
  -- the lists that are filled so far extend those of the path
  have kept := fold_kept (fun passed (state : List (List Nat) × Rng) =>
    List.Forall₂ (fun (laid : List Nat × NodeId) filled => filled.length = degree ∧
      Peers num_nodes laid.2 filled ∧ ∀ p ∈ laid.1, p ∈ filled) passed state.1) filling .nil (by
      rintro before ⟨peers,node⟩ after ⟨done,rng⟩ state split kept step
      simp only [bind_ok,pure_eq,Except.ok.injEq] at step
      obtain ⟨⟨more,_⟩,run,rfl⟩ := step
      have listed : (peers,node) ∈ laid.zipIdx := by rw [split]; simp
      obtain ⟨inside,here⟩ := List.mem_zipIdx' listed
      have good := fill_peers_spec (count ▸ inside) (proper node peers (by rw [here]; exact List.getElem?_eq_getElem inside)) run
      exact List.rel_append kept (.cons good .nil))
  have long : laid.length = filled.length := by simpa using kept.length_eq
  have each : ∀ (node : Nat) (before : node < laid.length) (after : node < filled.length), filled[node].length = degree ∧
      Peers num_nodes node filled[node] ∧ ∀ p ∈ laid[node], p ∈ filled[node] := by
    intro node before after
    simpa using (List.forall₂_iff_get.mp kept).2 node (by rw [List.length_zipIdx]; exact before) after
  refine ⟨long.symm.trans count,?_,?_⟩
  · intro node peers listed
    obtain ⟨small,rfl⟩ := List.getElem?_eq_some_iff.mp listed
    obtain ⟨full,good,_⟩ := each node (long ▸ small) small
    refine ⟨full,good.nodup,fun p member => ⟨good.below p member,?_⟩⟩
    rintro rfl
    exact good.other member
  · intro v inside
    refine (reached v inside).mono ?_
    rintro u w ⟨peers,listed,member⟩
    obtain ⟨small,rfl⟩ := List.getElem?_eq_some_iff.mp listed
    exact ⟨filled[u],List.getElem?_eq_getElem (long ▸ small),(each u small (long ▸ small)).2.2 w member⟩

open Rlnc.Reference in
/-- The mesh of four nodes that one stream of outcomes gives. -/
theorem random_mesh_spec_four :
    random_mesh 4 2 (Stream'.const 5) = .ok (⟨[[3,1],[0,2],[1,0],[2,0]],2⟩,Stream'.const 5) ∧
    ∀ v < 4, Reachable (Link [[3,1],[0,2],[1,0],[2,0]]) 0 v := by
  have ran : random_mesh 4 2 (Stream'.const 5) = .ok (⟨[[3,1],[0,2],[1,0],[2,0]],2⟩,Stream'.const 5) := rfl
  exact ⟨ran,(random_mesh_spec 4 2 _ _ _ ran).2.2⟩

end Rlnc.Mesh
