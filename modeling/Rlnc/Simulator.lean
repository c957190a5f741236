import Rlnc.BfkwStrategy
import Rlnc.Consistency
import Rlnc.PedersenStrategy

/-!
The simulator with the three strategies of the repository: every node that it
counts as decoded holds the proposed block (`decoded_hold_block`).
-/
namespace Rlnc.Simulator
open Rlnc.Panics Rlnc.Wire Rlnc.Packing Rlnc.Coding Rlnc.Draws Rlnc.Blocks Rlnc.Groups Rlnc.Scalars Rlnc.Strategies
open Rlnc.Topology Rlnc.Engine Rlnc.Consistency

section
variable {G S PublicKey Signature G1 G2 : Type} [AddCommGroup G] [DecidableEq G] [Module Scalar G] [Space Scalar G]
  [HashToGroup G] [FixedCodec G] [Verifier PublicKey Signature] [Signer S PublicKey Signature] [FixedCodec Signature]
  [AddCommGroup G1] [Module Scalar G1] [AddCommGroup G2] [Module Scalar G2] [Space Scalar G2] [HashToGroup G2]
  [PairingGroup G1 G2] [FixedCodec G2] [FixedCodec Scalar] [Random Scalar] [FixedCodec UInt64] [BytesCodec] [Keccak256]
  [SliceRandom] [EventHeap]

variable (G S PublicKey Signature G1 G2) in
/-- For every block that fits, every mesh, every delay and all random choices, after any
    number of events: the nodes that count as decoded hold the block, and no packet is
    refused, with each of the three strategies. -/
theorem decoded_hold_block [LawfulBlockCodec] [LawfulScalarCodec] [LawfulSpace Scalar G]
    [LawfulSigner S PublicKey Signature] [LawfulSpace Scalar G2] [LawfulPairing Scalar G1 G2] [LawfulSliceRandom]
    [LawfulEventHeap] (N m : Nat) (block : Block) (small : block.transactions.length ≤ MAX_TRANSACTIONS_BYTES)
    (fits : Block.Fits Scalar block N m) :
    CountsTruly baseline () block ∧
    (∀ signer : Pedersen.PedersenSigner S, CountsTruly (PedersenStrategy.strategy G S PublicKey Signature N)
      (PedersenStrategy.new m signer) block) ∧
    ∀ signer : Bfkw.BfkwSigner Scalar G1, signer.Keyed G2 →
      CountsTruly (BfkwStrategy.strategy G1 G2 N) (BfkwStrategy.new m signer) block := by
  refine ⟨Starts.counts_truly (baseline_starts small),fun signer => ?_,fun signer keyed => ?_⟩
  · exact Starts.counts_truly (PedersenStrategy.pedersen_starts signer small fits)
  · exact Starts.counts_truly (BfkwStrategy.bfkw_starts (BfkwStrategy.new m signer) keyed small fits)

end

section
open Rlnc.Reference

/-- The first of the earliest events, and the others. -/
def pop_first {Packet : Type} : List (Event Packet) → Option (Event Packet × List (Event Packet))
  | [] => none
  | event :: queue =>
    match pop_first queue with
    | none => some (event,[])
    | some (first,others) => if event.time ≤ first.time then some (event,queue) else some (first,event :: others)

scoped instance : EventHeap := ⟨fun queue event => queue ++ [event],pop_first⟩

private theorem pop_first_spec {Packet : Type} (queue : List (Event Packet)) :
    (pop_first queue = none ↔ queue = []) ∧ ∀ first others, pop_first queue = some (first,others) →
      (first :: others).Perm queue ∧ ∀ other ∈ others, first.time ≤ other.time := by
  induction queue with
  | nil => simp [pop_first]
  | cons event queue ih =>
    obtain ⟨empty,spec⟩ := ih
    rw [pop_first]
    cases popped : pop_first queue with
    | none =>
      obtain rfl := empty.mp popped
      simp
    | some next =>
      obtain ⟨first,others⟩ := next
      obtain ⟨same,earliest⟩ := spec first others popped
      by_cases earlier : event.time ≤ first.time
      · simp only [if_pos earlier,reduceCtorEq,Option.some.injEq,Prod.mk.injEq]
        refine ⟨trivial,?_⟩
        rintro _ _ ⟨rfl,rfl⟩
        refine ⟨List.Perm.refl _,fun other member => ?_⟩
        rcases List.mem_cons.mp (same.mem_iff.mpr member) with rfl | later
        · exact earlier
        · exact le_trans earlier (earliest other later)
      · simp only [if_neg earlier,reduceCtorEq,Option.some.injEq,Prod.mk.injEq]
        refine ⟨trivial,?_⟩
        rintro _ _ ⟨rfl,rfl⟩
        refine ⟨(List.Perm.swap event first others).trans (same.cons event),?_⟩
        intro other member
        rcases List.mem_cons.mp member with rfl | later
        · exact Nat.le_of_lt (Nat.lt_of_not_le earlier)
        · exact earliest other later

scoped instance : LawfulEventHeap where
  push_perm queue event := List.perm_append_singleton event queue
  pop_none queue := (pop_first_spec queue).1
  pop_perm popped := ((pop_first_spec _).2 _ _ popped).1
  pop_earliest popped := ((pop_first_spec _).2 _ _ popped).2

private def three_bytes : Block := block_of [1,0,3]

/-- A mesh of three nodes and a block of three bytes of transactions, in two chunks of two scalars. -/
theorem decoded_hold_block_three :
    Topology.random_mesh 3 1 (Stream'.const 0) = .ok (⟨[[1],[2],[1]],1⟩,Stream'.const 0) ∧
      CountsTruly baseline () three_bytes ∧
      CountsTruly (PedersenStrategy.strategy Scalar Bytes Bytes UInt64 2) (PedersenStrategy.new 2 ⟨[7]⟩)
        three_bytes ∧
      CountsTruly (BfkwStrategy.strategy Scalar Scalar 2)
        (BfkwStrategy.new 2 ⟨scalar 3,scalar 3⟩) three_bytes := by
  have fits : Block.Fits Scalar three_bytes 2 2 := by unfold Block.Fits; decide +kernel
  obtain ⟨full,pedersen,bfkw⟩ :=
    decoded_hold_block Scalar Bytes Bytes UInt64 Scalar Scalar 2 2 three_bytes (by decide) fits
  have keyed : Bfkw.BfkwSigner.Keyed Scalar (⟨scalar 3,scalar 3⟩ : Bfkw.BfkwSigner Scalar Scalar) := by
    simp [Bfkw.BfkwSigner.Keyed,PairingGroup.generator]
  exact ⟨rfl,full,pedersen _,bfkw _ keyed⟩

/-- Five units of time for each hop. -/
private def five_apart {σ : Type} (strategy : σ) : PropagationMechanism σ := ⟨3,1,fun _ => 5,strategy⟩

example : ((Simulation.start (BfkwStrategy.strategy Scalar Scalar 1)
      (five_apart (BfkwStrategy.new 4 ⟨scalar 3,scalar 3⟩)) three_bytes (Stream'.const 0)) >>= fun r =>
        (r.1.process_events (BfkwStrategy.strategy Scalar Scalar 1) 3).map Simulation.decode_times) =
    .ok [some 0,some 5,some 10] := by decide +kernel

end

end Rlnc.Simulator
