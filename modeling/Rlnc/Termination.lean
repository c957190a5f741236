import Rlnc.Flooding
import Rlnc.Information

/-!
The loop of the simulation ends with every strategy of the repository. A node of a
coded strategy sends to its peers only when its rank grows, and one that floods does so
once; this bounds the packets that are sent, and with them the events.
-/
namespace Rlnc.Termination
open Rlnc.Panics Rlnc.Wire Rlnc.Packing Rlnc.Coding Rlnc.Draws Rlnc.Blocks Rlnc.Groups Rlnc.Integrity Rlnc.Protocols
open Rlnc.Scalars Rlnc.Strategies Rlnc.Topology Rlnc.Engine Rlnc.Events Rlnc.Metrics Rlnc.Progress Rlnc.Spread Rlnc.Flooding
set_option linter.unusedSectionVars false

section
variable {σ NodeState Packet : Type} [EventHeap] [SliceRandom]

/-- A run that starts ends after finitely many events, with no more packets than this; the bound
    may depend on the number of peers of the proposer. -/
def Ends (T : Strategy σ NodeState Packet) (start : σ) (bound : PropagationMechanism σ → Nat → Nat) : Prop :=
  ∀ (mechanism : PropagationMechanism σ) (block : Block) (rng : Rng) (sim : Simulation σ NodeState Packet) (byte_len : Nat),
    mechanism.strategy = start → Simulation.start T mechanism block rng = .ok (sim,byte_len) →
    ∃ peers : List Nat, sim.topo.neighbors[0]? = some peers ∧ ∃ enough, ∀ count, enough ≤ count →
      ∃ m, run T count mechanism block rng = .ok (some m) ∧ m.total_packets ≤ bound mechanism peers.length

end

section
variable {F : Type} [Field F] [DecidableEq F] [Random F] {N : Nat} {Context Proof Error σ : Type}
  {S : IntegrityScheme F N Context Proof Error} {T : Strategy σ (CodedNodeState F N Context Proof) (SignedPacket F N Proof)}
  {start : σ} [EventHeap] [SliceRandom] [LawfulEventHeap] [LawfulSliceRandom]

/-- The remaining ranks bound what a coded strategy still sends. -/
theorem coded_ends (coded : CodedStrategy T S start) : Ends T start fun mechanism first =>
    first + (mechanism.num_nodes - 1) * N * mechanism.mesh_degree := by
  intro mechanism block rng sim byte_len starts began
  obtain ⟨peers,packets,started⟩ := start_ok began
  obtain ⟨_,ctx,m,total,spreading⟩ := started_spreading coded starts started
  refine ⟨peers,started.listed,peers.length + (mechanism.num_nodes - 1) * N * mechanism.mesh_degree + 1,fun count large => ?_⟩
  obtain ⟨sim',ran,kept,ends⟩ := spreading.process_events coded total (started_queued started).2 count
  refine ⟨metrics T sim' byte_len,?_,kept.bounded⟩
  simp only [run,began,ok_bind,ran,(LawfulEventHeap.pop_none _).mpr (ends large),pure_eq]

end

section
variable {G S PublicKey Signature G1 G2 : Type} [AddCommGroup G] [DecidableEq G] [Module Scalar G] [Space Scalar G]
  [HashToGroup G] [FixedCodec G] [Verifier PublicKey Signature] [Signer S PublicKey Signature] [FixedCodec Signature]
  [AddCommGroup G1] [Module Scalar G1] [AddCommGroup G2] [Module Scalar G2] [Space Scalar G2] [HashToGroup G2]
  [PairingGroup G1 G2] [FixedCodec G2] [FixedCodec Scalar] [LawfulScalarCodec] [Random Scalar] [FixedCodec UInt32]
  [FixedCodec UInt64] [BytesCodec] [Keccak256] [SliceRandom] [EventHeap] [LawfulEventHeap] [LawfulSliceRandom] {N : Nat}

/-- Every node that floods sends to its peers once. -/
theorem baseline_ends : Ends baseline () fun mechanism _ => mechanism.num_nodes * mechanism.mesh_degree := by
  intro mechanism block rng sim byte_len _ began
  obtain ⟨peers,packets,started⟩ := start_ok began
  obtain ⟨rest,mesh⟩ := started.mesh
  obtain ⟨sim',began',_,enough,ends⟩ := flooded_runs mesh block
  obtain ⟨rfl,rfl⟩ := ok_pair (began.symm.trans began')
  refine ⟨peers,started.listed,enough,fun count large => ?_⟩
  obtain ⟨last,ran,empty,flooded,_⟩ := ends count large
  refine ⟨metrics baseline last block.serialize.length,?_,flooded.bounded⟩
  simp only [run,began,ok_bind,ran,(LawfulEventHeap.pop_none _).mpr empty,pure_eq]

variable (G S PublicKey Signature G1 G2 N) in
/-- The loop ends, and these are bounds on the packets. -/
theorem loop_ends :
    (∀ (m : Nat) (signer : Pedersen.PedersenSigner S), Ends (PedersenStrategy.strategy G S PublicKey Signature N)
      (PedersenStrategy.new m signer) fun mechanism first =>
        first + (mechanism.num_nodes - 1) * N * mechanism.mesh_degree) ∧
    (∀ self, Ends (BfkwStrategy.strategy G1 G2 N) self fun mechanism first =>
      first + (mechanism.num_nodes - 1) * N * mechanism.mesh_degree) ∧
    Ends baseline () fun mechanism _ => mechanism.num_nodes * mechanism.mesh_degree :=
  ⟨fun m signer => coded_ends (Information.pedersen_coded m signer),fun self => coded_ends (Information.bfkw_coded self),
    baseline_ends⟩

end

section
open Rlnc.Reference Rlnc.Simulator

private def three_in_line {σ : Type} (strategy : σ) : PropagationMechanism σ := ⟨3,1,fun bytes => bytes,strategy⟩

/-- Three nodes with one peer each, and two chunks. -/
theorem loop_ends_three :
    (∃ enough, ∀ count, enough ≤ count → ∃ m, run (PedersenStrategy.strategy Scalar Bytes Bytes UInt64 2) count
      (three_in_line (PedersenStrategy.new 2 ⟨[7]⟩)) (block_of [1,0,3]) (Stream'.const 0) = .ok (some m)) ∧
    (∃ enough, ∀ count, enough ≤ count → ∃ m, run (BfkwStrategy.strategy Scalar Scalar 2) count
      (three_in_line (BfkwStrategy.new 2 ⟨scalar 3,scalar 3⟩)) (block_of [1,0,3]) (Stream'.const 0) =
        .ok (some m)) ∧
    ∃ enough, ∀ count, enough ≤ count → ∃ m, run baseline count (three_in_line ()) (block_of [1,0,3]) (Stream'.const 0) =
      .ok (some m) ∧ m.total_packets ≤ 3 := by
  obtain ⟨pedersen,bfkw,full⟩ := loop_ends Scalar Bytes Bytes UInt64 Scalar Scalar 2
  refine ⟨?_,?_,?_⟩
  · obtain ⟨⟨sim,byte_len⟩,began,_⟩ := map_ok (show (Simulation.start (PedersenStrategy.strategy Scalar Bytes Bytes UInt64 2)
      (three_in_line (PedersenStrategy.new 2 ⟨[7]⟩)) (block_of [1,0,3]) (Stream'.const 0)).map
        (fun _ => ()) = .ok () by decide +kernel)
    obtain ⟨_,_,enough,ends⟩ := pedersen 2 ⟨[7]⟩ _ _ _ sim byte_len rfl began
    exact ⟨enough,fun count large => (ends count large).imp fun _ => And.left⟩
  · obtain ⟨⟨sim,byte_len⟩,began,_⟩ := map_ok (show (Simulation.start (BfkwStrategy.strategy Scalar Scalar 2)
      (three_in_line (BfkwStrategy.new 2 ⟨scalar 3,scalar 3⟩)) (block_of [1,0,3]) (Stream'.const 0)).map
        (fun _ => ()) = .ok () by decide +kernel)
    obtain ⟨_,_,enough,ends⟩ := bfkw _ _ _ _ sim byte_len rfl began
    exact ⟨enough,fun count large => (ends count large).imp fun _ => And.left⟩
  · obtain ⟨⟨sim,byte_len⟩,began,_⟩ := map_ok (show (Simulation.start baseline (three_in_line ()) (block_of [1,0,3])
      (Stream'.const 0)).map (fun _ => ()) = .ok () by decide +kernel)
    obtain ⟨_,_,enough,ends⟩ := full (three_in_line ()) _ _ sim byte_len rfl began
    exact ⟨enough,ends⟩

end

end Rlnc.Termination
