import Rlnc.Bandwidth
import Rlnc.Network
import Rlnc.Simulator
import Rlnc.Spread

/-!
No node of the simulation learns more than the packets with which a coded strategy
starts (`information_bound`). Since the proposer never sends again, no other node
decodes a block of more chunks than the proposer has peers.
-/
namespace Rlnc.Information
open Rlnc.Panics Rlnc.Wire Rlnc.Packing Rlnc.Coding Rlnc.Draws Rlnc.Blocks Rlnc.Groups Rlnc.Integrity Rlnc.Protocols
open Rlnc.Scalars Rlnc.CodedRuns Rlnc.Strategies Rlnc.Topology Rlnc.Engine Rlnc.Events Rlnc.Metrics Rlnc.Progress Rlnc.Spread
set_option linter.unusedSectionVars false

section
variable {F : Type} [Field F] [DecidableEq F] [Random F] {N : Nat} {Context Proof Error σ : Type}
  {S : IntegrityScheme F N Context Proof Error} {T : Strategy σ (CodedNodeState F N Context Proof) (SignedPacket F N Proof)}
  {start : σ} [EventHeap] [SliceRandom]

/-- After any number of events, all that is queued or stored lies in the span of the packets with
    which the run started; with fewer peers than chunks only the proposer holds the block at the end. -/
def InformationBound (T : Strategy σ (CodedNodeState F N Context Proof) (SignedPacket F N Proof)) (start : σ) : Prop :=
  ∀ (mechanism : PropagationMechanism σ) (block : Block) (rng : Rng)
    (sim : Simulation σ (CodedNodeState F N Context Proof) (SignedPacket F N Proof)) (byte_len : Nat),
    mechanism.strategy = start → Simulation.start T mechanism block rng = .ok (sim,byte_len) →
    ∃ (peers : List Nat) (packets : List (SignedPacket F N Proof)), sim.topo.neighbors[0]? = some peers ∧
      packets.length = peers.length ∧
      (∃ before proposer after, T.init_proposer start block peers.length before =
        .ok ((sim.mechanism.strategy,proposer,packets,byte_len),after)) ∧
      (∀ count, ∃ sim', sim.process_events T count = .ok sim' ∧
        (∀ event ∈ sim'.event_queue,
          event.packet.chunk.coefficients ∈ coefficient_span (packets.map SignedPacket.chunk)) ∧
        ∀ (v : Nat) (state : CodedNodeState F N Context Proof), 0 < v → sim'.states[v]? = some state →
          (∀ c ∈ state.decoder.coded_chunks, c.coefficients ∈ coefficient_span (packets.map SignedPacket.chunk)) ∧
          state.decoder.rank ≤ min N peers.length) ∧
      (mechanism.mesh_degree < N → ∃ enough, ∀ count, enough ≤ count →
        ∃ m, run T count mechanism block rng = .ok (some m) ∧ m.nodes_decoded = 1)

variable [LawfulEventHeap] [LawfulSliceRandom]

/-- When no other node can have all chunks, one node has decoded at the end. -/
theorem one_node {ctx : Context} {m n degree first : Nat} {packets : List (SignedPacket F N Proof)}
    {sim : Simulation σ (CodedNodeState F N Context Proof) (SignedPacket F N Proof)}
    (spreading : Spreading S ctx m (coefficient_span (packets.map SignedPacket.chunk)) n degree first sim)
    (few : packets.length < N) : (sim.decode_times.filterMap id).length = 1 := by
  refine one_decoded spreading.proposer fun v above inside => ?_
  have held : v < sim.states.length := by rw [spreading.states,← spreading.times]; exact inside
  have found := List.getElem?_eq_getElem held
  have holds := spreading.holds v _ above found
  have small := (holds_rank holds).2
  cases known : sim.decode_times[v] with
  | none => rw [List.getElem?_eq_getElem inside,known]
  | some t =>
    have complete := spreading.decoded v t _ above (by rw [List.getElem?_eq_getElem inside,known]) found
    obtain ⟨_,_,stored,_⟩ := holds
    rw [BlockDecoder.is_complete_iff stored.sound,← BlockDecoder.rank_eq stored.sound] at complete
    omega

theorem coded_bound (coded : CodedStrategy T S start) : InformationBound T start := by
  intro mechanism block rng sim byte_len starts began
  obtain ⟨peers,packets,started⟩ := start_ok began
  obtain ⟨count,ctx,m,total,spreading⟩ := started_spreading coded starts started
  have queued := (started_queued started).2
  obtain ⟨before,proposer,after,proposed,_⟩ := started.proposed
  refine ⟨peers,packets,started.listed,count,⟨before,proposer,after,starts ▸ proposed⟩,?_,?_⟩
  · intro events
    obtain ⟨sim',ran,kept,_⟩ := spreading.process_events coded total queued events
    refine ⟨sim',ran,fun event member => (kept.flow.genuine event member).2,fun v state above found => ?_⟩
    obtain ⟨inside,bounded⟩ := holds_rank (kept.holds v state above found)
    exact ⟨inside,count ▸ bounded⟩
  · intro few
    refine ⟨peers.length + (mechanism.num_nodes - 1) * N * mechanism.mesh_degree + 1,fun events enough => ?_⟩
    obtain ⟨sim',ran,kept,ends⟩ := spreading.process_events coded total queued events
    have regular := spreading.regular 0 peers started.listed
    refine ⟨metrics T sim' byte_len,?_,one_node kept (by omega)⟩
    have empty := (LawfulEventHeap.pop_none _).mpr (ends (by omega))
    simp only [run,began,ok_bind,ran,empty,pure_eq]

end

section
variable {G S PublicKey Signature G1 G2 : Type} [AddCommGroup G] [DecidableEq G] [Module Scalar G] [Space Scalar G]
  [HashToGroup G] [FixedCodec G] [Verifier PublicKey Signature] [Signer S PublicKey Signature] [FixedCodec Signature]
  [AddCommGroup G1] [Module Scalar G1] [AddCommGroup G2] [Module Scalar G2] [Space Scalar G2] [HashToGroup G2]
  [PairingGroup G1 G2] [FixedCodec G2] [FixedCodec Scalar] [LawfulScalarCodec] [Random Scalar] [FixedCodec UInt32]
  [FixedCodec UInt64] [BytesCodec] [Keccak256] [SliceRandom] {N : Nat}

/-! ### The two coded strategies -/

theorem pedersen_coded (m : Nat) (signer : Pedersen.PedersenSigner S) :
    CodedStrategy (PedersenStrategy.strategy G S PublicKey Signature N) (Pedersen.PedersenScheme Scalar G PublicKey Signature N)
      (PedersenStrategy.new m signer) where
  until_decode _ := rfl
  receives _ := rfl
  completes _ _ := rfl
  forwards _ := rfl
  begins block count rng self' proposer packets byte_len rest ran := by
    obtain ⟨_,_,sized⟩ := Bandwidth.pedersen_starts_sized ran
    simp only [PedersenStrategy.strategy,PedersenStrategy.init_proposer,bind_ok,pure_eq,Except.ok.injEq,
      Prod.mk.injEq] at ran
    obtain ⟨⟨⟨coded,_⟩,_⟩,encoded,_,_,proof,_,_,_,⟨rfl,_,rfl,_⟩,_⟩ := ran
    obtain ⟨_,_,many,_⟩ := Block.encode_chunks_ok encoded
    refine ⟨by rw [List.length_map,many],_,m,?_,fun p member => (sized p member).1,fun state made =>
      (Except.ok.inj made).symm⟩
    exact Network.pedersen_total m _

theorem bfkw_coded (self : BfkwStrategy G1 G2 N) :
    CodedStrategy (BfkwStrategy.strategy G1 G2 N) (Bfkw.BfkwScheme Scalar G1 G2 N) self where
  until_decode _ := rfl
  receives _ := rfl
  completes _ _ := rfl
  forwards _ := rfl
  begins block count rng self' proposer packets byte_len rest ran := by
    obtain ⟨_,_,sized⟩ := Bandwidth.bfkw_starts_sized ran
    simp only [BfkwStrategy.strategy,BfkwStrategy.init_proposer,bind_ok,pure_eq,Except.ok.injEq,
      Prod.mk.injEq] at ran
    obtain ⟨⟨⟨coded,_⟩,_⟩,encoded,_,_,sent,signed,_,_,⟨rfl,_,rfl,_⟩,_⟩ := ran
    obtain ⟨_,_,many,_⟩ := Block.encode_chunks_ok encoded
    refine ⟨by rw [← (mapM_ok signed).length_eq,many],_,self.m,?_,fun p member => (sized p member).1,fun state made =>
      (Except.ok.inj made).symm⟩
    exact Network.bfkw_total_of (fun _ => by simp [Bfkw.BfkwSigner.setup_context,Bfkw.derive_hash_points]) self.m

variable (G S PublicKey Signature G1 G2 N) in
/-- With both coded strategies, whatever the mesh, the delays and the random choices. -/
theorem information_bound [EventHeap] [LawfulEventHeap] [LawfulSliceRandom] :
    (∀ (m : Nat) (signer : Pedersen.PedersenSigner S), InformationBound (PedersenStrategy.strategy G S PublicKey Signature N)
      (PedersenStrategy.new m signer)) ∧
    ∀ self, InformationBound (BfkwStrategy.strategy G1 G2 N) self :=
  ⟨fun m signer => coded_bound (pedersen_coded m signer),fun self => coded_bound (bfkw_coded self)⟩

end

section
open Rlnc.Reference Rlnc.Simulator

private def path_of_three {σ : Type} (strategy : σ) : PropagationMechanism σ := ⟨3,1,fun _ => 5,strategy⟩

/-- Two chunks for one peer: only the proposer holds the block in the end. -/
theorem information_bound_three :
    (∃ enough, ∀ count, enough ≤ count → ∃ m, run (PedersenStrategy.strategy Scalar Bytes Bytes UInt64 2) count
      (path_of_three (PedersenStrategy.new 2 ⟨[7]⟩)) (block_of [1,0,3]) (Stream'.const 0) = .ok (some m) ∧
      m.nodes_decoded = 1) ∧
    ∃ enough, ∀ count, enough ≤ count → ∃ m, run (BfkwStrategy.strategy Scalar Scalar 2) count
      (path_of_three (BfkwStrategy.new 2 ⟨scalar 3,scalar 3⟩)) (block_of [1,0,3]) (Stream'.const 0) =
        .ok (some m) ∧ m.nodes_decoded = 1 := by
  obtain ⟨pedersen,bfkw⟩ := information_bound Scalar Bytes Bytes UInt64 Scalar Scalar 2
  constructor
  · obtain ⟨⟨sim,byte_len⟩,began,_⟩ := map_ok (show (Simulation.start (PedersenStrategy.strategy Scalar Bytes Bytes UInt64 2)
      (path_of_three (PedersenStrategy.new 2 ⟨[7]⟩)) (block_of [1,0,3]) (Stream'.const 0)).map
        (fun _ => ()) = .ok () by decide +kernel)
    obtain ⟨_,_,_,_,_,_,ends⟩ := pedersen 2 ⟨[7]⟩ _ _ _ sim byte_len rfl began
    exact ends (by decide)
  · obtain ⟨⟨sim,byte_len⟩,began,_⟩ := map_ok (show (Simulation.start (BfkwStrategy.strategy Scalar Scalar 2)
      (path_of_three (BfkwStrategy.new 2 ⟨scalar 3,scalar 3⟩)) (block_of [1,0,3]) (Stream'.const 0)).map
        (fun _ => ()) = .ok () by decide +kernel)
    obtain ⟨_,_,_,_,_,_,ends⟩ := bfkw _ _ _ _ sim byte_len rfl began
    exact ends (by decide)

end

end Rlnc.Information
