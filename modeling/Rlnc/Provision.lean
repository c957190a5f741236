import Rlnc.Proposing

/-!
Which networks deliver every block. The proposer sends one packet to each of its targets and
then only waits, so a network delivers whatever block is drawn (`AlwaysDecodable`) only when
there are as many targets as chunks, which nothing checks (`always_decodable_iff`). Five
nodes with ten chunks and a mesh degree of eight deliver none (`documented_undecodable`).
-/
namespace Rlnc.Provision
open Rlnc.Panics Rlnc.Wire Rlnc.Packing Rlnc.Draws Rlnc.Blocks Rlnc.Groups Rlnc.Integrity
open Rlnc.Scalars Rlnc.Protocols Rlnc.Actor Rlnc.Network Rlnc.Schedules Rlnc.Decodability Rlnc.Delivery Rlnc.Proposing
open Rlnc.BlockCodec (SliceSize DocumentedCodec)
open Rlnc.Pedersen Rlnc.Bfkw Rlnc.PedersenProtocol Rlnc.BfkwProtocol
set_option linter.unusedSectionVars false

section
variable {σ K : Type} [DecidableEq K] [SliceRandom]

/-- Whatever block the proposer draws first, every receiver holds all of it after some run. -/
def AlwaysDecodable (P : Protocol σ) (config : Config σ K) : Prop :=
  ∀ block, Generated config block → Decodable P config block

/-- From the blocks one by one to all of them, of which there is at least one. -/
theorem always_decodable_of {P : Protocol σ} {config : Config σ K} {Good : Block → Prop} {enough : Prop}
    (each : ∀ block, Generated config block → (Decodable P config block ↔ Good block ∧ enough)) :
    AlwaysDecodable P config ↔ (∀ block, Generated config block → Good block) ∧ enough := by
  constructor
  · intro always
    refine ⟨fun block generated => ((each block generated).mp (always block generated)).1,?_⟩
    have some_block : Generated config (generate_random_block config.block_size 0 (Stream'.const 0)).1 := ⟨_,rfl⟩
    exact ((each _ some_block).mp (always _ some_block)).2
  · rintro ⟨good,enough⟩ block generated
    exact (each block generated).mpr ⟨good block generated,enough⟩

end

/-- A network delivers whatever its proposer draws, in some schedule of some outcomes, exactly when
    every such block fits, receivers can read what is signed, and there is a packet for every
    chunk, each to another receiver (or one chunk, and a packet for every receiver). -/
theorem always_decodable_iff (G S PublicKey Signature G1 G2 K : Type) (N m degree : Nat) [FixedCodec UInt64] [BytesCodec]
    [FixedCodec UInt32] [WrittenCodec UInt32] [FixedCodec Scalar] [LawfulScalarCodec] [Random Scalar] [LawfulRandom Scalar]
    [AddCommGroup G] [DecidableEq G] [Module Scalar G] [Space Scalar G] [LawfulSpace Scalar G] [HashToGroup G] [FixedCodec G]
    [WrittenElement G] [Verifier PublicKey Signature] [Signer S PublicKey Signature] [LawfulSigner S PublicKey Signature]
    [FixedCodec Signature] [WrittenCodec Signature] [AddCommGroup G1] [Module Scalar G1] [AddCommGroup G2] [Module Scalar G2]
    [Space Scalar G2] [LawfulSpace Scalar G2] [HashToGroup G2] [PairingGroup G1 G2] [LawfulPairing Scalar G1 G2] [FixedCodec G2]
    [LawfulElement G2] [DecidableEq K] [SliceRandom] [LawfulSliceRandom] (some_chunk : 0 < N) :
    (∀ (signer : PedersenSigner S) (config : Config (PedersenProtocol Scalar G S PublicKey Signature N) K), N < 2 ^ 32 →
      Deployed (PedersenProtocol.new m (Signer.public_key signer.signer)) signer config degree →
      (AlwaysDecodable (PedersenProtocol.protocol Scalar G S PublicKey Signature N) config ↔
        (∀ block, Generated config block → Block.Fits Scalar block N m) ∧ N ≤ 1024 ∧
          Enough N (config.peers config.source).length degree)) ∧
    ∀ (signer : BfkwSigner Scalar G1) (config : Config (BfkwProtocol Scalar G1 G2 N) K), signer.Keyed G2 →
      Deployed (BfkwProtocol.new m signer.pk) signer config degree →
      (AlwaysDecodable (BfkwProtocol.protocol Scalar G1 G2 N) config ↔
        (∀ block, Generated config block → Block.Fits Scalar block N m ∧ Seals G2 signer N m block) ∧
          Enough N (config.peers config.source).length degree) := by
  constructor
  · intro signer config countable deployed
    refine always_decodable_of fun block generated => ?_
    constructor
    · exact pedersen_needs some_chunk countable deployed
    · rintro ⟨fits,few,enough⟩
      exact pedersen_delivers some_chunk deployed generated fits few enough
  · intro signer config keyed deployed
    refine always_decodable_of fun block generated => ?_
    rw [and_assoc]
    constructor
    · exact bfkw_needs some_chunk deployed
    · rintro ⟨fits,seals,enough⟩
      exact bfkw_delivers some_chunk keyed deployed generated fits seals enough

section
open Rlnc.Reference Rlnc.BlockCodec

private def key_pair : BfkwSigner Scalar Scalar := ⟨scalar 3,scalar 3⟩

/-- A network of nodes with Pedersen commitments, ten chunks and blocks of 2000000 bytes. -/
private def pedersen_network (n degree : Nat) [NeZero n] : Config (PedersenProtocol Scalar Scalar Bytes Bytes UInt64 10) (Fin n) :=
  all_peers (PedersenProtocol.new 6452 [7]) ⟨[7]⟩ n degree 5 2000000

/-- The same with BFKW signatures. -/
private def bfkw_network (n degree : Nat) [NeZero n] : Config (BfkwProtocol Scalar Scalar Scalar 10) (Fin n) :=
  all_peers (BfkwProtocol.new 6452 key_pair.pk) key_pair n degree 5 2000000

/-- With the documented five nodes and the default mesh degree no block is delivered, although all of them fit. -/
theorem documented_undecodable :
    ¬AlwaysDecodable (PedersenProtocol.protocol Scalar Scalar Bytes Bytes UInt64 10) (pedersen_network 5 8) ∧
    ¬AlwaysDecodable (BfkwProtocol.protocol Scalar Scalar Scalar 10) (bfkw_network 5 8) ∧
    compute_m 2000000 10 = .ok 6452 ∧ Holds 10 6452 2000000 := by
  have scarce : ¬Enough 10 4 8 := by decide
  refine ⟨fun always => ?_,fun always => ?_,by decide,by decide⟩
  · obtain ⟨_,_,enough⟩ := pedersen_needs (by decide) (by decide)
      (show Deployed (PedersenProtocol.new 6452 [7]) (⟨[7]⟩ : PedersenSigner Bytes) (pedersen_network 5 8) 8 from
        all_peers_deployed (by decide) (by decide) (by decide)) (always _ ⟨Stream'.const 1,rfl⟩)
    rw [pedersen_network,all_peers_count] at enough
    exact scarce enough
  · obtain ⟨_,_,enough⟩ := bfkw_needs (by decide)
      (show Deployed (BfkwProtocol.new 6452 key_pair.pk) key_pair (bfkw_network 5 8) 8 from
        all_peers_deployed (by decide) (by decide) (by decide)) (always _ ⟨Stream'.const 1,rfl⟩)
    rw [bfkw_network,all_peers_count] at enough
    exact scarce enough

/-- Eleven nodes with a mesh degree of ten deliver every such block; with eight, they do not. -/
theorem always_decodable_iff_eleven :
    AlwaysDecodable (PedersenProtocol.protocol Scalar Scalar Bytes Bytes UInt64 10) (pedersen_network 11 10) ∧
    ¬AlwaysDecodable (PedersenProtocol.protocol Scalar Scalar Bytes Bytes UInt64 10) (pedersen_network 11 8) ∧
    ¬AlwaysDecodable (BfkwProtocol.protocol Scalar Scalar Scalar 10) (bfkw_network 11 8) := by
  have exactly := fun degree => always_decodable_iff Scalar Bytes Bytes UInt64 Scalar Scalar (Fin 11) 10 6452 degree (by decide)
  have pedersen : ∀ degree, Deployed (PedersenProtocol.new 6452 [7]) (⟨[7]⟩ : PedersenSigner Bytes) (pedersen_network 11 degree)
      degree := fun degree => all_peers_deployed (by decide) (by decide) (by decide)
  have bfkw : Deployed (BfkwProtocol.new 6452 key_pair.pk) key_pair (bfkw_network 11 8) 8 :=
    all_peers_deployed (by decide) (by decide) (by decide)
  refine ⟨?_,?_,?_⟩
  · rw [(exactly 10).1 _ _ (by decide) (pedersen 10),pedersen_network,all_peers_count]
    refine ⟨?_,by decide,by decide⟩
    rintro block ⟨rng,rfl⟩
    have size := generate_random_block_size 2000000 0 rng
    rw [fits_iff (by rw [all_peers,size]; decide),all_peers,size]
    decide
  · rw [(exactly 8).1 _ _ (by decide) (pedersen 8),pedersen_network,all_peers_count]
    exact fun all => absurd all.2.2 (by decide)
  · rw [(exactly 8).2 key_pair _ (by unfold BfkwSigner.Keyed; decide +kernel) bfkw,bfkw_network,all_peers_count]
    exact fun all => absurd all.2 (by decide)

end

end Rlnc.Provision
