import Rlnc.BlockCodec
import Rlnc.Cuts
import Rlnc.Delivery

/-!
What the proposer does in every run. It can propose its next block as long as one is left, or it
panics on its first: with a coded protocol it needs a signing key, and chunks that hold a block of
the configured size. Of each block that it proposed it has sent one packet to each of its targets
(`proposer_proceeds`).
-/
namespace Rlnc.Proposing
open Rlnc.Panics Rlnc.Combination Rlnc.Wire Rlnc.Packing Rlnc.Coding Rlnc.Draws Rlnc.Blocks Rlnc.Groups Rlnc.Integrity
open Rlnc.Scalars Rlnc.Protocols Rlnc.Actor Rlnc.Network Rlnc.Schedules Rlnc.Decodability Rlnc.Delivery Rlnc.Cuts
open Rlnc.Amplification (between_blocks_frame)
open Rlnc.BlockCodec (SliceSize DocumentedCodec)
open Rlnc.Pedersen Rlnc.Bfkw Rlnc.PedersenProtocol Rlnc.BfkwProtocol
set_option linter.unusedSectionVars false

/-! ### A proposer in a network -/

section
variable {σ K : Type} [DecidableEq K] [SliceRandom]

/-- What the protocol of a proposer keeps from block to block, and which blocks it can propose. -/
structure Proposable (P : Protocol σ) (Kept : σ → Prop) (fits : Block → Prop) : Prop where
  returns : ∀ s block count rng, Kept s → ((∃ result, P.propose s block count rng = .ok result) ↔ fits block)
  keeps : ∀ s block count rng t proposal rest, Kept s → P.propose s block count rng = .ok ((t,proposal),rest) →
    Kept t ∧ proposal.packets.length = count
  reset : ∀ s, Kept s → Kept (P.reset s)

variable {P : Protocol σ} {Kept : σ → Prop} {fits : Block → Prop} {config : Config σ K} {net : Network σ K}

theorem Proposable.between (proposable : Proposable P Kept fits) {self : NodeActor σ K} (kept : Kept self.protocol)
    (block_num : Nat) : Kept (between_blocks P self block_num).protocol := by
  rcases between_blocks_protocol P self block_num with same | reset
  · rw [same]; exact kept
  · rw [reset]; exact proposable.reset _ kept

/-- A turn of the proposer returns when its protocol can propose the block that is generated. -/
theorem Proposable.propose_block (proposable : Proposable P Kept fits) (block_size block_num : Nat) {self : NodeActor σ K}
    (kept : Kept self.protocol) :
    (∃ result, propose_block P block_size self block_num = .ok result) ↔
      fits (generate_random_block block_size block_num (between_blocks P self block_num).rng).1 := by
  rw [← proposable.returns _ _ (between_blocks P self block_num).mesh_degree
    (generate_random_block block_size block_num (between_blocks P self block_num).rng).2 (proposable.between kept block_num)]
  constructor
  · rintro ⟨⟨next,sent⟩,ran⟩
    simp only [Actor.propose_block,bind_ok] at ran
    obtain ⟨result,made,_⟩ := ran
    exact ⟨result,made⟩
  · rintro ⟨⟨⟨t,proposal⟩,rest⟩,made⟩
    simp only [Actor.propose_block,made,ok_bind]
    exact ⟨_,rfl⟩

/-- It sends one packet to each of as many peers as it can. -/
theorem Proposable.targets [LawfulSliceRandom] (proposable : Proposable P Kept fits) {block_size block_num : Nat}
    {self next : NodeActor σ K} {sent : Proposed K} (kept : Kept self.protocol)
    (ran : Actor.propose_block P block_size self block_num = .ok (next,sent)) :
    Kept next.protocol ∧ sent.packets.length = min self.mesh_degree self.peers.length := by
  obtain ⟨degree,peers⟩ := between_blocks_frame P self block_num
  simp only [Actor.propose_block,bind_ok] at ran
  obtain ⟨⟨⟨t,proposal⟩,rest⟩,made,ran⟩ := ran
  obtain ⟨kept',counted⟩ := proposable.keeps _ _ _ _ _ _ _ (proposable.between kept block_num) made
  simp only [NodeActor.select_peers,pure_eq,Except.ok.injEq,Prod.mk.injEq] at ran
  obtain ⟨rfl,rfl⟩ := ran
  refine ⟨kept',?_⟩
  have all : self.peers.filter (fun p => decide ((none : Option K) ≠ some p)) = self.peers :=
    List.filter_eq_self.mpr fun p _ => by simp
  have shuffled := (LawfulSliceRandom.perm rest.head self.peers).length_eq
  rw [degree] at counted
  simp only [degree,peers,all,List.length_zip,List.length_take,List.length_map,shuffled,counted]
  omega

/-- The proposer is where its run has brought it. -/
structure Served (Kept : σ → Prop) (config : Config σ K) (net : Network σ K) : Prop where
  kept : Kept net.proposer.protocol
  frugal : Frugal config net
  each : ∀ n < net.blocks.length, (sent_by config.source n net.sent).length = capacity config

variable [LawfulSliceRandom]

theorem Served.propose (proposable : Proposable P Kept fits) (limited : config.num_blocks config.source < 2 ^ 64)
    (served : Served Kept config net) {next : Network σ K} (ran : net.propose P config = some next) :
    Served Kept config next := by
  have bound := served.frugal.count
  obtain ⟨proposed,made,blocks,_,added,others⟩ := sent_by_propose (by omega) ran
  obtain ⟨kept,targets⟩ := proposable.targets served.kept made
  refine ⟨kept,served.frugal.propose limited ran,fun n before => ?_⟩
  rw [blocks,List.length_append,List.length_singleton] at before
  by_cases new : n = net.blocks.length
  · subst new
    rw [added,served.frugal.unproposed _ le_rfl,targets,served.frugal.degree,served.frugal.peers]
    simp [capacity]
  · rw [others n new]
    exact served.each n (by omega)

theorem run_served (proposable : Proposable P Kept fits) (start : Kept (config.protocol config.source))
    (limited : config.num_blocks config.source < 2 ^ 64) {actions : List (Action K)}
    (ran : config.start.run P config actions = some net) : Served Kept config net := by
  refine Network.run_keeps P config (fun net action next served stepped => ?_) ?_ ran
  · cases action with
    | propose => exact served.propose proposable limited stepped
    | deliver k i =>
      obtain ⟨e,_,receives,_,rfl⟩ := Network.deliver_cases stepped
      have same : ∀ n, sent_by config.source n (net.deliver P config k e).sent = sent_by config.source n net.sent :=
        sent_by_deliver receives e
      obtain ⟨degree,peers,few,unproposed,count⟩ := served.frugal
      refine ⟨served.kept,⟨degree,peers,fun n => ?_,fun n later => ?_,count⟩,fun n before => ?_⟩
      · rw [same]; exact few n
      · rw [same]; exact unproposed n later
      · rw [same]; exact served.each n before
  · exact ⟨start,⟨rfl,rfl,fun _ => Nat.zero_le _,fun _ _ => rfl,Nat.zero_le _⟩,by simp [Config.start]⟩

/-- In every run the proposer can propose its next block exactly when it is `able` to, and of each
    block it proposed it has sent as many packets as it has targets. -/
def Proceeds (P : Protocol σ) (config : Config σ K) (able : Prop) : Prop :=
  ∀ actions net, config.start.run P config actions = some net →
    (net.blocks.length < config.num_blocks config.source → ((∃ next, net.step P config .propose = some next) ↔ able)) ∧
    ∀ n < net.blocks.length, (sent_by config.source n net.sent).length = capacity config

theorem Proposable.proceeds (proposable : Proposable P Kept fits) (start : Kept (config.protocol config.source))
    (limited : config.num_blocks config.source < 2 ^ 64) {able : Prop}
    (exactly : ∀ block : Block, block.transactions.length = config.block_size → (fits block ↔ able)) :
    Proceeds P config able := by
  intro actions net ran
  have served := run_served proposable start limited ran
  refine ⟨fun more => ?_,served.each⟩
  rw [← exactly _ (generate_random_block_size config.block_size net.blocks.length _),
    ← proposable.propose_block config.block_size net.blocks.length served.kept]
  simp only [Network.step,Network.propose,if_pos more]
  cases made : Actor.propose_block P config.block_size net.proposer net.blocks.length with
  | error p => simp
  | ok result => simp

end

/-! ### The three protocols -/

/-- The chunks hold a block with as many bytes of transactions. -/
def Holds (N m size : Nat) : Prop := (96 + Varint.size size + size + 30) / 31 ≤ N * m

instance (N m size : Nat) : Decidable (Holds N m size) := inferInstanceAs (Decidable (_ ≤ _))

section
variable [FixedCodec UInt64] [BytesCodec] [SliceSize] [DocumentedCodec] [FixedCodec Scalar] [LawfulScalarCodec] [Random Scalar]
  {N m : Nat}

theorem fits_iff {block : Block} (writable : block.transactions.length < 2 ^ 32) :
    Block.Fits Scalar block N m ↔ Holds N m block.transactions.length := by
  obtain ⟨written,_⟩ := BlockCodec.length_write block writable
  show max 1 ((block.write.length + 31 - 1) / 31) ≤ N * m ↔ _
  rw [written,Holds]
  omega

omit [SliceSize] [DocumentedCodec] [FixedCodec Scalar] [LawfulScalarCodec] [Random Scalar] in
theorem baseline_proposable : Proposable BaselineProtocol.protocol (fun _ => True) (fun _ => True) where
  returns _ _ _ _ _ := ⟨fun _ => trivial,fun _ => ⟨_,rfl⟩⟩
  keeps s block count rng t proposal rest _ ran := by
    obtain ⟨same,_⟩ := ok_pair ran
    obtain ⟨_,rfl⟩ := Prod.mk.inj same
    exact ⟨trivial,List.length_replicate⟩
  reset _ _ := trivial

section
variable {G S PublicKey Signature : Type} [AddCommGroup G] [DecidableEq G] [Module Scalar G] [Space Scalar G] [HashToGroup G]
  [FixedCodec G] [Verifier PublicKey Signature] [Signer S PublicKey Signature] [FixedCodec Signature] [FixedCodec UInt32]

omit [SliceSize] [DocumentedCodec] in
/-- With Pedersen commitments a block can be proposed if it fits, by a node with a key. -/
theorem pedersen_proposable (signer : Option (PedersenSigner S)) :
    Proposable (PedersenProtocol.protocol Scalar G S PublicKey Signature N)
      (fun s => s.signer = signer ∧ s.ctx.key = CommitmentKey.canonical m ∧ s.m = m)
      (fun block => signer.isSome ∧ Block.Fits Scalar block N m) where
  returns s block count rng kept := by
    obtain ⟨rfl,key,rfl⟩ := kept
    constructor
    · rintro ⟨⟨⟨t,proposal⟩,rest⟩,ran⟩
      simp only [PedersenProtocol.protocol,PedersenProtocol.propose,bind_ok] at ran
      obtain ⟨_,_,⟨chunks,length⟩,split,signer,known,_⟩ := ran
      refine ⟨?_,(Block.as_chunks_ok split).1⟩
      cases signs : s.signer with
      | some _ => rfl
      | none =>
        rw [signs] at known
        cases known
    · rintro ⟨some_signer,fits⟩
      obtain ⟨signer,signs⟩ := Option.isSome_iff_exists.mp some_signer
      obtain ⟨chunks,split,parts⟩ := Block.as_chunks_spec (F := Scalar) block fits
      obtain ⟨coded,rest,encoded,_⟩ := Block.encode_chunks_spec fits split count rng
      have width : s.ctx.key.generators.length = s.m := by
        rw [key]
        simp [CommitmentKey.canonical,CommitmentKey.deterministic]
      obtain ⟨proof,signed⟩ : ∃ proof : PedersenProof G Signature, signer.sign_block s.ctx.key (chunks.map Chunk.v) = .ok proof :=
        ⟨_,sign_block_runs signer s.ctx.key fun v member => (parts.sizes v member).trans width.symm⟩
      obtain ⟨⟨decoder,proofs⟩,filled⟩ := pedersen_decoder_runs parts.count parts.sizes proof
      simp only [PedersenProtocol.protocol,PedersenProtocol.propose,encoded,ok_bind,split,signs,expect,signed,filled,pure_eq]
      exact ⟨_,rfl⟩
  keeps s block count rng t proposal rest kept ran := by
    simp only [PedersenProtocol.protocol,PedersenProtocol.propose,bind_ok] at ran
    obtain ⟨⟨⟨coded,byte_len⟩,rng'⟩,encoded,⟨chunks,length⟩,_,signer',_,proof,_,⟨decoder,proofs⟩,_,ran⟩ := ran
    simp only [pure_eq,Except.ok.injEq,Prod.mk.injEq] at ran
    obtain ⟨⟨rfl,rfl⟩,rfl⟩ := ran
    obtain ⟨_,_,counted,_⟩ := Block.encode_chunks_ok encoded
    exact ⟨kept,by rw [List.length_map,counted]⟩
  reset s kept := kept

end

section
variable {G1 G2 : Type} [AddCommGroup G1] [Module Scalar G1] [AddCommGroup G2] [Module Scalar G2] [Space Scalar G2]
  [LawfulSpace Scalar G2] [HashToGroup G2] [PairingGroup G1 G2] [LawfulPairing Scalar G1 G2] [FixedCodec G2]

omit [SliceSize] [DocumentedCodec] in
/-- With BFKW signatures a block can be proposed if it fits, by a node with a key. -/
theorem bfkw_proposable (signer : Option (BfkwSigner Scalar G1)) :
    Proposable (BfkwProtocol.protocol Scalar G1 G2 N) (fun s => s.signer = signer ∧ s.m = m)
      (fun block => signer.isSome ∧ Block.Fits Scalar block N m) where
  returns s block count rng kept := by
    obtain ⟨rfl,rfl⟩ := kept
    constructor
    · rintro ⟨⟨⟨t,proposal⟩,rest⟩,ran⟩
      simp only [BfkwProtocol.protocol,BfkwProtocol.propose,bind_ok] at ran
      obtain ⟨_,_,⟨chunks,length⟩,split,signer,known,_⟩ := ran
      refine ⟨?_,(Block.as_chunks_ok split).1⟩
      cases signs : s.signer with
      | some _ => rfl
      | none =>
        rw [signs] at known
        cases known
    · rintro ⟨some_signer,fits⟩
      obtain ⟨signer,signs⟩ := Option.isSome_iff_exists.mp some_signer
      obtain ⟨chunks,split,parts⟩ := Block.as_chunks_spec (F := Scalar) block fits
      obtain ⟨coded,rest,encoded,_⟩ := Block.encode_chunks_spec fits split count rng
      obtain ⟨context,named⟩ : ∃ context : BfkwContext G1 G2,
          context = signer.setup_context N (to_be 8 block.number.toNat) s.m := ⟨_,rfl⟩
      have points : context.hash_points.length = s.m + N := by
        simp [named,BfkwSigner.setup_context,derive_hash_points]
      obtain ⟨⟨decoder,proofs⟩,filled⟩ := bfkw_decoder_runs signer points parts.count parts.sizes
      simp only [BfkwProtocol.protocol,BfkwProtocol.propose,encoded,ok_bind,split,signs,expect,← named]
      rw [sealed_packets signer points parts.count parts.sizes coded]
      simp only [ok_bind,filled,pure_eq]
      exact ⟨_,rfl⟩
  keeps s block count rng t proposal rest kept ran := by
    simp only [BfkwProtocol.protocol,BfkwProtocol.propose,bind_ok] at ran
    obtain ⟨⟨⟨coded,byte_len⟩,rng'⟩,encoded,⟨chunks,length⟩,_,signer',_,packets,sent,⟨decoder,proofs⟩,_,ran⟩ := ran
    simp only [pure_eq,Except.ok.injEq,Prod.mk.injEq] at ran
    obtain ⟨⟨rfl,rfl⟩,rfl⟩ := ran
    obtain ⟨_,_,counted,_⟩ := Block.encode_chunks_ok encoded
    exact ⟨kept,(mapM_ok sent).length_eq.symm.trans counted⟩
  reset s kept := kept

end

end

/-- The proposer of each of the three protocols proposes all its blocks, or panics on the first: a coded
    one needs a key, and chunks that hold a block of the configured size. -/
theorem proposer_proceeds (G S PublicKey Signature G1 G2 K : Type) (N m : Nat) [FixedCodec UInt64] [BytesCodec] [SliceSize]
    [DocumentedCodec] [FixedCodec Scalar] [LawfulScalarCodec] [Random Scalar] [AddCommGroup G] [DecidableEq G]
    [Module Scalar G] [Space Scalar G] [HashToGroup G] [FixedCodec G] [Verifier PublicKey Signature]
    [Signer S PublicKey Signature] [FixedCodec Signature] [FixedCodec UInt32] [AddCommGroup G1] [Module Scalar G1]
    [AddCommGroup G2] [Module Scalar G2] [Space Scalar G2] [LawfulSpace Scalar G2] [HashToGroup G2] [PairingGroup G1 G2]
    [LawfulPairing Scalar G1 G2] [FixedCodec G2] [DecidableEq K] [SliceRandom] [LawfulSliceRandom]
    (proposer_pk : PublicKey) (bfkw_pk : G1) (signer : Option (PedersenSigner S)) (bfkw_signer : Option (BfkwSigner Scalar G1)) :
    (∀ config : Config (PedersenProtocol Scalar G S PublicKey Signature N) K, config.block_size < 2 ^ 32 →
      config.num_blocks config.source < 2 ^ 64 → config.protocol config.source = PedersenProtocol.new m proposer_pk signer →
      Proceeds (PedersenProtocol.protocol Scalar G S PublicKey Signature N) config
        (signer.isSome ∧ Holds N m config.block_size)) ∧
    (∀ config : Config (BfkwProtocol Scalar G1 G2 N) K, config.block_size < 2 ^ 32 →
      config.num_blocks config.source < 2 ^ 64 → config.protocol config.source = BfkwProtocol.new m bfkw_pk bfkw_signer →
      Proceeds (BfkwProtocol.protocol Scalar G1 G2 N) config (bfkw_signer.isSome ∧ Holds N m config.block_size)) ∧
    ∀ config : Config BaselineProtocol K, config.num_blocks config.source < 2 ^ 64 →
      Proceeds BaselineProtocol.protocol config True := by
  refine ⟨?_,?_,?_⟩
  · intro config writable limited fresh
    refine (pedersen_proposable (m := m) signer).proceeds (by rw [fresh]; exact ⟨rfl,rfl,rfl⟩) limited fun block size => ?_
    rw [fits_iff (by rw [size]; exact writable),size]
  · intro config writable limited fresh
    refine (bfkw_proposable (m := m) bfkw_signer).proceeds (by rw [fresh]; exact ⟨rfl,rfl⟩) limited fun block size => ?_
    rw [fits_iff (by rw [size]; exact writable),size]
  · exact fun config limited => baseline_proposable.proceeds trivial limited fun _ _ => Iff.rfl

section
open Rlnc.Reference Rlnc.BlockCodec

/-- Two nodes, of which the first proposes three blocks with a thousand bytes of transactions. -/
private def pair {σ : Type} (protocol : σ) : Config σ Bool :=
  ⟨false,fun _ => protocol,fun k => [!k],fun _ => 1,fun _ => Stream'.const 1,fun _ => 3,1000⟩

private def pedersen_pair (m : Nat) : Config (PedersenProtocol Scalar Scalar Bytes Bytes UInt64 10) Bool :=
  pair (PedersenProtocol.new m [7] (some ⟨[7]⟩))

private def keyless_pair : Config (BfkwProtocol Scalar Scalar Scalar 10) Bool := pair (BfkwProtocol.new 4 (scalar 3) none)

/-- Ten chunks of four elements hold such blocks and ten of three do not, and without a key there is no proposal. -/
theorem proposer_proceeds_pair :
    (∃ next, (pedersen_pair 4).start.step (PedersenProtocol.protocol Scalar Scalar Bytes Bytes UInt64 10) (pedersen_pair 4)
      .propose = some next) ∧
    (¬∃ next, (pedersen_pair 3).start.step (PedersenProtocol.protocol Scalar Scalar Bytes Bytes UInt64 10) (pedersen_pair 3)
      .propose = some next) ∧
    ¬∃ next, keyless_pair.start.step (BfkwProtocol.protocol Scalar Scalar Scalar 10) keyless_pair .propose = some next := by
  have proceeds := fun m => proposer_proceeds Scalar Bytes Bytes UInt64 Scalar Scalar Bool 10 m [7] (scalar 3)
    (some ⟨[7]⟩) none
  refine ⟨?_,?_,?_⟩
  · exact (((proceeds 4).1 (pedersen_pair 4) (by decide) (by decide) rfl [] _ rfl).1 (by decide)).mpr (by decide)
  · rw [((proceeds 3).1 (pedersen_pair 3) (by decide) (by decide) rfl [] _ rfl).1 (by decide)]
    decide
  · rw [((proceeds 4).2.1 keyless_pair (by decide) (by decide) rfl [] _ rfl).1 (by decide)]
    decide

end

end Rlnc.Proposing
