import Rlnc.Bfkw
import Rlnc.Strategies

/-!
The BFKW strategy of the simulator. The proposer derives the context from the hash
of the block and keeps it for the receivers; every packet of a run verifies under
this context and encodes the block (`bfkw_starts`).
-/
namespace Rlnc
open Rlnc.Panics Rlnc.Combination Rlnc.Wire Rlnc.Packing Rlnc.Coding Rlnc.Draws Rlnc.Blocks Rlnc.Groups Rlnc.Integrity
open Rlnc.Protocols Rlnc.Scalars Rlnc.Bfkw Rlnc.Strategies
set_option linter.unusedSectionVars false

structure BfkwStrategy (G1 G2 : Type) (N : Nat) where
  signer : BfkwSigner Scalar G1
  m : Nat
  ctx_cache : Option (BfkwContext G1 G2)

namespace BfkwStrategy

abbrev BfkwNodeState (G1 G2 : Type) (N : Nat) := CodedNodeState Scalar N (BfkwContext G1 G2) (BfkwProof G2)

/-- Coded chunk and BFKW proof. -/
abbrev BfkwPacket (G2 : Type) (N : Nat) := SignedPacket Scalar N (BfkwProof G2)

section
variable {G1 G2 : Type} [AddCommGroup G1] [Module Scalar G1] [AddCommGroup G2] [Module Scalar G2] [Space Scalar G2]
  [HashToGroup G2] [PairingGroup G1 G2] [FixedCodec G2] [FixedCodec Scalar] [Random Scalar] [FixedCodec UInt64]
  [BytesCodec] [Keccak256] {N : Nat}

def new (m : Nat) (signer : BfkwSigner Scalar G1) : BfkwStrategy G1 G2 N := ⟨signer,m,none⟩

/-- The proposer's decoder at full rank: chunk `i` with the unit vector `i`, signed. -/
def init_decoder (signer : BfkwSigner Scalar G1) (ctx : BfkwContext G1 G2) (original_chunks : List (Chunk Scalar)) :
    Rust (BlockDecoder Scalar N × List (BfkwProof G2)) :=
  original_chunks.zipIdx.foldlM (fun (decoder,proposer_proofs) (orig,i) => do
    let b ← set_at (List.replicate N 0) i 1
    let coded ← CodedChunk.new orig b
    let proof ← signer.sign N ctx i orig.v
    let (decoder,_) ← decoder.add coded
    return (decoder,proposer_proofs ++ [proof])) (BlockDecoder.new,[])

def init_proposer (self : BfkwStrategy G1 G2 N) (block : Block) (num_peers : Nat) (rng : Rng) :
    Rust ((BfkwStrategy G1 G2 N × BfkwNodeState G1 G2 N × List (BfkwPacket G2 N) × Nat) × Rng) := do
  let block_id := block.hash
  let ((coded_chunks,byte_len),rng) ← (block.encode_chunks N self.m num_peers rng :
    Rust ((List (CodedChunk Scalar N) × Nat) × Rng))
  let (original_chunks,_) ← (block.as_chunks N self.m : Rust (List (Chunk Scalar) × Nat))
  let chunk_refs := original_chunks.map Chunk.v
  let ctx : BfkwContext G1 G2 := self.signer.setup_context N block_id.val self.m
  let packets ← coded_chunks.mapM fun chunk => do
    let proof ← self.signer.sign_coded N ctx chunk_refs chunk.b
    return SignedPacket.mk chunk proof
  let (decoder,proposer_proofs) ← init_decoder self.signer ctx original_chunks
  return (({ self with ctx_cache := some ctx },⟨decoder,proposer_proofs,ctx⟩,packets,byte_len),rng)

def init_receiver (self : BfkwStrategy G1 G2 N) : Rust (BfkwNodeState G1 G2 N) := do
  let ctx ← expect self.ctx_cache "init_proposer must be called before init_receiver"
  return ⟨BlockDecoder.new,[],ctx⟩

def receive (state : BfkwNodeState G1 G2 N) (packet : BfkwPacket G2 N) :
    Rust (BfkwNodeState G1 G2 N × Except String Bool) :=
  state.receive (BfkwScheme Scalar G1 G2 N) packet

def forward (state : BfkwNodeState G1 G2 N) (num_peers : Nat) (rng : Rng) : Rust (List (BfkwPacket G2 N) × Rng) :=
  CodedNodeState.forward (BfkwScheme Scalar G1 G2 N) state num_peers rng

/-- Data scalars, coefficients and a signature. -/
def packet_size (self : BfkwStrategy G1 G2 N) (_packet : BfkwPacket G2 N) : Nat :=
  32 * self.m + 32 * N + FixedCodec.SIZE G2

def decode (state : BfkwNodeState G1 G2 N) (byte_len : Nat) : Rust Block := CodedNodeState.decode state byte_len

variable (G1 G2 N) in
def strategy : Strategy (BfkwStrategy G1 G2 N) (BfkwNodeState G1 G2 N) (BfkwPacket G2 N) where
  name := "BFKW"
  forward_condition _ := .UntilDecode
  init_proposer := BfkwStrategy.init_proposer
  init_receiver := BfkwStrategy.init_receiver
  receive _ := BfkwStrategy.receive
  can_decode _ state := state.decoder.is_complete
  forward _ := BfkwStrategy.forward
  packet_size := BfkwStrategy.packet_size
  decode _ := BfkwStrategy.decode

/-! ### Packets of a run -/

variable [LawfulSpace Scalar G2] [LawfulPairing Scalar G1 G2] {m : Nat}

/-- A packet that verifies in the context of the block and encodes the block. -/
def OfBlock (ctx : BfkwContext G1 G2) (m : Nat) (chunks : List (Chunk Scalar)) (p : BfkwPacket G2 N) : Prop :=
  Verifies (BfkwScheme Scalar G1 G2 N) ctx p ∧ Encodes m chunks p.chunk

theorem of_block_hereditary {sk : Scalar} {ctx : BfkwContext G1 G2} (keyed : Keyed m N sk ctx)
    {chunks : List (Chunk Scalar)} (count : chunks.length = N) :
    Hereditary (BfkwScheme Scalar G1 G2 N) ctx m chunks (OfBlock ctx m chunks) where
  verifies p genuine := genuine.1
  encodes p genuine := genuine.2
  mixes packets decoder proofs stored some_packet genuine alphas long := by
    obtain ⟨chunk,ran,encoded⟩ := mix_encodes stored some_packet count (fun p member => (genuine p member).2) long
    obtain ⟨chunk',proof,ran',combined,_,verified⟩ := forwarded_verifies keyed stored some_packet long
    obtain rfl : chunk = chunk' := Except.ok.inj (ran.symm.trans ran')
    exact ⟨chunk,proof,ran,combined,verified,encoded⟩

omit [Keccak256] in
/-- The proposer's decoder is filled with the chunks of the block. -/
theorem init_decoder_filled (signer : BfkwSigner Scalar G1) {ctx : BfkwContext G1 G2}
    (points : ctx.hash_points.length = m + N) {chunks : List (Chunk Scalar)} (count : chunks.length = N)
    (sizes : ∀ v ∈ chunks, v.v.length = m) :
    ∃ (decoder : BlockDecoder Scalar N) (proofs : List (BfkwProof G2)),
      BfkwStrategy.init_decoder signer ctx chunks = .ok (decoder,proofs) ∧ Filled m chunks chunks.length decoder := by
  obtain ⟨⟨decoder,proofs⟩,ran,filled⟩ := fold_keeps (fun (state : BlockDecoder Scalar N × List (BfkwProof G2))
      (c : Chunk Scalar × Nat) => do
      let b ← set_at (List.replicate N 0) c.2 1
      let coded ← CodedChunk.new c.1 b
      let proof ← signer.sign N ctx c.2 c.1.v
      let (decoder,_) ← state.1.add coded
      return (decoder,state.2 ++ [proof])) (fun passed state => Filled m chunks passed.length state.1) chunks.zipIdx
    (BlockDecoder.new,[]) Filled.start (by
      rintro before ⟨orig,i⟩ after ⟨decoder,proofs⟩ split filled
      obtain ⟨inside,rfl,rfl⟩ := enumerated split
      have small : before.length < (List.replicate N (0 : Scalar)).length := by simpa [count] using inside
      obtain ⟨coded,made,decoder',grew,ran,filled'⟩ := filled.add count sizes inside
      obtain ⟨proof,signed⟩ : ∃ proof, signer.sign N ctx before.length chunks[before.length].v = .ok proof :=
        ⟨_,sign_spec signer points (sizes _ (List.getElem_mem inside)) (count ▸ inside)⟩
      exact ⟨(decoder',proofs ++ [proof]),by simp only [set_at_of small,ok_bind,made,signed,ran,pure_eq],
        by simpa using filled'⟩)
  rw [List.length_zipIdx] at filled
  exact ⟨decoder,proofs,ran,filled⟩

/-- The BFKW strategy starts a faithful run for every block that fits. -/
theorem bfkw_starts [LawfulBlockCodec] [LawfulScalarCodec] (self : BfkwStrategy G1 G2 N) (keyed : self.signer.Keyed G2)
    {block : Block} (small : block.transactions.length ≤ MAX_TRANSACTIONS_BYTES)
    (fits : Block.Fits Scalar block N self.m) : Starts (strategy G1 G2 N) self block := by
  intro count rng
  have some_chunk := Nat.pos_of_mul_pos_right fits.slots
  obtain ⟨ctx,named⟩ : ∃ ctx : BfkwContext G1 G2, ctx = self.signer.setup_context N block.hash.val self.m := ⟨_,rfl⟩
  have context : Keyed self.m N self.signer.sk ctx := by
    rw [named]
    exact setup_keyed self.signer keyed block.hash.val
  obtain ⟨chunks,split,parts⟩ := Block.as_chunks_spec (F := Scalar) block fits
  obtain ⟨coded,rest,encoded,_,each⟩ := Block.encode_chunks_spec fits split count rng
  obtain ⟨decoder,proofs,filled,full⟩ := init_decoder_filled (N := N) self.signer context.points parts.count parts.sizes
  obtain ⟨complete,decodes⟩ := full.decodes parts.count parts.sizes
  obtain ⟨packets,signed,genuine⟩ := map_keeps (fun chunk => do
      let proof ← self.signer.sign_coded N ctx (chunks.map Chunk.v) chunk.b
      return SignedPacket.mk chunk proof) (fun _ (p : BfkwPacket G2 N) => OfBlock ctx self.m chunks p) coded (by
    intro chunk member
    obtain ⟨proof,ran,verified⟩ := signed_verifies self.signer context parts.count parts.sizes (each chunk member)
    exact ⟨⟨chunk,proof⟩,by simp only [ran,ok_bind,pure_eq],verified,each chunk member⟩)
  have read := Block.from_chunks_as_chunks small parts
  refine ⟨{ self with ctx_cache := some ctx },⟨decoder,proofs,ctx⟩,packets,block.serialize.length,rest,
    ⟨BlockDecoder.new,[],ctx⟩,?_,rfl,?_,Holds (BfkwScheme Scalar G1 G2 N) ctx self.m (OfBlock ctx self.m chunks),
    fun s => 1 ≤ s.decoder.rank,OfBlock ctx self.m chunks,?_,Holds.fresh,?_,?_⟩
  · simp only [strategy,BfkwStrategy.init_proposer,encoded,ok_bind,split,← named]
    rw [signed]
    simp only [ok_bind,filled,pure_eq]
  · simp only [strategy,BfkwStrategy.decode,CodedNodeState.decode,decodes,ok_bind,read]
  · exact coded_faithful rfl (fun _ => rfl) rfl rfl (of_block_hereditary context parts.count) small some_chunk parts
  · exact new_incomplete some_chunk
  · intro p member
    obtain ⟨i,inside,rfl⟩ := List.getElem_of_mem member
    exact (List.forall₂_iff_get.mp genuine).2 i (genuine.length_eq ▸ inside) inside

end

end BfkwStrategy

end Rlnc
