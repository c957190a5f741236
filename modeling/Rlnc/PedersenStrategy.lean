import Rlnc.Pedersen
import Rlnc.Strategies

/-!
The Pedersen strategy of the simulator. The proposer keeps one proof for all its
chunks and never forwards again; every packet of a run carries this proof and
encodes the block (`pedersen_starts`).
-/
namespace Rlnc
open Rlnc.Panics Rlnc.Combination Rlnc.Wire Rlnc.Packing Rlnc.Coding Rlnc.Draws Rlnc.Blocks Rlnc.Groups Rlnc.Integrity
open Rlnc.Protocols Rlnc.Scalars Rlnc.Pedersen Rlnc.Strategies
set_option linter.unusedSectionVars false

structure PedersenStrategy (G S : Type) (N : Nat) where
  ck : CommitmentKey G
  signer : PedersenSigner S
  m : Nat

namespace PedersenStrategy

abbrev PedersenNodeState (G PublicKey Signature : Type) (N : Nat) :=
  CodedNodeState Scalar N (PedersenContext G PublicKey) (PedersenProof G Signature)

/-- Coded chunk and Pedersen proof. -/
abbrev PedersenPacket (G Signature : Type) (N : Nat) := SignedPacket Scalar N (PedersenProof G Signature)

section
variable {G S PublicKey Signature : Type} [AddCommGroup G] [DecidableEq G] [Module Scalar G] [Space Scalar G]
  [HashToGroup G] [FixedCodec G] [Verifier PublicKey Signature] [Signer S PublicKey Signature] [FixedCodec Signature]
  [FixedCodec Scalar] [Random Scalar] [FixedCodec UInt64] [BytesCodec] {N : Nat}

def new (m : Nat) (signer : PedersenSigner S) : PedersenStrategy G S N := ⟨CommitmentKey.canonical m,signer,m⟩

def context (self : PedersenStrategy G S N) : PedersenContext G PublicKey := self.signer.context self.ck

/-- The proposer's decoder at full rank: chunk `i` with the unit vector `i`. -/
def init_decoder (original_chunks : List (Chunk Scalar)) : Rust (BlockDecoder Scalar N) :=
  original_chunks.zipIdx.foldlM (fun decoder (orig,i) => do
    let b ← set_at (List.replicate N 0) i 1
    let coded ← CodedChunk.new orig b
    let (decoder,_) ← decoder.add coded
    return decoder) BlockDecoder.new

def init_proposer (self : PedersenStrategy G S N) (block : Block) (num_peers : Nat) (rng : Rng) :
    Rust ((PedersenStrategy G S N × PedersenNodeState G PublicKey Signature N ×
      List (PedersenPacket G Signature N) × Nat) × Rng) := do
  let ((coded_chunks,byte_len),rng) ← (block.encode_chunks N self.m num_peers rng :
    Rust ((List (CodedChunk Scalar N) × Nat) × Rng))
  let (original_chunks,_) ← (block.as_chunks N self.m : Rust (List (Chunk Scalar) × Nat))
  let chunk_refs := original_chunks.map Chunk.v
  let proof : PedersenProof G Signature ← self.signer.sign_block self.ck chunk_refs
  let packets := coded_chunks.map fun chunk => SignedPacket.mk chunk proof
  let decoder ← init_decoder original_chunks
  let state := ⟨decoder,[proof],self.context⟩
  return ((self,state,packets,byte_len),rng)

def init_receiver (self : PedersenStrategy G S N) : Rust (PedersenNodeState G PublicKey Signature N) :=
  .ok ⟨BlockDecoder.new,[],self.context⟩

def receive (state : PedersenNodeState G PublicKey Signature N) (packet : PedersenPacket G Signature N) :
    Rust (PedersenNodeState G PublicKey Signature N × Except String Bool) :=
  state.receive (PedersenScheme Scalar G PublicKey Signature N) packet

def forward (state : PedersenNodeState G PublicKey Signature N) (num_peers : Nat) (rng : Rng) :
    Rust (List (PedersenPacket G Signature N) × Rng) :=
  CodedNodeState.forward (PedersenScheme Scalar G PublicKey Signature N) state num_peers rng

/-- Data scalars, coefficients, `N` commitments and a signature. -/
def packet_size (self : PedersenStrategy G S N) (_packet : PedersenPacket G Signature N) : Nat :=
  32 * self.m + 32 * N + FixedCodec.SIZE G * N + FixedCodec.SIZE Signature

def decode (state : PedersenNodeState G PublicKey Signature N) (byte_len : Nat) : Rust Block :=
  CodedNodeState.decode state byte_len

variable (G S PublicKey Signature N) in
def strategy : Strategy (PedersenStrategy G S N) (PedersenNodeState G PublicKey Signature N)
    (PedersenPacket G Signature N) where
  name := "Pedersen"
  forward_condition _ := .UntilDecode
  init_proposer := PedersenStrategy.init_proposer
  init_receiver := PedersenStrategy.init_receiver
  receive _ := PedersenStrategy.receive
  can_decode _ state := state.decoder.is_complete
  forward _ := PedersenStrategy.forward
  packet_size := PedersenStrategy.packet_size
  decode _ := PedersenStrategy.decode

/-! ### Packets of a run -/

variable [LawfulSpace Scalar G] [LawfulSigner S PublicKey Signature] {m : Nat}

/-- The proof of the proposer for a block with these chunks. -/
def block_proof (signer : PedersenSigner S) (key : CommitmentKey G) (chunks : List (Chunk Scalar)) :
    PedersenProof G Signature :=
  ⟨commitments key chunks,Signer.sign signer.signer PEDERSEN_SIG_NS (serialize_commitments (commitments key chunks))⟩

/-- A packet with the proof of the proposer that encodes the block. -/
def OfBlock (signer : PedersenSigner S) (key : CommitmentKey G) (m : Nat) (chunks : List (Chunk Scalar))
    (p : PedersenPacket G Signature N) : Prop :=
  p.proof = block_proof signer key chunks ∧ Encodes m chunks p.chunk

theorem of_block_verifies {signer : PedersenSigner S} {key : CommitmentKey G} {chunks : List (Chunk Scalar)}
    (width : key.generators.length = m) (count : chunks.length = N) (sizes : ∀ v ∈ chunks, v.v.length = m)
    {p : PedersenPacket G Signature N} (genuine : OfBlock signer key m chunks p) :
    Verifies (PedersenScheme Scalar G PublicKey Signature N) (signer.context key) p := by
  obtain ⟨chunk,proof⟩ := p
  obtain ⟨rfl,encoded⟩ := genuine
  rw [verifies_iff chunk (encoded.width.trans width.symm)]
  exact ⟨LawfulSigner.verify_sign _ _ _,encodes_matches width count sizes encoded⟩

theorem of_block_hereditary {signer : PedersenSigner S} {key : CommitmentKey G} {chunks : List (Chunk Scalar)}
    (width : key.generators.length = m) (count : chunks.length = N) (sizes : ∀ v ∈ chunks, v.v.length = m) :
    Hereditary (PedersenScheme Scalar G PublicKey Signature N) (signer.context key) m chunks (OfBlock signer key m chunks) where
  verifies p genuine := of_block_verifies width count sizes genuine
  encodes p genuine := genuine.2
  mixes packets decoder proofs stored some_packet genuine alphas long := by
    obtain ⟨chunk,ran,encoded⟩ := mix_encodes stored some_packet count (fun p member => (genuine p member).2) long
    obtain ⟨first,rest,rfl⟩ := List.exists_cons_of_ne_nil some_packet
    refine ⟨chunk,first.proof,ran,?_,(genuine first (by simp)).1,encoded⟩
    simp only [PedersenScheme,PedersenScheme.combine]
    exact index_of (by rw [stored.aligned]; rfl)

/-- The proposer's decoder is filled with the chunks of the block. -/
theorem init_decoder_filled {chunks : List (Chunk Scalar)} (count : chunks.length = N)
    (sizes : ∀ v ∈ chunks, v.v.length = m) :
    ∃ decoder : BlockDecoder Scalar N, PedersenStrategy.init_decoder chunks = .ok decoder ∧
      Filled m chunks chunks.length decoder := by
  obtain ⟨decoder,ran,filled⟩ := fold_keeps (fun (decoder : BlockDecoder Scalar N) (c : Chunk Scalar × Nat) => do
      let b ← set_at (List.replicate N 0) c.2 1
      let coded ← CodedChunk.new c.1 b
      let (decoder,_) ← decoder.add coded
      return decoder) (fun passed decoder => Filled m chunks passed.length decoder) chunks.zipIdx BlockDecoder.new
    Filled.start (by
      rintro before ⟨orig,i⟩ after decoder split filled
      obtain ⟨inside,rfl,rfl⟩ := enumerated split
      have small : before.length < (List.replicate N (0 : Scalar)).length := by simpa [count] using inside
      obtain ⟨coded,made,decoder',grew,ran,filled'⟩ := filled.add count sizes inside
      exact ⟨decoder',by simp only [set_at_of small,ok_bind,made,ran,pure_eq],by simpa using filled'⟩)
  rw [List.length_zipIdx] at filled
  exact ⟨decoder,ran,filled⟩

/-- The Pedersen strategy starts a faithful run for every block that fits. -/
theorem pedersen_starts [LawfulBlockCodec] [LawfulScalarCodec] (signer : PedersenSigner S) {block : Block}
    (small : block.transactions.length ≤ MAX_TRANSACTIONS_BYTES) (fits : Block.Fits Scalar block N m) :
    Starts (strategy G S PublicKey Signature N) (PedersenStrategy.new m signer) block := by
  intro count rng
  obtain ⟨key,named⟩ : ∃ key : CommitmentKey G, key = CommitmentKey.canonical m := ⟨_,rfl⟩
  have width : key.generators.length = m := by simp [named,CommitmentKey.canonical,CommitmentKey.deterministic]
  have some_chunk := Nat.pos_of_mul_pos_right fits.slots
  obtain ⟨chunks,split,parts⟩ := Block.as_chunks_spec (F := Scalar) block fits
  obtain ⟨coded,rest,encoded,_,each⟩ := Block.encode_chunks_spec fits split count rng
  obtain ⟨decoder,filled,full⟩ := init_decoder_filled (N := N) parts.count parts.sizes
  obtain ⟨complete,decodes⟩ := full.decodes parts.count parts.sizes
  have signed : signer.sign_block key (chunks.map Chunk.v) = .ok (block_proof signer key chunks) :=
    sign_block_runs signer key (fun v member => (parts.sizes v member).trans width.symm)
  have read := Block.from_chunks_as_chunks small parts
  have hereditary : Hereditary (PedersenScheme Scalar G PublicKey Signature N) (signer.context key) m chunks
      (OfBlock signer key m chunks) := of_block_hereditary width parts.count parts.sizes
  refine ⟨PedersenStrategy.new m signer,⟨decoder,[block_proof signer key chunks],signer.context key⟩,
    coded.map (fun chunk => ⟨chunk,block_proof signer key chunks⟩),block.serialize.length,rest,
    ⟨BlockDecoder.new,[],signer.context key⟩,?_,by rw [named]; rfl,?_,
    Holds (PedersenScheme Scalar G PublicKey Signature N) (signer.context key) m (OfBlock signer key m chunks),
    fun s => 1 ≤ s.decoder.rank,OfBlock signer key m chunks,?_,Holds.fresh,?_,?_⟩
  · simp only [strategy,PedersenStrategy.init_proposer,PedersenStrategy.new,encoded,ok_bind,split,← named,signed,filled,
      pure_eq]
    rfl
  · simp only [strategy,PedersenStrategy.decode,CodedNodeState.decode,decodes,ok_bind,read]
  · exact coded_faithful rfl (fun _ => rfl) rfl rfl hereditary small some_chunk parts
  · exact new_incomplete some_chunk
  · intro p member
    obtain ⟨chunk,listed,rfl⟩ := List.mem_map.mp member
    exact ⟨rfl,each chunk listed⟩

end

end PedersenStrategy

end Rlnc
