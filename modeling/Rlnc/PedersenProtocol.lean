import Rlnc.Pedersen
import Rlnc.Protocols

/-!
The Pedersen protocol of a node: coded packets with commitments and a signature.
Its context never changes and does not mention the block (`coded`).
-/
namespace Rlnc
open Rlnc.Panics Rlnc.Combination Rlnc.Wire Rlnc.Packing Rlnc.Coding Rlnc.Draws Rlnc.Blocks Rlnc.Groups Rlnc.Integrity
open Rlnc.Pedersen Rlnc.Protocols
set_option linter.unusedSectionVars false

structure PedersenProtocol (F G S PublicKey Signature : Type) (N : Nat) where
  signer : Option (PedersenSigner S)
  ctx : PedersenContext G PublicKey
  m : Nat
  decoder : BlockDecoder F N
  proofs : List (PedersenProof G Signature)
  byte_len : Nat

namespace PedersenProtocol

section
variable {F G S PublicKey Signature : Type} [Field F] [DecidableEq F] [PackableField F] [FixedCodec F] [Random F]
  [AddCommGroup G] [DecidableEq G] [Module F G] [Space F G] [HashToGroup G] [FixedCodec G]
  [Verifier PublicKey Signature] [Signer S PublicKey Signature] [FixedCodec Signature]
  [FixedCodec UInt32] [FixedCodec UInt64] [BytesCodec] {N : Nat}

def new (m : Nat) (proposer_pk : PublicKey) (signer : Option (PedersenSigner S)) :
    PedersenProtocol F G S PublicKey Signature N :=
  let ck : CommitmentKey G := CommitmentKey.canonical m
  ⟨signer,⟨ck,proposer_pk⟩,m,BlockDecoder.new,[],0⟩

/-- The proposer's decoder at full rank: chunk `i` with the unit vector `i`. -/
def init_decoder (original_chunks : List (Chunk F)) (proof : PedersenProof G Signature) :
    Rust (BlockDecoder F N × List (PedersenProof G Signature)) :=
  original_chunks.zipIdx.foldlM (fun (decoder,proofs) (orig,i) => do
    let b ← set_at (List.replicate N 0) i 1
    let coded ← CodedChunk.new orig b
    let (decoder,_) ← decoder.add coded
    return (decoder,proofs ++ [proof])) (BlockDecoder.new,[])

def propose (self : PedersenProtocol F G S PublicKey Signature N) (block : Block) (num_targets : Nat) (rng : Rng) :
    Rust ((PedersenProtocol F G S PublicKey Signature N × Proposal) × Rng) := do
  let ((coded_chunks,byte_len),rng) ← (block.encode_chunks N self.m num_targets rng :
    Rust ((List (CodedChunk F N) × Nat) × Rng))
  let (original_chunks,_) ← (block.as_chunks N self.m : Rust (List (Chunk F) × Nat))
  let chunk_refs := original_chunks.map Chunk.v
  let signer ← expect self.signer "propose called on non-proposer"
  let proof : PedersenProof G Signature ← signer.sign_block self.ctx.key chunk_refs
  let packets := coded_chunks.map fun chunk => (SignedPacket.mk chunk proof).serialize
  let (decoder,proposer_proofs) ← init_decoder original_chunks proof
  return (({ self with decoder := decoder, proofs := proposer_proofs, byte_len := byte_len },
    ⟨to_be 8 byte_len,packets⟩),rng)

def ingest (self : PedersenProtocol F G S PublicKey Signature N) (channel : Channel) (_block_num : Nat) (data : Bytes) :
    Rust (PedersenProtocol F G S PublicKey Signature N × Except String Bool) :=
  match channel with
  | .Announce =>
    if data.length < 8 then .ok (self,.error "announcement too short")
    else .ok ({ self with byte_len := of_be (data.take 8) },.ok true)
  | .Data => do
    match ← (SignedPacket.deserialize data self.m : Rust (Except String (SignedPacket F N (PedersenProof G Signature)))) with
    | .error e => return (self,.error e)
    | .ok packet =>
      let ((decoder,proofs),r) ← coded_receive (PedersenScheme F G PublicKey Signature N) self.decoder self.proofs self.ctx
        packet
      return ({ self with decoder := decoder, proofs := proofs },r)

def recode (self : PedersenProtocol F G S PublicKey Signature N) (num_targets : Nat) (rng : Rng) :
    Rust (List Bytes × Rng) := do
  let (packets,rng) ← coded_forward (PedersenScheme F G PublicKey Signature N) self.decoder self.proofs num_targets rng
  return (packets.map SignedPacket.serialize,rng)

def decode (self : PedersenProtocol F G S PublicKey Signature N) :
    Rust (Block × PedersenProtocol F G S PublicKey Signature N) := do
  let decoded_chunks ← self.decoder.decode
  let block ← Block.from_chunks N decoded_chunks self.byte_len
  return (block,self)

def reset (self : PedersenProtocol F G S PublicKey Signature N) : PedersenProtocol F G S PublicKey Signature N :=
  { self with decoder := self.decoder.reset, proofs := [], byte_len := 0 }

def packet_wire_size (self : PedersenProtocol F G S PublicKey Signature N) : Nat :=
  FixedCodec.SIZE F * self.m + FixedCodec.SIZE F * N + FixedCodec.SIZE G * N + FixedCodec.SIZE Signature

variable (F G S PublicKey Signature N) in
def protocol : Protocol (PedersenProtocol F G S PublicKey Signature N) where
  name := "Pedersen"
  forward_condition _ := .UntilDecode
  propose := PedersenProtocol.propose
  ingest := PedersenProtocol.ingest
  is_complete self := self.decoder.is_complete
  recode := PedersenProtocol.recode
  decode := PedersenProtocol.decode
  reset := PedersenProtocol.reset
  packet_wire_size := PedersenProtocol.packet_wire_size

/-- The coded part of the state; the context is the same for every block. -/
def view (s : PedersenProtocol F G S PublicKey Signature N) :
    CodedState F N (PedersenContext G PublicKey) (PedersenProof G Signature) :=
  ⟨fun _ => s.ctx,s.m,some s.ctx,s.decoder,s.proofs,s.byte_len⟩

/-- The Pedersen protocol works on its coded state as the coded protocols do. -/
theorem coded : Coded (protocol F G S PublicKey Signature N) (PedersenScheme F G PublicKey Signature N) view where
  forward_condition _ := rfl
  announce s n data := by
    simp only [protocol,PedersenProtocol.ingest,CodedState.announce]
    split <;> rfl
  data s n data := by
    simp only [protocol,PedersenProtocol.ingest,CodedState.receive,view]
    cases read : (SignedPacket.deserialize data s.m :
      Rust (Except String (SignedPacket F N (PedersenProof G Signature)))) with
    | error p => rfl
    | ok r =>
      cases r with
      | error e => rfl
      | ok packet =>
        simp only [ok_bind]
        cases coded_receive (PedersenScheme F G PublicKey Signature N) s.decoder s.proofs s.ctx packet <;> rfl
  is_complete _ := rfl
  recode _ _ _ := rfl
  decode s := by
    simp only [protocol,PedersenProtocol.decode,CodedState.decode,view]
    cases s.decoder.decode with
    | error p => rfl
    | ok chunks =>
      simp only [ok_bind]
      cases Block.from_chunks N chunks s.byte_len <;> rfl
  reset_fixed _ := ⟨rfl,rfl⟩
  reset_block _ := ⟨rfl,rfl,rfl⟩

theorem proposes [LawfulPackable F] : Proposes (protocol F G S PublicKey Signature N) view := by
  constructor
  intro s block count rng s' proposal rest ran
  simp only [protocol,PedersenProtocol.propose,bind_ok] at ran
  obtain ⟨⟨⟨coded,byte_len⟩,rng'⟩,encoded,⟨chunks,_⟩,_,signer,_,proof,_,⟨decoder,proofs⟩,_,ran⟩ := ran
  simp only [pure_eq,Except.ok.injEq,Prod.mk.injEq] at ran
  obtain ⟨⟨rfl,rfl⟩,rfl⟩ := ran
  obtain ⟨originals,split,_,each⟩ := Block.encode_chunks_ok encoded
  refine ⟨rfl,originals,byte_len,split,rfl,fun bytes member => ?_⟩
  obtain ⟨chunk,listed,rfl⟩ := List.mem_map.mp member
  exact ⟨⟨chunk,proof⟩,rfl,each chunk listed⟩

end

end PedersenProtocol

end Rlnc
