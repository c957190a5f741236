import Rlnc.Bfkw
import Rlnc.Protocols

/-!
The BFKW protocol of a node: coded packets with one homomorphic signature. The
context is derived from the block number when the block is announced (`coded`).
-/
namespace Rlnc
open Rlnc.Panics Rlnc.Combination Rlnc.Wire Rlnc.Packing Rlnc.Coding Rlnc.Draws Rlnc.Blocks Rlnc.Groups Rlnc.Integrity
open Rlnc.Bfkw Rlnc.Protocols
set_option linter.unusedSectionVars false

structure BfkwProtocol (F G1 G2 : Type) (N : Nat) where
  signer : Option (BfkwSigner F G1)
  m : Nat
  proposer_pk : G1
  decoder : BlockDecoder F N
  proofs : List (BfkwProof G2)
  ctx : Option (BfkwContext G1 G2)
  byte_len : Nat

namespace BfkwProtocol

section
variable {F G1 G2 : Type} [Field F] [DecidableEq F] [PackableField F] [FixedCodec F] [Random F] [AddCommGroup G1]
  [Module F G1] [AddCommGroup G2] [Module F G2] [Space F G2] [HashToGroup G2] [PairingGroup G1 G2] [FixedCodec G2]
  [FixedCodec UInt64] [BytesCodec] {N : Nat}

def new (m : Nat) (proposer_pk : G1) (signer : Option (BfkwSigner F G1)) : BfkwProtocol F G1 G2 N :=
  ⟨signer,m,proposer_pk,BlockDecoder.new,[],none,0⟩

/-- The proposer's decoder at full rank: chunk `i` with the unit vector `i`, signed. -/
def init_decoder (signer : BfkwSigner F G1) (ctx : BfkwContext G1 G2) (original_chunks : List (Chunk F)) :
    Rust (BlockDecoder F N × List (BfkwProof G2)) :=
  original_chunks.zipIdx.foldlM (fun (decoder,proofs) (orig,i) => do
    let b ← set_at (List.replicate N 0) i 1
    let coded ← CodedChunk.new orig b
    let proof ← signer.sign N ctx i orig.v
    let (decoder,_) ← decoder.add coded
    return (decoder,proofs ++ [proof])) (BlockDecoder.new,[])

def propose (self : BfkwProtocol F G1 G2 N) (block : Block) (num_targets : Nat) (rng : Rng) :
    Rust ((BfkwProtocol F G1 G2 N × Proposal) × Rng) := do
  let block_id := to_be 8 block.number.toNat
  let ((coded_chunks,byte_len),rng) ← (block.encode_chunks N self.m num_targets rng :
    Rust ((List (CodedChunk F N) × Nat) × Rng))
  let (original_chunks,_) ← (block.as_chunks N self.m : Rust (List (Chunk F) × Nat))
  let chunk_refs := original_chunks.map Chunk.v
  let signer ← expect self.signer "propose called on non-proposer"
  let ctx : BfkwContext G1 G2 := signer.setup_context N block_id self.m
  let packets ← coded_chunks.mapM fun chunk => do
    let proof ← signer.sign_coded N ctx chunk_refs chunk.b
    return (SignedPacket.mk chunk proof).serialize
  let (decoder,proposer_proofs) ← init_decoder signer ctx original_chunks
  return (({ self with decoder := decoder, proofs := proposer_proofs, ctx := some ctx, byte_len := byte_len },
    ⟨to_be 8 byte_len,packets⟩),rng)

/-- The context of a block, from its number. -/
def block_context (self : BfkwProtocol F G1 G2 N) (block_num : Nat) : BfkwContext G1 G2 :=
  let block_id := to_be 8 block_num
  ⟨derive_hash_points N block_id self.m,self.proposer_pk⟩

def ingest (self : BfkwProtocol F G1 G2 N) (channel : Channel) (block_num : Nat) (data : Bytes) :
    Rust (BfkwProtocol F G1 G2 N × Except String Bool) :=
  match channel with
  | .Announce =>
    if data.length < 8 then .ok (self,.error "announcement too short")
    else .ok ({ self with byte_len := of_be (data.take 8), ctx := some (self.block_context block_num) },.ok true)
  | .Data =>
    match self.ctx with
    | none => .ok (self,.error "data received before announcement")
    | some ctx => do
      match ← (SignedPacket.deserialize data self.m : Rust (Except String (SignedPacket F N (BfkwProof G2)))) with
      | .error e => return (self,.error e)
      | .ok packet =>
        let ((decoder,proofs),r) ← coded_receive (BfkwScheme F G1 G2 N) self.decoder self.proofs ctx packet
        return ({ self with decoder := decoder, proofs := proofs },r)

def recode (self : BfkwProtocol F G1 G2 N) (num_targets : Nat) (rng : Rng) : Rust (List Bytes × Rng) := do
  let (packets,rng) ← coded_forward (BfkwScheme F G1 G2 N) self.decoder self.proofs num_targets rng
  return (packets.map SignedPacket.serialize,rng)

def decode (self : BfkwProtocol F G1 G2 N) : Rust (Block × BfkwProtocol F G1 G2 N) := do
  let decoded_chunks ← self.decoder.decode
  let block ← Block.from_chunks N decoded_chunks self.byte_len
  return (block,self)

def reset (self : BfkwProtocol F G1 G2 N) : BfkwProtocol F G1 G2 N :=
  { self with decoder := self.decoder.reset, proofs := [], ctx := none, byte_len := 0 }

def packet_wire_size (self : BfkwProtocol F G1 G2 N) : Nat :=
  FixedCodec.SIZE F * self.m + FixedCodec.SIZE F * N + FixedCodec.SIZE G2

variable (F G1 G2 N) in
def protocol : Protocol (BfkwProtocol F G1 G2 N) where
  name := "BFKW"
  forward_condition _ := .UntilDecode
  propose := BfkwProtocol.propose
  ingest := BfkwProtocol.ingest
  is_complete self := self.decoder.is_complete
  recode := BfkwProtocol.recode
  decode := BfkwProtocol.decode
  reset := BfkwProtocol.reset
  packet_wire_size := BfkwProtocol.packet_wire_size

/-- The coded part of the state. -/
def view (s : BfkwProtocol F G1 G2 N) : CodedState F N (BfkwContext G1 G2) (BfkwProof G2) :=
  ⟨s.block_context,s.m,s.ctx,s.decoder,s.proofs,s.byte_len⟩

/-- The BFKW protocol works on its coded state as the coded protocols do. -/
theorem coded : Coded (protocol F G1 G2 N) (BfkwScheme F G1 G2 N) view where
  forward_condition _ := rfl
  announce s n data := by
    simp only [protocol,BfkwProtocol.ingest,CodedState.announce]
    split <;> rfl
  data s n data := by
    simp only [protocol,BfkwProtocol.ingest,CodedState.receive,view]
    cases known : s.ctx with
    | none => simp only [Except.map,known]
    | some ctx =>
      cases read : (SignedPacket.deserialize data s.m : Rust (Except String (SignedPacket F N (BfkwProof G2)))) with
      | error p => rfl
      | ok r =>
        cases r with
        | error e => simp only [ok_bind,pure_eq,Except.map,known]
        | ok packet =>
          simp only [ok_bind]
          cases coded_receive (BfkwScheme F G1 G2 N) s.decoder s.proofs ctx packet with
          | error p => rfl
          | ok r => simp only [ok_bind,pure_eq,Except.map]; rfl
  is_complete _ := rfl
  recode _ _ _ := rfl
  decode s := by
    simp only [protocol,BfkwProtocol.decode,CodedState.decode,view]
    cases s.decoder.decode with
    | error p => rfl
    | ok chunks =>
      simp only [ok_bind]
      cases Block.from_chunks N chunks s.byte_len <;> rfl
  reset_fixed _ := ⟨rfl,rfl⟩
  reset_block _ := ⟨rfl,rfl,rfl⟩

theorem proposes [LawfulPackable F] : Proposes (protocol F G1 G2 N) view := by
  constructor
  intro s block count rng s' proposal rest ran
  simp only [protocol,BfkwProtocol.propose,bind_ok] at ran
  obtain ⟨⟨⟨coded,byte_len⟩,rng'⟩,encoded,⟨chunks,_⟩,_,signer,_,packets,sent,⟨decoder,proofs⟩,_,ran⟩ := ran
  simp only [pure_eq,Except.ok.injEq,Prod.mk.injEq] at ran
  obtain ⟨⟨rfl,rfl⟩,rfl⟩ := ran
  obtain ⟨originals,split,_,each⟩ := Block.encode_chunks_ok encoded
  refine ⟨rfl,originals,byte_len,split,rfl,fun bytes member => ?_⟩
  obtain ⟨chunk,listed,made⟩ := mapM_each sent bytes member
  simp only [bind_ok] at made
  obtain ⟨proof,_,made⟩ := made
  obtain rfl := Except.ok.inj made
  exact ⟨⟨chunk,proof⟩,rfl,each chunk listed⟩

end

end BfkwProtocol

end Rlnc
