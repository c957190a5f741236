import Rlnc.Blocks
import Rlnc.Integrity

/-!
The protocol trait that the node actor drives, and the full-block protocol. The
two coded protocols share how they receive, forward and decode; `CodedState` is
that part of their state, and `Coded` says that a protocol works on it as they do.
-/
namespace Rlnc.Protocols
open Rlnc.Panics Rlnc.Combination Rlnc.Wire Rlnc.Packing Rlnc.Coding Rlnc.Draws Rlnc.Blocks Rlnc.Integrity

/-- The P2P channel a message arrived on. -/
inductive Channel
  | Announce
  | Data
deriving DecidableEq, Repr

/-- When a node should forward received data. -/
inductive ForwardCondition
  | AfterDecode
  | OneShot
  | UntilDecode
deriving DecidableEq, Repr

/-- Output of `propose`, without the block number prefixes. -/
structure Proposal where
  announcement : Bytes
  packets : List Bytes

/-- A block propagation protocol with its mutable state. -/
structure Protocol (σ : Type) where
  name : String
  forward_condition : σ → ForwardCondition
  propose : σ → Block → Nat → Rng → Rust ((σ × Proposal) × Rng)
  ingest : σ → Channel → Nat → Bytes → Rust (σ × Except String Bool)
  is_complete : σ → Bool
  recode : σ → Nat → Rng → Rust (List Bytes × Rng)
  decode : σ → Rust (Block × σ)
  reset : σ → σ
  packet_wire_size : σ → Nat

/-! ### The full-block protocol -/

structure BaselineProtocol where
  block : Option Block
  block_bytes : Option Bytes
  byte_len : Nat

namespace BaselineProtocol
variable [FixedCodec UInt64] [BytesCodec]

def new : BaselineProtocol := ⟨none,none,0⟩

def propose (_self : BaselineProtocol) (block : Block) (num_targets : Nat) (rng : Rng) :
    Rust ((BaselineProtocol × Proposal) × Rng) :=
  let bytes := block.serialize
  let byte_len := bytes.length
  .ok ((⟨some block,some bytes,byte_len⟩,⟨to_be 8 byte_len,List.replicate num_targets bytes⟩),rng)

def ingest (self : BaselineProtocol) (channel : Channel) (_block_num : Nat) (data : Bytes) :
    Rust (BaselineProtocol × Except String Bool) :=
  match channel with
  | .Announce =>
    if data.length < 8 then .ok (self,.error "announcement too short")
    else .ok ({ self with byte_len := of_be (data.take 8) },.ok true)
  | .Data =>
    if self.block.isSome then .ok (self,.ok false)
    else
      match Block.decode data with
      | .error e => .ok (self,.error s!"failed to decode block: {e}")
      | .ok block => .ok ({ self with block_bytes := some data, block := some block },.ok true)

def recode (self : BaselineProtocol) (num_targets : Nat) (rng : Rng) : Rust (List Bytes × Rng) := do
  let bytes ← expect self.block_bytes "recode called before decode"
  return (List.replicate num_targets bytes,rng)

def decode (self : BaselineProtocol) : Rust (Block × BaselineProtocol) := do
  let block ← expect self.block "decode called before receive"
  return (block,{ self with block := none })

def reset (_self : BaselineProtocol) : BaselineProtocol := ⟨none,none,0⟩

def protocol : Protocol BaselineProtocol where
  name := "Baseline"
  forward_condition _ := .AfterDecode
  propose := propose
  ingest := ingest
  is_complete self := self.block.isSome
  recode := recode
  decode := decode
  reset := reset
  packet_wire_size self := self.byte_len

end BaselineProtocol

/-! ### What the coded protocols share -/

/-- The state that both coded protocols have: how they derive the context of a
    block, the chunk dimension, and the state of the current block. -/
structure CodedState (F : Type) (N : Nat) (Context Proof : Type) where
  derive_ctx : Nat → Context
  m : Nat
  ctx : Option Context
  decoder : BlockDecoder F N
  proofs : List Proof
  byte_len : Nat

section
variable {F : Type} [Field F] [DecidableEq F] {N : Nat} {Context Proof Error : Type} [FixedCodec F] [IntegrityProof Proof]

namespace CodedState

/-- The announcement of block `block_num`. -/
def announce (self : CodedState F N Context Proof) (block_num : Nat) (data : Bytes) :
    CodedState F N Context Proof × Except String Bool :=
  if data.length < 8 then (self,.error "announcement too short")
  else ({ self with byte_len := of_be (data.take 8), ctx := some (self.derive_ctx block_num) },.ok true)

/-- A data packet, under the context of the block. -/
def receive (S : IntegrityScheme F N Context Proof Error) (self : CodedState F N Context Proof) (data : Bytes) :
    Rust (CodedState F N Context Proof × Except String Bool) :=
  match self.ctx with
  | none => .ok (self,.error "data received before announcement")
  | some ctx => do
    match ← (SignedPacket.deserialize data self.m : Rust (Except String (SignedPacket F N Proof))) with
    | .error e => return (self,.error e)
    | .ok packet =>
      let ((decoder,proofs),r) ← coded_receive S self.decoder self.proofs ctx packet
      return ({ self with decoder, proofs },r)

def recode (S : IntegrityScheme F N Context Proof Error) [Random F] (self : CodedState F N Context Proof)
    (num_targets : Nat) (rng : Rng) : Rust (List Bytes × Rng) := do
  let (packets,rng) ← coded_forward S self.decoder self.proofs num_targets rng
  return (packets.map SignedPacket.serialize,rng)

def decode [PackableField F] [FixedCodec UInt64] [BytesCodec] (self : CodedState F N Context Proof) : Rust Block := do
  let decoded_chunks ← self.decoder.decode
  Block.from_chunks N decoded_chunks self.byte_len

end CodedState

variable {σ : Type} [Random F] [PackableField F] [FixedCodec UInt64] [BytesCodec]

/-- The protocol works on the coded part of its state as the coded protocols do. -/
structure Coded (P : Protocol σ) (S : IntegrityScheme F N Context Proof Error) (view : σ → CodedState F N Context Proof) :
    Prop where
  forward_condition : ∀ s, P.forward_condition s = .UntilDecode
  announce : ∀ s n data, (P.ingest s .Announce n data).map (fun r => (view r.1,r.2)) = .ok ((view s).announce n data)
  data : ∀ s n data, (P.ingest s .Data n data).map (fun r => (view r.1,r.2)) = (view s).receive S data
  is_complete : ∀ s, P.is_complete s = (view s).decoder.is_complete
  recode : ∀ s count rng, P.recode s count rng = (view s).recode S count rng
  decode : ∀ s, P.decode s = (view s).decode.map (fun block => (block,s))
  reset_fixed : ∀ s, (view (P.reset s)).derive_ctx = (view s).derive_ctx ∧ (view (P.reset s)).m = (view s).m
  reset_block : ∀ s, (view (P.reset s)).decoder = (view s).decoder.reset ∧ (view (P.reset s)).proofs = [] ∧
    (view (P.reset s)).byte_len = 0

/-- A message leaves the decoder as it is, or is a packet that is received into it. -/
theorem Coded.ingest_cases {P : Protocol σ} {S : IntegrityScheme F N Context Proof Error}
    {view : σ → CodedState F N Context Proof} (coded : Coded P S view) {s s' : σ} {channel : Channel} {n : Nat}
    {data : Bytes} {r : Except String Bool} (ran : P.ingest s channel n data = .ok (s',r)) :
    (view s').m = (view s).m ∧
    ((view s').decoder = (view s).decoder ∧ (channel = .Data → r ≠ .ok true) ∨
      ∃ (packet : SignedPacket F N Proof) (ctx : Context), SignedPacket.deserialize data (view s).m = .ok (.ok packet) ∧
        coded_receive S (view s).decoder (view s).proofs ctx packet = .ok (((view s').decoder,(view s').proofs),r)) := by
  cases channel with
  | Announce =>
    have seen := coded.announce s n data
    rw [ran] at seen
    have same : view s' = ((view s).announce n data).1 := congrArg Prod.fst (Except.ok.inj seen)
    rw [same,CodedState.announce]
    split <;> exact ⟨rfl,.inl ⟨rfl,by simp⟩⟩
  | Data =>
    have seen := coded.data s n data
    rw [ran] at seen
    have taken : (view s).receive S data = .ok (view s',r) := seen.symm
    unfold CodedState.receive at taken
    split at taken
    · obtain ⟨same,rfl⟩ := ok_pair taken
      rw [← same]
      exact ⟨rfl,.inl ⟨rfl,by simp⟩⟩
    · rename_i ctx _
      simp only [bind_ok] at taken
      obtain ⟨parsed,read,taken⟩ := taken
      cases parsed with
      | error e =>
        obtain ⟨same,rfl⟩ := ok_pair taken
        rw [← same]
        exact ⟨rfl,.inl ⟨rfl,by simp⟩⟩
      | ok packet =>
        simp only [bind_ok] at taken
        obtain ⟨⟨⟨decoder,proofs⟩,result⟩,received,taken⟩ := taken
        obtain ⟨same,rfl⟩ := ok_pair taken
        rw [← same]
        exact ⟨rfl,.inr ⟨packet,ctx,read,received⟩⟩

theorem Coded.decode_same {P : Protocol σ} {S : IntegrityScheme F N Context Proof Error}
    {view : σ → CodedState F N Context Proof} (coded : Coded P S view) {s s' : σ} {block : Block}
    (ran : P.decode s = .ok (block,s')) : s' = s := by
  rw [coded.decode] at ran
  obtain ⟨_,_,same⟩ := map_ok ran
  exact (Prod.mk.inj same).2.symm

/-- The proposer announces the length of the block and sends coded chunks of it. -/
structure Proposes (P : Protocol σ) (view : σ → CodedState F N Context Proof) : Prop where
  propose : ∀ s block count rng s' proposal rest, P.propose s block count rng = .ok ((s',proposal),rest) →
    (view s').m = (view s).m ∧ ∃ (chunks : List (Chunk F)) (byte_len : Nat),
      block.as_chunks N (view s).m = .ok (chunks,byte_len) ∧ proposal.announcement = to_be 8 byte_len ∧
      ∀ bytes ∈ proposal.packets, ∃ packet : SignedPacket F N Proof, bytes = packet.serialize ∧
        Encodes (view s).m chunks packet.chunk

end

end Rlnc.Protocols
