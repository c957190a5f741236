import Rlnc.Bfkw
import Rlnc.Pedersen

/-!
The wire forms of the two kinds of packets. What is serialized is deserialized to
the same packet, and takes the bytes that are accounted for (`pedersen_round_trip`);
a BFKW packet is read back unless its signature is the identity (`bfkw_round_trip_iff`).
In the other direction, a buffer that is deserialized begins with the packet; it is
the packet exactly when it has the length of one (`parsing_exact_iff`), since nothing
looks at the bytes that are left.
-/
namespace Rlnc.Packets
open Rlnc.Panics Rlnc.Wire Rlnc.Packing Rlnc.Coding Rlnc.Groups Rlnc.Integrity Rlnc.Pedersen Rlnc.Bfkw
open FixedCodec IntegrityProof
set_option linter.unusedSectionVars false

/-! ### Round trips -/

section
variable {F G Signature G2 : Type} [Field F] [DecidableEq F] [FixedCodec F] [AddCommGroup G] [DecidableEq G]
  [FixedCodec G] [FixedCodec Signature] [FixedCodec UInt32] [AddCommGroup G2] [FixedCodec G2] {N m : Nat}

/-- A proof with at most 1024 commitments is read back. -/
theorem pedersen_proof_back [WrittenElement G] [WrittenCodec Signature] [WrittenCodec UInt32]
    (proof : PedersenProof G Signature) (few : proof.commitments.length ≤ 1024) (rest : Bytes) :
    (deserialize_proof : Reader (PedersenProof G Signature)).run (serialize_proof proof ++ rest) = .ok (proof,rest) := by
  have count : (UInt32.ofNat proof.commitments.length).toNat = proof.commitments.length := by
    rw [UInt32.toNat_ofNat']
    omega
  have countRead : ∀ rest, (map_err (fun e => s!"commitment count: {e}") (read_cfg : Reader UInt32)).run
      (write (UInt32.ofNat proof.commitments.length) ++ rest) = .ok (UInt32.ofNat proof.commitments.length,rest) :=
    fun rest => (map_err_ok _ _ _ _).mpr (WrittenCodec.read_back _ rest)
  have groupRead := read_many_written (read_group : Reader G) write proof.commitments (fun x _ rest => read_group_back x rest)
  have signatureRead : ∀ rest, (map_err (fun e => s!"signature: {e}") (read_cfg : Reader Signature)).run
      (write proof.signature ++ rest) = .ok (proof.signature,rest) :=
    fun rest => (map_err_ok _ _ _ _).mpr (WrittenCodec.read_back _ rest)
  simp only [deserialize_proof,serialize_proof,List.append_assoc]
  rw [run_bind_of (countRead _),if_neg (by omega),count,run_bind_of (groupRead _),run_bind_of (signatureRead _)]
  rfl

omit [FixedCodec UInt32] in
/-- The reader of a signature point knows no identity. -/
theorem bfkw_proof_back [WrittenElement G2] (proof : BfkwProof G2) (nonzero : proof.sigma ≠ 0) (rest : Bytes) :
    (deserialize_proof : Reader (BfkwProof G2)).run (serialize_proof proof ++ rest) = .ok (proof,rest) := by
  have sigmaRead : (map_err (fun e => s!"sigma: {e}") (read_cfg : Reader G2)).run (write proof.sigma ++ rest) =
      .ok (proof.sigma,rest) := (map_err_ok _ _ _ _).mpr (WrittenElement.read_back _ rest nonzero)
  simp only [deserialize_proof,serialize_proof]
  rw [run_bind_of sigmaRead]
  rfl

theorem pedersen_proof_length [WrittenElement G] [WrittenCodec Signature] [WrittenCodec UInt32] (u32_size : SIZE UInt32 = 4)
    (proof : PedersenProof G Signature) : (serialize_proof proof).length = proof_wire_size proof := by
  simp only [serialize_proof,List.length_append,WrittenCodec.size,written_length WrittenElement.size,u32_size,proof_wire_size]

theorem bfkw_proof_length [WrittenElement G2] (proof : BfkwProof G2) :
    (serialize_proof proof).length = proof_wire_size proof := WrittenElement.size proof.sigma

/-- A BFKW packet is read back exactly when its signature is not the identity: the proof is
    read by the library alone, without the care that `read_group` takes. -/
theorem bfkw_round_trip_iff [WrittenScalar F] [LawfulElement G2] (packet : SignedPacket F N (BfkwProof G2)) :
    SignedPacket.deserialize packet.serialize packet.chunk.w.v.length = .ok (.ok packet) ↔ packet.proof.sigma ≠ 0 := by
  have back := packet.deserialize_serialize []
  have written := packet.deserialize_written (q := packet) []
  rw [List.append_nil] at back written
  constructor
  · intro ran identity
    obtain ⟨_,rest,read⟩ := written ran
    simp only [deserialize_proof,serialize_proof,run_bind_ok,identity] at read
    obtain ⟨sigma,left,failed,_⟩ := read
    exact LawfulElement.rejects_zero _ _ ((map_err_ok _ _ _ _).mp failed)
  · intro nonzero
    exact back (bfkw_proof_back packet.proof nonzero)

/-- Every Pedersen packet with at most 1024 commitments is read back, to the last byte,
    and takes the bytes of its wire size. -/
theorem pedersen_round_trip [WrittenScalar F] [WrittenElement G] [WrittenCodec Signature] [WrittenCodec UInt32]
    (u32_size : SIZE UInt32 = 4) (packet : SignedPacket F N (PedersenProof G Signature))
    (few : packet.proof.commitments.length ≤ 1024) :
    SignedPacket.deserialize packet.serialize packet.chunk.w.v.length = .ok (.ok packet) ∧
    (SignedPacket.read_parts N packet.chunk.w.v.length : Reader (List F × List F × PedersenProof G Signature)).run
      packet.serialize = .ok ((packet.chunk.w.v,packet.chunk.b,packet.proof),[]) ∧
    packet.serialize.length = packet.wire_size := by
  have back := pedersen_proof_back packet.proof few
  have whole := packet.deserialize_serialize [] back
  have parts := packet.read_parts_serialize [] back
  rw [List.append_nil] at whole parts
  exact ⟨whole,parts,packet.serialize_length (pedersen_proof_length u32_size packet.proof)⟩

end

open Rlnc.Scalars Rlnc.Reference in
private def sparse_packet : SignedPacket Scalar 2 (PedersenProof Scalar UInt64) :=
  ⟨coded_two (chunk_of 0 [1,0]) 0 1,⟨[0,scalar 5,0],9⟩⟩

open Rlnc.Scalars Rlnc.Reference in
theorem pedersen_round_trip_sparse :
    SignedPacket.deserialize sparse_packet.serialize 3 = .ok (.ok sparse_packet) ∧
    (SignedPacket.read_parts 2 3 : Reader (List Scalar × List Scalar × PedersenProof Scalar UInt64)).run
      sparse_packet.serialize = .ok (([0,1,0],[0,1],⟨[0,scalar 5,0],9⟩),[]) ∧
    sparse_packet.serialize.length = sparse_packet.wire_size :=
  pedersen_round_trip rfl sparse_packet (by decide)

section
open Rlnc.Scalars Rlnc.Reference

private def sealed_by (sigma : Scalar) : SignedPacket Scalar 2 (BfkwProof Scalar) := ⟨coded_two (chunk_of 0 [1]) 1 0,⟨sigma⟩⟩

/-- A signed packet, and one with the identity for its signature. -/
theorem bfkw_round_trip_iff_two :
    (SignedPacket.deserialize (sealed_by 1).serialize 2 = .ok (.ok (sealed_by 1)) ↔ (1 : Scalar) ≠ 0) ∧
    (SignedPacket.deserialize (sealed_by 0).serialize 2 = .ok (.ok (sealed_by 0)) ↔ (0 : Scalar) ≠ 0) :=
  ⟨bfkw_round_trip_iff (sealed_by 1),bfkw_round_trip_iff (sealed_by 0)⟩

/-- Two signatures that cancel: what `combine` returns is written, but not read back. -/
theorem identity_refused :
    BfkwScheme.combine [(⟨1⟩ : BfkwProof Scalar),⟨1⟩] [(1 : Scalar),-1] = .ok (sealed_by 0).proof ∧
    (SignedPacket.deserialize (sealed_by 0).serialize 2 : Rust (Except String (SignedPacket Scalar 2 (BfkwProof Scalar)))) =
      .ok (.error "sigma: Invalid: Scalar") := by
  decide +kernel

end

/-! ### What is accepted -/

section
variable {F G Signature G2 : Type} [Field F] [DecidableEq F] [FixedCodec F] [AddCommGroup G] [DecidableEq G]
  [FixedCodec G] [FixedCodec Signature] [FixedCodec UInt32] [AddCommGroup G2] [FixedCodec G2] {N m : Nat}

theorem bfkw_proof_canonical [CanonicalCodec G2] :
    Canonical (deserialize_proof : Reader (BfkwProof G2)) serialize_proof := by
  intro bs proof rest ran
  simp only [deserialize_proof,run_bind_ok,run_pure',Except.ok.injEq,Prod.mk.injEq] at ran
  obtain ⟨sigma,left,read,rfl,rfl⟩ := ran
  exact map_err_canonical CanonicalCodec.canonical bs sigma left read

/-- An accepted proof is written as it was read, and its count fits the count field. -/
theorem pedersen_proof_canonical [CanonicalCodec G] [CanonicalCodec Signature] [CanonicalCodec UInt32] {bs rest : Bytes}
    {proof : PedersenProof G Signature} (ran : (deserialize_proof : Reader (PedersenProof G Signature)).run bs = .ok (proof,rest)) :
    bs = serialize_proof proof ++ rest ∧ proof.commitments.length ≤ 1024 := by
  simp only [deserialize_proof,run_bind_ok] at ran
  obtain ⟨n,afterCount,readCount,ran⟩ := ran
  by_cases many : n.toNat > 1024
  · rw [if_pos many] at ran
    cases ran
  · simp only [if_neg many,run_bind_ok,run_pure',Except.ok.injEq,Prod.mk.injEq] at ran
    obtain ⟨commitments,afterGroups,readGroups,signature,left,readSignature,rfl,rfl⟩ := ran
    have counted : commitments.length = n.toNat := read_many_length readGroups
    have count_bytes := map_err_canonical CanonicalCodec.canonical bs n _ readCount
    have group_bytes := read_group_canonical.read_many n.toNat _ _ _ readGroups
    have signature_bytes := map_err_canonical CanonicalCodec.canonical _ signature _ readSignature
    refine ⟨?_,by rw [counted]; omega⟩
    rw [count_bytes,group_bytes,signature_bytes]
    simp only [serialize_proof,counted,UInt32.ofNat_toNat,List.append_assoc]

/-- The length of the Pedersen packet that begins the buffer, by the count of its commitments. -/
def pedersen_length (F G Signature : Type) [FixedCodec F] [FixedCodec G] [FixedCodec Signature] (N m : Nat) (data : Bytes) :
    Nat :=
  let scalars := SIZE F * m + SIZE F * N
  let count := of_be ((data.drop scalars).take 4)
  scalars + 4 + count * SIZE G + SIZE Signature

/-- The length of any BFKW packet. -/
def bfkw_length (F G2 : Type) [FixedCodec F] [FixedCodec G2] (N m : Nat) : Nat := SIZE F * m + SIZE F * N + SIZE G2

/-- A buffer that begins with a packet is the packet if it is no longer. -/
theorem exact_iff {packet data rest : Bytes} {length : Nat} (begins : data = packet ++ rest) (long : packet.length = length) :
    packet = data ↔ data.length = length := by
  subst begins long
  simp

/-- An accepted buffer begins with its packet. -/
theorem pedersen_begins [CanonicalScalar F] [CanonicalCodec G] [CanonicalCodec Signature] [CanonicalCodec UInt32]
    {data : Bytes} {packet : SignedPacket F N (PedersenProof G Signature)}
    (ran : SignedPacket.deserialize data m = .ok (.ok packet)) :
    (∃ rest, data = packet.serialize ++ rest) ∧ packet.proof.commitments.length ≤ 1024 := by
  obtain ⟨proof_bytes,rest,read,rfl⟩ := SignedPacket.deserialize_parts ran
  obtain ⟨rfl,few⟩ := pedersen_proof_canonical read
  exact ⟨⟨rest,by simp only [SignedPacket.serialize,List.append_assoc]⟩,few⟩

theorem bfkw_begins [CanonicalScalar F] [CanonicalCodec G2] {data : Bytes}
    {packet : SignedPacket F N (BfkwProof G2)} (ran : SignedPacket.deserialize data m = .ok (.ok packet)) :
    ∃ rest, data = packet.serialize ++ rest := by
  obtain ⟨proof_bytes,rest,read,rfl⟩ := SignedPacket.deserialize_parts ran
  obtain rfl := bfkw_proof_canonical _ _ _ read
  exact ⟨rest,by simp only [SignedPacket.serialize,List.append_assoc]⟩

/-- The scalars take their sizes. -/
theorem scalars_length [CanonicalScalar F] {Proof : Type} (packet : SignedPacket F N Proof) (wide : packet.chunk.w.v.length = m) :
    ((packet.chunk.w.v.map write).flatten ++ (packet.chunk.b.map write).flatten).length = SIZE F * m + SIZE F * N := by
  rw [List.length_append,written_length CanonicalCodec.size,written_length CanonicalCodec.size,packet.chunk.b_length,wide,
    Nat.mul_comm m,Nat.mul_comm N]

theorem bfkw_serialized_length [CanonicalScalar F] [CanonicalCodec G2] (packet : SignedPacket F N (BfkwProof G2))
    (wide : packet.chunk.w.v.length = m) : packet.serialize.length = bfkw_length F G2 N m := by
  rw [SignedPacket.serialize,List.length_append,scalars_length packet wide,bfkw_length]
  exact congrArg _ (CanonicalCodec.size packet.proof.sigma)

/-- The length of a packet is found from the count that stands after its scalars. -/
theorem pedersen_serialized_length [CanonicalScalar F] [CanonicalCodec G] [CanonicalCodec Signature] [CanonicalCodec UInt32]
    (big_endian : ∀ n : UInt32, write n = to_be 4 n.toNat) (packet : SignedPacket F N (PedersenProof G Signature))
    (wide : packet.chunk.w.v.length = m) (few : packet.proof.commitments.length ≤ 1024) (rest : Bytes) :
    packet.serialize.length = pedersen_length F G Signature N m (packet.serialize ++ rest) := by
  have scalars := scalars_length packet wide
  have count : (UInt32.ofNat packet.proof.commitments.length).toNat = packet.proof.commitments.length := by
    rw [UInt32.toNat_ofNat']
    omega
  have field : ((packet.serialize ++ rest).drop (SIZE F * m + SIZE F * N)).take 4 = to_be 4 packet.proof.commitments.length := by
    simp only [SignedPacket.serialize,serialize_proof,big_endian,count]
    rw [List.append_assoc,List.drop_left' scalars,List.append_assoc,List.append_assoc,List.take_left' (to_be_length 4 _)]
  have small : packet.proof.commitments.length < 256 ^ 4 := by omega
  rw [pedersen_length]
  simp only [field,of_be_to_be_of_lt small]
  rw [SignedPacket.serialize,List.length_append,scalars]
  simp only [serialize_proof,big_endian,List.length_append,to_be_length,written_length CanonicalCodec.size,CanonicalCodec.size]
  omega

variable (F G Signature G2 N) in
/-- An accepted buffer is the wire form of its packet exactly when it has the length of one. -/
theorem parsing_exact_iff [CanonicalScalar F] [CanonicalCodec G] [CanonicalCodec Signature] [CanonicalCodec G2]
    [CanonicalCodec UInt32] (big_endian : ∀ n : UInt32, write n = to_be 4 n.toNat) (data : Bytes) (m : Nat) :
    (∀ packet : SignedPacket F N (PedersenProof G Signature), SignedPacket.deserialize data m = .ok (.ok packet) →
      (packet.serialize = data ↔ data.length = pedersen_length F G Signature N m data)) ∧
    (∀ packet : SignedPacket F N (BfkwProof G2), SignedPacket.deserialize data m = .ok (.ok packet) →
      (packet.serialize = data ↔ data.length = bfkw_length F G2 N m)) := by
  constructor
  · intro packet ran
    have wide := SignedPacket.deserialize_width ran
    obtain ⟨⟨rest,begins⟩,few⟩ := pedersen_begins ran
    have long := pedersen_serialized_length big_endian packet wide few rest
    rw [← begins] at long
    exact exact_iff begins long
  · intro packet ran
    have wide := SignedPacket.deserialize_width ran
    obtain ⟨rest,begins⟩ := bfkw_begins ran
    exact exact_iff begins (bfkw_serialized_length packet wide)

end

open Rlnc.Scalars Rlnc.Reference in
private def signed_point : SignedPacket Scalar 2 (BfkwProof Scalar) := ⟨coded_two (chunk_of 0 [1,0]) 0 1,⟨scalar 7⟩⟩

open Rlnc.Scalars Rlnc.Reference in
theorem parsing_exact_iff_longer :
    (sparse_packet.serialize = sparse_packet.serialize ++ [0] ↔
      (sparse_packet.serialize ++ [0]).length = pedersen_length Scalar Scalar UInt64 2 3 (sparse_packet.serialize ++ [0])) ∧
    (signed_point.serialize = signed_point.serialize ++ [0] ↔
      (signed_point.serialize ++ [0]).length = bfkw_length Scalar Scalar 2 3) :=
  ⟨(parsing_exact_iff Scalar Scalar UInt64 Scalar 2 (fun _ => rfl) (sparse_packet.serialize ++ [0]) 3).1
      sparse_packet (by decide +kernel),
    (parsing_exact_iff Scalar Scalar UInt64 Scalar 2 (fun _ => rfl) (signed_point.serialize ++ [0]) 3).2
      signed_point (by decide +kernel)⟩

open Rlnc.Scalars Rlnc.Reference in
/-- A byte too many is not noticed. -/
theorem longer_accepted :
    SignedPacket.deserialize (sparse_packet.serialize ++ [0]) 3 = .ok (.ok sparse_packet) ∧
    sparse_packet.serialize ≠ sparse_packet.serialize ++ [0] ∧
    SignedPacket.deserialize (signed_point.serialize ++ [0]) 3 = .ok (.ok signed_point) ∧
    signed_point.serialize ≠ signed_point.serialize ++ [0] := by
  refine ⟨?_,?_,?_,?_⟩
  · exact SignedPacket.deserialize_serialize sparse_packet [0] (pedersen_proof_back _ (by decide))
  · intro same
    simpa using congrArg List.length same
  · exact SignedPacket.deserialize_serialize signed_point [0] (bfkw_proof_back _ (by decide))
  · intro same
    simpa using congrArg List.length same

end Rlnc.Packets
