import Rlnc.Coding
import Rlnc.Draws
import Rlnc.Packing

/-!
Integrity schemes, signed packets, and how nodes receive and forward them. A node
stores the proof of each chunk that its decoder stores, in the same order, and
nothing that did not verify (`receive_all_stored`); what it forwards mixes the
stored chunks and the stored proofs with the same coefficients.
-/
namespace Rlnc.Integrity
open Rlnc.Panics Rlnc.Combination Rlnc.Wire Rlnc.Packing Rlnc.Coding Rlnc.Draws
set_option linter.unusedSectionVars false

/-- Verification and combination of proofs; both run library code that may panic. -/
structure IntegrityScheme (F : Type) (N : Nat) (Context Proof Error : Type) where
  verify : Context → CodedChunk F N → Proof → Rust (Except Error Unit)
  combine : List Proof → List F → Rust Proof
  display : Error → String

/-- The wire form of a proof. -/
class IntegrityProof (Proof : Type) where
  serialize_proof : Proof → Bytes
  deserialize_proof : Reader Proof
  proof_wire_size : Proof → Nat

/-- A coded chunk with its proof, as it travels the network. -/
structure SignedPacket (F : Type) (N : Nat) (Proof : Type) where
  chunk : CodedChunk F N
  proof : Proof
deriving DecidableEq

section
variable {F : Type} [Field F] [DecidableEq F] {N : Nat} {Context Proof Error : Type}

namespace SignedPacket
variable [FixedCodec F] [IntegrityProof Proof]
open FixedCodec IntegrityProof

/-- Layout: `[w (m scalars) | b (N scalars) | proof bytes]`. -/
def serialize (self : SignedPacket F N Proof) : Bytes :=
  (self.chunk.w.v.map write).flatten ++ (self.chunk.b.map write).flatten ++ serialize_proof self.proof

/-- The scalars and the proof, in their order. -/
def read_parts (N m : Nat) : Reader (List F × List F × Proof) := do
  let w ← read_many read_field m
  let b ← read_many read_field N
  let proof ← deserialize_proof
  return (w,b,proof)

def deserialize (data : Bytes) (m : Nat) : Rust (Except String (SignedPacket F N Proof)) :=
  match (read_parts N m : Reader (List F × List F × Proof)).run data with
  | .error e => .ok (.error e)
  | .ok ((w,b,proof),_) => do
    let w ← Chunk.new w
    let chunk ← CodedChunk.new w b
    return .ok ⟨chunk,proof⟩

/-- Wire size in bytes (for bandwidth accounting). -/
def wire_size (self : SignedPacket F N Proof) : Nat :=
  SIZE F * self.chunk.w.v.length + SIZE F * N + proof_wire_size self.proof

/-- A deserialized packet has `m` data scalars. -/
theorem deserialize_width {data : Bytes} {m : Nat} {packet : SignedPacket F N Proof}
    (ran : deserialize data m = .ok (.ok packet)) : packet.chunk.w.v.length = m := by
  unfold deserialize at ran
  cases read : (read_parts N m : Reader (List F × List F × Proof)).run data with
  | error e => rw [read] at ran; cases ran
  | ok r =>
    obtain ⟨⟨w,b,proof⟩,rest⟩ := r
    rw [read] at ran
    simp only [bind_ok,pure_eq,Except.ok.injEq] at ran
    obtain ⟨chunk,made,coded,encoded,rfl⟩ := ran
    simp only [read_parts,run_bind_ok,run_pure',Except.ok.injEq,Prod.mk.injEq] at read
    obtain ⟨w',_,readW,_,_,_,_,_,_,⟨rfl,rfl,rfl⟩,_⟩ := read
    have same : chunk.v = w' := (Chunk.new_eq_ok _ _).mp made
    rw [(CodedChunk.new_eq_ok encoded).1,same,read_many_length readW]

/-- Deserializing never panics if chunks have elements. -/
theorem deserialize_runs (data : Bytes) {m : Nat} (positive : 0 < m) :
    ∃ r, (deserialize data m : Rust (Except String (SignedPacket F N Proof))) = .ok r ∧
      ∀ packet, r = .ok packet → packet.chunk.w.v.length = m := by
  obtain ⟨r,ran⟩ : ∃ r, (deserialize data m : Rust (Except String (SignedPacket F N Proof))) = .ok r := by
    unfold deserialize
    cases read : (read_parts N m : Reader (List F × List F × Proof)).run data with
    | error e => exact ⟨_,rfl⟩
    | ok r =>
      obtain ⟨⟨w,b,proof⟩,rest⟩ := r
      simp only [read_parts,run_bind_ok,run_pure',Except.ok.injEq,Prod.mk.injEq] at read
      obtain ⟨w',_,readW,b',_,readB,proof',_,_,⟨rfl,rfl,rfl⟩,_⟩ := read
      have wide := read_many_length readW
      have long := read_many_length readB
      have nonempty : w' ≠ [] := List.ne_nil_of_length_pos (by omega)
      exact ⟨.ok ⟨⟨⟨w',nonempty⟩,b',long⟩,proof'⟩,by
        simp only [Chunk.new_of nonempty,ok_bind,CodedChunk.new_of long,pure_eq]⟩
  exact ⟨r,ran,fun packet same => deserialize_width (same ▸ ran)⟩

/-- The parts of a serialized packet are read off any buffer that begins with it, if its proof is. -/
theorem read_parts_serialize [WrittenScalar F] (packet : SignedPacket F N Proof) (more : Bytes)
    (proof_back : ∀ rest, (deserialize_proof : Reader Proof).run (serialize_proof packet.proof ++ rest) =
      .ok (packet.proof,rest)) :
    (read_parts N packet.chunk.w.v.length : Reader (List F × List F × Proof)).run (packet.serialize ++ more) =
      .ok ((packet.chunk.w.v,packet.chunk.b,packet.proof),more) := by
  have wRead := read_many_written (read_field : Reader F) write packet.chunk.w.v
    (fun x _ rest => read_field_back x rest)
  have bRead := read_many_written (read_field : Reader F) write packet.chunk.b
    (fun x _ rest => read_field_back x rest)
  rw [packet.chunk.b_length] at bRead
  simp only [serialize,List.append_assoc,read_parts]
  rw [run_bind_of (wRead _),run_bind_of (bRead _),run_bind_of (proof_back more)]
  rfl

/-- A serialized packet is deserialized from any buffer that begins with it, if its proof is. -/
theorem deserialize_serialize [WrittenScalar F] (packet : SignedPacket F N Proof) (more : Bytes)
    (proof_back : ∀ rest, (deserialize_proof : Reader Proof).run (serialize_proof packet.proof ++ rest) =
      .ok (packet.proof,rest)) :
    deserialize (packet.serialize ++ more) packet.chunk.w.v.length = .ok (.ok packet) := by
  simp only [deserialize,read_parts_serialize packet more proof_back,Chunk.new_of packet.chunk.w.nonempty,ok_bind,
    CodedChunk.new_of packet.chunk.b_length,pure_eq]

/-- The wire size is the length of the serialized packet, if that of the proof is. -/
theorem serialize_length [WrittenScalar F] (packet : SignedPacket F N Proof)
    (proof_length : (serialize_proof packet.proof).length = proof_wire_size packet.proof) :
    packet.serialize.length = packet.wire_size := by
  simp only [serialize,List.length_append,written_length WrittenElement.size,packet.chunk.b_length,proof_length,wire_size,
    Nat.mul_comm]

/-- A buffer that begins with the scalars of a chunk is deserialized to this chunk, with
    the proof that is read after them, or not at all. -/
theorem deserialize_written [WrittenScalar F] (packet : SignedPacket F N Proof) (more : Bytes) {q : SignedPacket F N Proof}
    (ran : deserialize (packet.serialize ++ more) packet.chunk.w.v.length = .ok (.ok q)) :
    q.chunk = packet.chunk ∧
      ∃ rest, (deserialize_proof : Reader Proof).run (serialize_proof packet.proof ++ more) = .ok (q.proof,rest) := by
  have wRead := read_many_written (read_field : Reader F) write packet.chunk.w.v (fun x _ rest => read_field_back x rest)
  have bRead := read_many_written (read_field : Reader F) write packet.chunk.b (fun x _ rest => read_field_back x rest)
  rw [packet.chunk.b_length] at bRead
  have scalars : (read_parts N packet.chunk.w.v.length : Reader (List F × List F × Proof)).run (packet.serialize ++ more) =
      (do let proof ← (deserialize_proof : Reader Proof); return (packet.chunk.w.v,packet.chunk.b,proof)).run
        (serialize_proof packet.proof ++ more) := by
    simp only [serialize,List.append_assoc,read_parts]
    rw [run_bind_of (wRead _),run_bind_of (bRead _)]
  unfold deserialize at ran
  cases proofRead : (deserialize_proof : Reader Proof).run (serialize_proof packet.proof ++ more) with
  | error e =>
    have failed : (read_parts N packet.chunk.w.v.length : Reader (List F × List F × Proof)).run
        (packet.serialize ++ more) = .error e := by
      rw [scalars,StateT.run_bind,proofRead]; rfl
    rw [failed] at ran
    cases ran
  | ok r =>
    obtain ⟨proof,rest⟩ := r
    have read : (read_parts N packet.chunk.w.v.length : Reader (List F × List F × Proof)).run (packet.serialize ++ more) =
        .ok ((packet.chunk.w.v,packet.chunk.b,proof),rest) := by
      rw [scalars,run_bind_of proofRead]; rfl
    rw [read] at ran
    simp only [Chunk.new_of packet.chunk.w.nonempty,ok_bind,CodedChunk.new_of packet.chunk.b_length,pure_eq,
      Except.ok.injEq] at ran
    rw [← ran]
    exact ⟨rfl,rest,rfl⟩

/-- The scalars of what is deserialized stand written at the start of the buffer, and its
    proof is read after them. -/
theorem deserialize_parts [CanonicalScalar F] {data : Bytes} {m : Nat} {packet : SignedPacket F N Proof}
    (ran : deserialize data m = .ok (.ok packet)) :
    ∃ proof_bytes rest, (deserialize_proof : Reader Proof).run proof_bytes = .ok (packet.proof,rest) ∧
      data = (packet.chunk.w.v.map write).flatten ++ (packet.chunk.b.map write).flatten ++ proof_bytes := by
  unfold deserialize at ran
  cases read : (read_parts N m : Reader (List F × List F × Proof)).run data with
  | error e => rw [read] at ran; cases ran
  | ok r =>
    obtain ⟨⟨w,b,proof⟩,rest⟩ := r
    rw [read] at ran
    simp only [bind_ok,pure_eq,Except.ok.injEq] at ran
    obtain ⟨chunk,made,coded,encoded,rfl⟩ := ran
    simp only [read_parts,run_bind_ok,run_pure',Except.ok.injEq,Prod.mk.injEq] at read
    obtain ⟨w',afterW,readW,b',afterB,readB,proof',left,readProof,⟨rfl,rfl,rfl⟩,rfl⟩ := read
    have same : chunk.v = w' := (Chunk.new_eq_ok _ _).mp made
    obtain ⟨data_same,coefficients_same⟩ := CodedChunk.new_eq_ok encoded
    have data_bytes := read_field_canonical.read_many m _ _ _ readW
    have coefficient_bytes := read_field_canonical.read_many N _ _ _ readB
    refine ⟨afterB,left,readProof,?_⟩
    rw [data_bytes,coefficient_bytes,data_same,coefficients_same,same]
    exact (List.append_assoc _ _ _).symm

end SignedPacket

/-! ### Receiving and forwarding -/

variable (S : IntegrityScheme F N Context Proof Error)

/-- Verify a packet, then add it to the decoder and keep its proof. -/
def coded_receive (decoder : BlockDecoder F N) (proofs : List Proof) (ctx : Context) (packet : SignedPacket F N Proof) :
    Rust ((BlockDecoder F N × List Proof) × Except String Bool) := do
  match ← S.verify ctx packet.chunk packet.proof with
  | .error e => return ((decoder,proofs),.error (S.display e))
  | .ok () =>
    let (decoder,grew) ← decoder.add packet.chunk
    if grew then
      return ((decoder,proofs ++ [packet.proof]),.ok true)
    else
      return ((decoder,proofs),.ok false)

/-- One packet re-encoded with fresh coefficients. -/
def forward_one (decoder : BlockDecoder F N) (proofs : List Proof) [Random F] (rng : Rng) :
    Rust (SignedPacket F N Proof × Rng) := do
  let (alphas,rng) := random_coefficients decoder.rank rng
  let new_chunk ← decoder.reencode_with alphas
  let new_proof ← S.combine proofs alphas
  return (⟨new_chunk,new_proof⟩,rng)

def coded_forward (decoder : BlockDecoder F N) (proofs : List Proof) (num_peers : Nat) [Random F] (rng : Rng) :
    Rust (List (SignedPacket F N Proof) × Rng) :=
  collect (forward_one S decoder proofs) num_peers rng

/-- Each forwarded packet mixes the stored chunks and the stored proofs by the same coefficients. -/
theorem coded_forward_each {decoder : BlockDecoder F N} {proofs : List Proof} [Random F] {count : Nat} {rng rest : Rng}
    {packets : List (SignedPacket F N Proof)} (ran : coded_forward S decoder proofs count rng = .ok (packets,rest)) :
    ∀ p ∈ packets, ∃ before, decoder.reencode_with (random_coefficients decoder.rank before).1 = .ok p.chunk ∧
      S.combine proofs (random_coefficients decoder.rank before).1 = .ok p.proof := by
  intro p member
  obtain ⟨before,after,made⟩ := (collect_each ran).2 p member
  simp only [forward_one,bind_ok] at made
  obtain ⟨chunk,mixed,proof,combined,made⟩ := made
  obtain ⟨rfl,_⟩ := ok_pair made
  exact ⟨before,mixed,combined⟩

/-- Receive packets one after the other, from an empty decoder. -/
def receive_all (ctx : Context) (received : List (SignedPacket F N Proof)) : Rust (BlockDecoder F N × List Proof) :=
  received.foldlM (fun state packet => do
    let (state,_) ← coded_receive S state.1 state.2 ctx packet
    return state) (BlockDecoder.new,[])

/-- The packets that any chain of nodes makes from those of a source: each node
    receives some, and forwards a packet that mixes what it stores. -/
inductive Recoded (ctx : Context) (Source : SignedPacket F N Proof → Prop) : SignedPacket F N Proof → Prop
  | source {packet : SignedPacket F N Proof} : Source packet → Recoded ctx Source packet
  | forwarded {received : List (SignedPacket F N Proof)} {decoder : BlockDecoder F N} {proofs : List Proof}
      {alphas : List F} {chunk : CodedChunk F N} {proof : Proof} :
      (∀ p ∈ received, Recoded ctx Source p) → receive_all S ctx received = .ok (decoder,proofs) →
      decoder.reencode_with alphas = .ok chunk → S.combine proofs alphas = .ok proof →
      Recoded ctx Source ⟨chunk,proof⟩

/-- A packet verifies under the context. -/
def Verifies (ctx : Context) (packet : SignedPacket F N Proof) : Prop :=
  S.verify ctx packet.chunk packet.proof = .ok (.ok ())

/-- The decoder and the proofs hold these packets, in the order in which they were
    accepted; each of them is verified and has `m` data scalars. -/
structure Stored (ctx : Context) (m : Nat) (packets : List (SignedPacket F N Proof)) (decoder : BlockDecoder F N)
    (proofs : List Proof) : Prop where
  sound : Sound decoder
  chunks : decoder.coded_chunks = packets.map SignedPacket.chunk
  aligned : proofs = packets.map SignedPacket.proof
  verified : ∀ p ∈ packets, Verifies S ctx p
  width : ∀ p ∈ packets, p.chunk.w.v.length = m

variable {S} {ctx : Context} {m : Nat} {packets : List (SignedPacket F N Proof)} {decoder : BlockDecoder F N}
  {proofs : List Proof}

theorem Stored.new : Stored S ctx m [] (BlockDecoder.new : BlockDecoder F N) [] :=
  ⟨BlockDecoder.sound_new,rfl,rfl,by simp,by simp⟩

theorem Stored.rank (stored : Stored S ctx m packets decoder proofs) : decoder.rank = packets.length := by
  rw [BlockDecoder.rank_eq stored.sound,stored.chunks,List.length_map]

/-- What receiving one packet does: it is refused, or it is verified and adds
    nothing, or it is verified, raises the rank and is stored. -/
theorem coded_receive_spec (stored : Stored S ctx m packets decoder proofs) (packet : SignedPacket F N Proof)
    (wide : packet.chunk.w.v.length = m) {r : Except Error Unit} (checked : S.verify ctx packet.chunk packet.proof = .ok r) :
    (∃ e, r = .error e ∧ coded_receive S decoder proofs ctx packet = .ok ((decoder,proofs),.error (S.display e))) ∨
    (r = .ok () ∧ packet.chunk.coefficients ∈ coefficient_span decoder.coded_chunks ∧
      coded_receive S decoder proofs ctx packet = .ok ((decoder,proofs),.ok false)) ∨
    (r = .ok () ∧ packet.chunk.coefficients ∉ coefficient_span decoder.coded_chunks ∧ decoder.is_complete = false ∧
      ∃ decoder' proofs', coded_receive S decoder proofs ctx packet = .ok ((decoder',proofs'),.ok true) ∧
        Stored S ctx m (packets ++ [packet]) decoder' proofs') := by
  cases r with
  | error e => exact .inl ⟨e,rfl,by simp only [coded_receive,checked,ok_bind,pure_eq]⟩
  | ok u =>
    right
    rcases BlockDecoder.add_spec stored.sound packet.chunk with ⟨member,ran⟩ | ⟨fresh,room,d',ran,sound',grown⟩
    · left
      refine ⟨rfl,member,?_⟩
      simp only [coded_receive,checked,ok_bind,ran,Bool.false_eq_true,if_false,pure_eq]
    · right
      refine ⟨rfl,fresh,room,d',proofs ++ [packet.proof],?_,sound',?_,?_,?_,?_⟩
      · simp only [coded_receive,checked,ok_bind,ran,if_true,pure_eq]
      · rw [grown,stored.chunks,List.map_append,List.map_singleton]
      · rw [stored.aligned,List.map_append,List.map_singleton]
      · intro p member
        rcases List.mem_append.mp member with old | new
        · exact stored.verified p old
        · obtain rfl := List.mem_singleton.mp new
          exact checked
      · intro p member
        rcases List.mem_append.mp member with old | new
        · exact stored.width p old
        · obtain rfl := List.mem_singleton.mp new
          exact wide

/-- Whatever the node holds, a packet is stored with its proof or changes nothing. -/
theorem coded_receive_cases {packet : SignedPacket F N Proof} {state : BlockDecoder F N × List Proof}
    {r : Except String Bool} (ran : coded_receive S decoder proofs ctx packet = .ok (state,r)) :
    r ≠ .ok true ∧ state = (decoder,proofs) ∨
      r = .ok true ∧ state.1.coded_chunks = decoder.coded_chunks ++ [packet.chunk] ∧ state.2 = proofs ++ [packet.proof] ∧
        state.1.rank = decoder.rank + 1 := by
  rw [coded_receive,bind_ok] at ran
  obtain ⟨checked,_,ran⟩ := ran
  cases checked with
  | error e =>
    obtain ⟨rfl,rfl⟩ := ok_pair ran
    exact .inl ⟨by simp,rfl⟩
  | ok u =>
    simp only [bind_ok] at ran
    obtain ⟨⟨decoder',grew⟩,added,ran⟩ := ran
    rcases BlockDecoder.add_cases added with ⟨rfl,rfl⟩ | ⟨rfl,stored,raised⟩
    · obtain ⟨rfl,rfl⟩ := ok_pair ran
      exact .inl ⟨by simp,rfl⟩
    · obtain ⟨rfl,rfl⟩ := ok_pair ran
      exact .inr ⟨rfl,stored,rfl,raised⟩

theorem coded_receive_sound (sound : Sound decoder) {packet : SignedPacket F N Proof}
    {state : BlockDecoder F N × List Proof} {r : Except String Bool}
    (ran : coded_receive S decoder proofs ctx packet = .ok (state,r)) : Sound state.1 := by
  rw [coded_receive,bind_ok] at ran
  obtain ⟨checked,_,ran⟩ := ran
  cases checked with
  | error e =>
    obtain ⟨rfl,_⟩ := ok_pair ran
    exact sound
  | ok u =>
    rcases BlockDecoder.add_spec sound packet.chunk with ⟨_,added⟩ | ⟨_,_,decoder',added,sound',_⟩
    · simp only [added,ok_bind] at ran
      obtain ⟨rfl,_⟩ := ok_pair ran
      exact sound
    · simp only [added,ok_bind] at ran
      obtain ⟨rfl,_⟩ := ok_pair ran
      exact sound'

/-- Receiving did not panic: verification returned. -/
theorem coded_receive_verified {packet : SignedPacket F N Proof} {r : (BlockDecoder F N × List Proof) × Except String Bool}
    (ran : coded_receive S decoder proofs ctx packet = .ok r) :
    ∃ checked, S.verify ctx packet.chunk packet.proof = .ok checked := by
  rw [coded_receive,bind_ok] at ran
  obtain ⟨checked,verified,_⟩ := ran
  exact ⟨checked,verified⟩

/-- Receiving keeps what is stored, or stores the packet besides. -/
theorem coded_receive_stored (stored : Stored S ctx m packets decoder proofs) {packet : SignedPacket F N Proof}
    (wide : packet.chunk.w.v.length = m) {state : BlockDecoder F N × List Proof} {r : Except String Bool}
    (ran : coded_receive S decoder proofs ctx packet = .ok (state,r)) :
    Stored S ctx m packets state.1 state.2 ∧ r ≠ .ok true ∨
      r = .ok true ∧ (Verifies S ctx packet ∧ packet.chunk.coefficients ∉ coefficient_span decoder.coded_chunks) ∧
        Stored S ctx m (packets ++ [packet]) state.1 state.2 := by
  obtain ⟨checked,verified⟩ := coded_receive_verified ran
  rcases coded_receive_spec stored packet wide verified with ⟨e,_,same⟩ | ⟨_,_,same⟩ | ⟨good,fresh,_,d',p',same,stored'⟩
  · rw [same] at ran
    obtain ⟨rfl,rfl⟩ := ok_pair ran
    exact .inl ⟨stored,by simp⟩
  · rw [same] at ran
    obtain ⟨rfl,rfl⟩ := ok_pair ran
    exact .inl ⟨stored,by simp⟩
  · rw [same] at ran
    obtain ⟨rfl,rfl⟩ := ok_pair ran
    exact .inr ⟨rfl,⟨by rw [Verifies,verified,good],fresh⟩,stored'⟩

/-- Whatever a node has received, it stores verified packets with their proofs. -/
theorem receive_all_stored {received : List (SignedPacket F N Proof)}
    (wide : ∀ p ∈ received, p.chunk.w.v.length = m) (ran : receive_all S ctx received = .ok (decoder,proofs)) :
    ∃ packets, Stored S ctx m packets decoder proofs ∧ packets.Sublist received := by
  induction received using List.reverseRecOn generalizing decoder proofs with
  | nil =>
    obtain ⟨rfl,rfl⟩ := ok_pair ran
    exact ⟨[],Stored.new,List.Sublist.refl _⟩
  | append_singleton received packet ih =>
    simp only [receive_all,List.foldlM_append,bind_ok,List.foldlM_cons,List.foldlM_nil] at ran
    obtain ⟨⟨d,p⟩,before,state,⟨⟨state',r⟩,step,same⟩,last⟩ := ran
    obtain rfl := Except.ok.inj same
    obtain rfl : state' = (decoder,proofs) := by simpa using last
    obtain ⟨packets,stored,part⟩ := ih (fun q member => wide q (by simp [member])) before
    rcases coded_receive_stored stored (wide packet (by simp)) step with ⟨kept,_⟩ | ⟨_,_,grown⟩
    · exact ⟨packets,kept,part.trans (List.sublist_append_left _ _)⟩
    · exact ⟨packets ++ [packet],grown,part.append (List.Sublist.refl _)⟩

/-- Receiving returns if the verification of each packet does. -/
theorem receive_all_runs {received : List (SignedPacket F N Proof)} (wide : ∀ p ∈ received, p.chunk.w.v.length = m)
    (checks : ∀ p ∈ received, ∃ checked, S.verify ctx p.chunk p.proof = .ok checked) :
    ∃ decoder proofs packets, receive_all S ctx received = .ok (decoder,proofs) ∧ Stored S ctx m packets decoder proofs ∧
      packets.Sublist received := by
  obtain ⟨⟨decoder,proofs⟩,ran,_⟩ := fold_keeps (fun state packet => do
      let (state,_) ← coded_receive S state.1 state.2 ctx packet
      return state)
    (fun _ (state : BlockDecoder F N × List Proof) => ∃ packets, Stored S ctx m packets state.1 state.2) received
    (BlockDecoder.new,[]) ⟨[],Stored.new⟩ (by
      rintro before packet after ⟨decoder,proofs⟩ split ⟨packets,stored⟩
      have member : packet ∈ received := by rw [split]; simp
      obtain ⟨checked,verified⟩ := checks packet member
      rcases coded_receive_spec stored packet (wide packet member) verified with
        ⟨e,_,ran⟩ | ⟨_,_,ran⟩ | ⟨_,_,_,decoder',proofs',ran,grown⟩
      · exact ⟨(decoder,proofs),by rw [ran]; rfl,packets,stored⟩
      · exact ⟨(decoder,proofs),by rw [ran]; rfl,packets,stored⟩
      · exact ⟨(decoder',proofs'),by rw [ran]; rfl,_,grown⟩)
  obtain ⟨packets,stored,part⟩ := receive_all_stored wide ran
  exact ⟨decoder,proofs,packets,ran,stored,part⟩

/-- The forwarded chunk mixes the stored chunks. -/
theorem Stored.reencode (stored : Stored S ctx m packets decoder proofs) (some_packet : packets ≠ []) {alphas : List F}
    (long : alphas.length = packets.length) :
    ∃ c, decoder.reencode_with alphas = .ok c ∧ c.w.v.length = m ∧
      coords m c.w.v = comb alphas (packets.map (fun p => coords m p.chunk.w.v)) ∧
      c.coefficients = comb alphas (packets.map (fun p => p.chunk.coefficients)) := by
  obtain ⟨c,ran,width,data,coefficients⟩ := BlockDecoder.reencode_with_spec (m := m) decoder alphas
    (by rw [stored.chunks]; simpa using some_packet) (by rw [stored.chunks,List.length_map,long]) (by
      intro c member
      rw [stored.chunks] at member
      obtain ⟨p,listed,rfl⟩ := List.mem_map.mp member
      exact stored.width p listed)
  rw [stored.chunks,List.map_map] at data coefficients
  exact ⟨c,ran,width,data,coefficients⟩

end

end Rlnc.Integrity
