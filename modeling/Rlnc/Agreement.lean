import Rlnc.BfkwProtocol
import Rlnc.CodedRuns

/-!
Agreement with the proposer. If every packet that verifies for a block encodes
the block that was proposed under its number, then a receiver decodes this block
or none, whatever length was announced (`block_terms_lawful`). For the BFKW protocol
the context of a block comes from its number, so unforgeable signatures are
enough against any messages (`receivers_agree`).
-/
namespace Rlnc.Agreement
open Rlnc.Panics Rlnc.Combination Rlnc.Wire Rlnc.Packing Rlnc.Coding Rlnc.Draws Rlnc.Blocks Rlnc.Groups Rlnc.Integrity
open Rlnc.Bfkw Rlnc.Protocols Rlnc.BfkwProtocol Rlnc.Actor Rlnc.Runs Rlnc.CodedRuns
set_option linter.unusedSectionVars false

section
variable {F : Type} [Field F] [DecidableEq F] [FixedCodec F] [Random F] [PackableField F] [FixedCodec UInt64] [BytesCodec]
  {N : Nat}

/-- The chunk combines the chunks of the block that was proposed with this number. -/
def EncodesBlock (proposed : Nat → Option Block) (m n : Nat) (c : CodedChunk F N) : Prop :=
  ∃ block chunks byte_len, proposed n = some block ∧ block.as_chunks N m = .ok (chunks,byte_len) ∧ Encodes m chunks c

/-- Verified chunks encode the proposed block, and it is the one that is decoded. -/
def block_terms (announced : Nat → Nat → Prop) (proposed : Nat → Option Block) (m : Nat) : Terms F N :=
  ⟨announced,EncodesBlock proposed m,fun n block => proposed n = some block⟩

variable [LawfulPackable F] [LawfulBlockCodec] {Context Proof Error : Type} [IntegrityProof Proof]

/-- Packets that encode proposed blocks encode the same chunks. -/
theorem encodes_same {proposed : Nat → Option Block} {m n : Nat} {chunks : List (CodedChunk F N)} (some_chunk : chunks ≠ [])
    (encoded : ∀ c ∈ chunks, EncodesBlock proposed m n c) :
    ∃ block originals byte_len, proposed n = some block ∧ block.as_chunks N m = .ok (originals,byte_len) ∧
      ∀ c ∈ chunks, Encodes m originals c := by
  obtain ⟨first,listed⟩ := List.exists_mem_of_ne_nil _ some_chunk
  obtain ⟨block,originals,byte_len,known,split,_⟩ := encoded first listed
  refine ⟨block,originals,byte_len,known,split,fun c member => ?_⟩
  obtain ⟨block',originals',byte_len',known',split',encodes⟩ := encoded c member
  obtain rfl := Option.some.inj (known.symm.trans known')
  obtain ⟨rfl,rfl⟩ := ok_pair (split.symm.trans split')
  exact encodes

/-- It is enough that nothing else is read from the chunks of a proposed block. -/
theorem block_terms_lawful_of {S : IntegrityScheme F N Context Proof Error} {derive : Nat → Context} {m : Nat}
    (announced : Nat → Nat → Prop) {proposed : Nat → Option Block}
    (reads : ∀ n block, proposed n = some block → ∀ (chunks : List (Chunk F)) byte_len other,
      Block.ChunksOf block N m chunks → Block.from_chunks N chunks byte_len = .ok other → other = block) :
    Lawful S derive m (block_terms announced proposed m : Terms F N) := by
  constructor
  · intro n packets decoder proofs alphas c stored some_packet genuine long ran
    have some_stored : decoder.coded_chunks ≠ [] := by rw [stored.chunks]; simpa using some_packet
    obtain ⟨block,originals,byte_len,known,split,encoded⟩ := encodes_same some_stored (m := m) (by
      intro c member
      rw [stored.chunks] at member
      obtain ⟨p,listed,rfl⟩ := List.mem_map.mp member
      exact genuine p listed)
    obtain ⟨c',ran',encodes⟩ := BlockDecoder.reencode_encodes decoder alphas some_stored
      (by rw [stored.chunks,List.length_map,long]) (Block.as_chunks_ok split).2.2.count encoded
    obtain rfl := Except.ok.inj (ran.symm.trans ran')
    exact ⟨block,originals,byte_len,known,split,encodes⟩
  · intro n packets decoder proofs length chunks block stored some_packet complete genuine _ decoded read
    have some_stored : decoder.coded_chunks ≠ [] := by
      rw [stored.chunks]
      simpa using some_packet
    obtain ⟨block',originals,byte_len,known,split,encoded⟩ := encodes_same some_stored (m := m) (by
      intro c member
      rw [stored.chunks] at member
      obtain ⟨p,listed,rfl⟩ := List.mem_map.mp member
      exact genuine p listed)
    have parts := (Block.as_chunks_ok split).2.2
    have originals_back := BlockDecoder.decode_encoded stored.sound complete parts.count parts.sizes encoded
    obtain rfl := Except.ok.inj (decoded.symm.trans originals_back)
    obtain rfl := reads n block' known _ _ _ parts read
    exact known

theorem block_terms_lawful {S : IntegrityScheme F N Context Proof Error} {derive : Nat → Context} {m : Nat}
    (announced : Nat → Nat → Prop) {proposed : Nat → Option Block}
    (fits : ∀ n block, proposed n = some block → block.transactions.length ≤ MAX_TRANSACTIONS_BYTES) :
    Lawful S derive m (block_terms announced proposed m : Terms F N) :=
  block_terms_lawful_of announced fun n block known _ _ _ parts read =>
    Block.from_chunks_any_length (fits n block known) parts read

end

section
variable {F G1 G2 K : Type} [Field F] [DecidableEq F] [PackableField F] [LawfulPackable F] [FixedCodec F] [Random F]
  [AddCommGroup G1] [Module F G1] [AddCommGroup G2] [Module F G2] [Space F G2] [HashToGroup G2] [PairingGroup G1 G2]
  [FixedCodec G2] [FixedCodec UInt64] [BytesCodec] [LawfulBlockCodec] [DecidableEq K] [SliceRandom] {N : Nat}

/-- The context that is derived from a block number. -/
def number_context (N m : Nat) (proposer_pk : G1) (block_num : Nat) : BfkwContext G1 G2 :=
  ⟨derive_hash_points N (to_be 8 block_num) m,proposer_pk⟩

variable (F G2) in
/-- No delivered packet is a forgery: what verifies under the context of the number
    it is delivered with encodes the block that was proposed with this number. -/
def Unforged (N m : Nat) (proposer_pk : G1) (proposed : Nat → Option Block) (messages : List (K × Channel × Bytes)) :
    Prop :=
  ∀ message ∈ messages, message.2.1 = .Data → ∀ packet : SignedPacket F N (BfkwProof G2),
    SignedPacket.deserialize (message.2.2.drop 8) m = .ok (.ok packet) →
    BfkwScheme.verify (number_context N m proposer_pk (of_be (message.2.2.take 8))) packet.chunk packet.proof =
      .ok (.ok ()) → EncodesBlock proposed m (of_be (message.2.2.take 8)) packet.chunk

/-- Among malicious peers, every block that a receiver decodes is the proposer's
    block of this number. -/
theorem receivers_agree (m : Nat) (positive : 0 < m) (proposer_pk : G1) (proposed : Nat → Option Block)
    (fits : ∀ n block, proposed n = some block → block.transactions.length ≤ MAX_TRANSACTIONS_BYTES)
    (signer : Option (BfkwSigner F G1)) (peers : List K) (mesh_degree : Nat) (rng : Rng) (num_blocks : Nat)
    (messages : List (K × Channel × Bytes))
    (unforged : Unforged F G2 N m proposer_pk proposed messages) :
    ∀ n block, Event.decoded n block ∈ (receive_all (protocol F G1 G2 N) num_blocks
      (Receiver.new (NodeActor.new (BfkwProtocol.new m proposer_pk signer) peers mesh_degree rng)) messages).log →
      proposed n = some block := by
  intro n block decoded
  have lawful : Lawful (BfkwScheme F G1 G2 N) (number_context N m proposer_pk) m
      (block_terms (fun _ _ => True) proposed m) := block_terms_lawful _ fits
  have keeps := coded_keeps (K := K) (coded : Coded (protocol F G1 G2 N) (BfkwScheme F G1 G2 N) view) lawful positive
  have run : CodedRun _ _ _ _ _ _ := receive_all_run keeps num_blocks messages (run_new (NodeActor.new
    (BfkwProtocol.new m proposer_pk signer) peers mesh_degree rng) rfl rfl ⟨⟨rfl,rfl⟩,rfl,rfl⟩) (by
      rintro ⟨sender,channel,msg⟩ member _
      cases channel with
      | Announce => exact fun _ => trivial
      | Data =>
        intro packet read good
        exact unforged _ member rfl packet read good)
  exact run.logged _ decoded

end

section
open Rlnc.Scalars Rlnc.Reference

private def zero_hash : B256 := ⟨List.replicate 32 0,rfl⟩

/-- An empty block of zeros, which is one chunk of four zero scalars. -/
private def zero_block : Block := ⟨zero_hash,0,0,0,0,zero_hash,[]⟩

private def first_proposed (n : Nat) : Option Block := if n = 0 then some zero_block else none

private def zero_packet : SignedPacket Scalar 1 (BfkwProof Scalar) :=
  ⟨⟨chunk_of 0 [0,0,0],[1],rfl⟩,⟨scalar 3 * HashToGroup.hash_to_group BFKW_DST (to_be 8 0 ++ to_le_bytes 4)⟩⟩

/-- A relabelled packet, a forged announcement, garbage, and the honest packet. -/
private def attack : List (Bool × Channel × Bytes) :=
  [(true,.Data,message 1 zero_packet.serialize),(true,.Announce,message 0 (to_be 8 98)),(true,.Data,message 0 [1,2,3]),
    (false,.Data,message 0 zero_packet.serialize)]

private def attacked : Receiver (BfkwProtocol Scalar Scalar Scalar 1) Bool :=
  receive_all (protocol Scalar Scalar Scalar 1) 2
    (Receiver.new (NodeActor.new (BfkwProtocol.new 4 (scalar 3) none) [false] 1 (Stream'.const 1))) attack

private theorem zero_split : zero_block.as_chunks 1 4 = .ok ([(chunk_of 0 [0,0,0] : Chunk Scalar)],97) := by
  decide +kernel

private theorem attack_unforged : Unforged Scalar Scalar 1 4 (scalar 3) first_proposed attack := by
  intro message member data packet read good
  have honest : SignedPacket.deserialize zero_packet.serialize 4 = .ok (.ok zero_packet) := by decide +kernel
  simp only [attack,List.mem_cons,List.not_mem_nil,or_false] at member
  rcases member with rfl | rfl | rfl | rfl
  · -- under another number the signature does not verify
    obtain rfl : zero_packet = packet := Except.ok.inj (Except.ok.inj (honest.symm.trans read))
    have refused : BfkwScheme.verify (number_context 1 4 (scalar 3) 1) zero_packet.chunk zero_packet.proof =
        .ok (.error BfkwError.PairingMismatch) := by decide +kernel
    cases refused.symm.trans good
  · cases data
  · have garbage : (SignedPacket.deserialize [1,2,3] 4 : Rust (Except String (SignedPacket Scalar 1 (BfkwProof Scalar)))).map
        Except.isOk = .ok false := by decide +kernel
    have accepted := congrArg (Except.map Except.isOk) read
    cases garbage.symm.trans accepted
  · obtain rfl : zero_packet = packet := Except.ok.inj (Except.ok.inj (honest.symm.trans read))
    refine ⟨zero_block,[chunk_of 0 [0,0,0]],97,?_,zero_split,rfl,?_⟩
    · rw [(message_number (by decide) _).1]
      rfl
    · simp [zero_packet,comb]

/-- An attacked receiver decodes the honest block, although the length was forged. -/
theorem receivers_agree_attacked : decodes attacked.log = [(0,zero_block)] ∧
    ∀ n block, Event.decoded n block ∈ attacked.log → first_proposed n = some block :=
  ⟨by decide +kernel,receivers_agree 4 (by decide) (scalar 3) first_proposed (by
    intro n block known
    unfold first_proposed at known
    split at known
    · obtain rfl := Option.some.inj known
      exact Nat.zero_le _
    · cases known) none [false] 1 (Stream'.const 1) 2 attack attack_unforged⟩

end

end Rlnc.Agreement
