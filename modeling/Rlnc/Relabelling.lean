import Rlnc.Binding
import Rlnc.Robustness

/-!
Packets under the number of another block. The Pedersen protocol verifies every packet
under one context, whatever the number it arrives with, so that a packet of one block is
accepted as a packet of another (`relabelled_accepted`). As long as every verified packet is
handed over with the number of the block whose commitments it carries, a receiver stores and
decodes for a number nothing but the block that was proposed with it (`labelled_bound`).
-/
namespace Rlnc.Relabelling
open Rlnc.Panics Rlnc.Combination Rlnc.Wire Rlnc.Packing Rlnc.Coding Rlnc.Draws Rlnc.Blocks Rlnc.Groups Rlnc.Integrity
open Rlnc.Pedersen Rlnc.Binding Rlnc.Protocols Rlnc.PedersenProtocol Rlnc.Actor Rlnc.Runs Rlnc.CodedRuns Rlnc.Agreement
open Rlnc.Network Rlnc.Robustness
set_option linter.unusedSectionVars false

section
variable {F G S PublicKey Signature : Type} [Field F] [DecidableEq F] [PackableField F] [LawfulPackable F] [FixedCodec F]
  [Random F] [AddCommGroup G] [DecidableEq G] [Module F G] [Space F G] [LawfulSpace F G] [HashToGroup G] [FixedCodec G]
  [Verifier PublicKey Signature] [Signer S PublicKey Signature] [FixedCodec Signature] [FixedCodec UInt32]
  [FixedCodec UInt64] [BytesCodec] [RangedBlockCodec] {K : Type} [DecidableEq K] [SliceRandom] {N m : Nat}

variable (F N) in
/-- These are the commitments to the block that was proposed with this number. -/
def CommitsTo (key : CommitmentKey G) (m : Nat) (proposed : List Block) (n : Nat) (listed : List G) : Prop :=
  ∃ (block : Block) (chunks : List (Chunk F)) (byte_len : Nat), proposed[n]? = some block ∧
    block.as_chunks N m = .ok (chunks,byte_len) ∧ listed = commitments key chunks

variable (F G N) in
/-- The signature is ideal: it is accepted for the commitments to proposed blocks only. -/
def SignedBlocks (Signature : Type) [Verifier PublicKey Signature] (proposer_pk : PublicKey) (m : Nat)
    (proposed : List Block) : Prop :=
  ∀ (msg : Bytes) (signature : Signature), Verifier.verify proposer_pk PEDERSEN_SIG_NS msg signature = true →
    ∃ n listed, CommitsTo F N (CommitmentKey.canonical m : CommitmentKey G) m proposed n listed ∧
      msg = serialize_commitments listed

/-- A packet that verifies with the commitments to a proposed block is handed over with the number of that block. -/
def RightlyNumbered (m : Nat) (proposed : List Block) (n : Nat) (s : PedersenProtocol F G S PublicKey Signature N)
    (data : Bytes) : Prop :=
  ∀ packet, SignedPacket.deserialize data m = .ok (.ok packet) → Verifies (PedersenScheme F G PublicKey Signature N) s.ctx packet →
    ∀ k, CommitsTo F N (CommitmentKey.canonical m : CommitmentKey G) m proposed k packet.proof.commitments →
      CommitsTo F N (CommitmentKey.canonical m : CommitmentKey G) m proposed n packet.proof.commitments

/-- No packet that the protocol is handed is relabelled. -/
def Labelled (m : Nat) (proposed : List Block) (log : List (Event (PedersenProtocol F G S PublicKey Signature N) K)) : Prop :=
  Handed (RightlyNumbered m proposed) log

/-- What a receiver accepts and decodes for a number belongs to the block that was
    proposed with this number. -/
structure BoundToBlocks (m : Nat) (proposed : List Block)
    (log : List (Event (PedersenProtocol F G S PublicKey Signature N) K)) : Prop where
  accepts : ∀ s n data t useful, .ingest s .Data n data ∈ log →
    (protocol F G S PublicKey Signature N).ingest s .Data n data = .ok (t,.ok useful) →
    ∃ packet : SignedPacket F N (PedersenProof G Signature), SignedPacket.deserialize data m = .ok (.ok packet) ∧
      EncodesBlock (fun n => proposed[n]?) m n packet.chunk
  decodes : ∀ n block, .decoded n block ∈ log → proposed[n]? = some block

/-- An accepted message is a packet that verifies. -/
theorem accepted_verifies {s t : PedersenProtocol F G S PublicKey Signature N} {n : Nat} {data : Bytes} {useful : Bool}
    (ran : (protocol F G S PublicKey Signature N).ingest s .Data n data = .ok (t,.ok useful)) :
    ∃ packet, SignedPacket.deserialize data s.m = .ok (.ok packet) ∧
      Verifies (PedersenScheme F G PublicKey Signature N) s.ctx packet := by
  simp only [protocol,PedersenProtocol.ingest,bind_ok] at ran
  obtain ⟨parsed,read,ran⟩ := ran
  cases parsed with
  | error e => cases (ok_pair ran).2
  | ok packet =>
    simp only [bind_ok] at ran
    obtain ⟨⟨_,r⟩,received,ran⟩ := ran
    obtain ⟨_,rfl⟩ := ok_pair ran
    refine ⟨packet,read,?_⟩
    rw [coded_receive,bind_ok] at received
    obtain ⟨checked,verified,received⟩ := received
    cases checked with
    | error e => cases (ok_pair received).2
    | ok u => exact verified

/-- Under a binding key what verifies with the commitments to a block encodes the block. -/
theorem verified_encodes {ctx : PedersenContext G PublicKey} (binding : BindingKey F ctx.key)
    (width : ctx.key.generators.length = m) {proposed : List Block} {n : Nat}
    {packet : SignedPacket F N (PedersenProof G Signature)} (wide : packet.chunk.w.v.length = m)
    (carried : CommitsTo F N ctx.key m proposed n packet.proof.commitments)
    (verified : Verifies (PedersenScheme F G PublicKey Signature N) ctx packet) :
    EncodesBlock (fun n => proposed[n]?) m n packet.chunk := by
  subst width
  obtain ⟨block,chunks,byte_len,known,split,same⟩ := carried
  have parts := (Block.as_chunks_ok split).2.2
  have matched := ((verifies_iff packet.chunk wide packet.proof).mp verified).2
  rw [same] at matched
  exact ⟨block,chunks,byte_len,known,split,
    (matches_iff_encodes binding parts.count parts.sizes packet.chunk wide).mp matched⟩

/-- In every run in which no packet that is handed over is relabelled, whatever else is
    replayed or made up, what a receiver accepts and decodes is bound to its block. -/
theorem labelled_bound (m : Nat) (proposer_pk : PublicKey) (proposed : List Block) (some_block : proposed ≠ [])
    (fits : ∀ block ∈ proposed, Block.Fits F block N m)
    (writable : ∀ block ∈ proposed, block.transactions.length < 2 ^ 32)
    (binding : BindingKey F (CommitmentKey.canonical m : CommitmentKey G))
    (ideal : SignedBlocks F G N Signature proposer_pk m proposed)
    (fixed : ∀ x : G, (FixedCodec.write x).length = FixedCodec.SIZE G)
    (injective : Function.Injective (FixedCodec.write : G → Bytes))
    (signer : Option (PedersenSigner S)) (peers : List K) (mesh_degree : Nat) (rng : Rng) (num_blocks : Nat)
    (messages : List (K × Channel × Bytes)) :
    let node := receive_all (protocol F G S PublicKey Signature N) num_blocks
      (Receiver.new (NodeActor.new (PedersenProtocol.new m proposer_pk signer) peers mesh_degree rng)) messages
    Labelled m proposed node.log → BoundToBlocks m proposed node.log := by
  intro node labelled
  obtain ⟨first,others,rfl⟩ := List.exists_cons_of_ne_nil some_block
  have positive : 0 < m := Nat.pos_of_mul_pos_left (fits first List.mem_cons_self).slots
  have width : (CommitmentKey.canonical m : CommitmentKey G).generators.length = m := by
    simp [CommitmentKey.canonical,CommitmentKey.deterministic]
  have some_size := encoded_size_positive binding (by rw [width]; exact positive) fixed injective
  let terms : Terms F N := block_terms (fun _ _ => True) (fun n => (first :: others)[n]?) m
  have lawful : Lawful (PedersenScheme F G PublicKey Signature N) (canonical_context m proposer_pk) m terms :=
    block_terms_lawful_of _ fun n block known _ _ _ parts read =>
      Block.from_chunks_any_size (writable block (List.mem_of_getElem? known)) parts read
  have works : Coded (protocol F G S PublicKey Signature N) (PedersenScheme F G PublicKey Signature N) view := coded
  have keeps : KeepsHanded (K := K) (protocol F G S PublicKey Signature N) (Idle view (canonical_context m proposer_pk) m)
      (Busy (PedersenScheme F G PublicKey Signature N) view (canonical_context m proposer_pk) m terms)
      (RightlyNumbered m (first :: others))
      (Logged (PedersenScheme F G PublicKey Signature N) view (canonical_context m proposer_pk) m terms) (fun _ => True) := by
    refine ⟨fun n s data idle => announce_kept works idle fun _ => trivial,fun n s data busy numbered => ?_⟩
    refine data_kept works lawful positive busy (fun packet read good => ?_) (fun _ => trivial) (fun _ => trivial)
    have context : s.ctx = canonical_context m proposer_pk n := Option.some.inj busy.ctx
    have wide := SignedPacket.deserialize_width read
    have authentic := ((verifies_iff packet.chunk (wide.trans width.symm) packet.proof).mp good).1
    obtain ⟨k,listed,committed,same⟩ := ideal _ _ authentic
    rw [← serialize_commitments_injective some_size fixed injective same] at committed
    exact verified_encodes binding width wide (numbered packet read (by rw [context]; exact good) k committed) good
  have logged : ∀ event ∈ node.log, Logged (PedersenScheme F G PublicKey Signature N) view (canonical_context m proposer_pk) m
      terms event := by
    rcases receive_all_handed keeps num_blocks messages (fun _ => run_new _ rfl rfl ⟨⟨rfl,rfl⟩,rfl,rfl⟩) labelled with
      ⟨_,steady⟩ | ⟨_,stopped⟩
    · exact steady.logged
    · exact stopped.logged
  constructor
  · intro s n data t useful heard accepted
    obtain ⟨⟨⟨wide,_⟩,known,_⟩,admissible⟩ := logged _ heard
    obtain ⟨packet,read,good⟩ := accepted_verifies accepted
    have read' : SignedPacket.deserialize data m = .ok (.ok packet) := wide ▸ read
    have context : s.ctx = canonical_context m proposer_pk n := Option.some.inj known
    exact ⟨packet,read',admissible packet read' (context ▸ good)⟩
  · intro n block decoded
    exact logged _ decoded

end

section
open Rlnc.Scalars Rlnc.Reference

private abbrev Node := PedersenProtocol Scalar Scalar Registry Registry UInt64 4

/-- What a proposer with four targets sends for its first two blocks. -/
private def emitted (registry : Registry) : Rust (Proposed Nat × Proposed Nat) := do
  let P := protocol Scalar Scalar Registry Registry UInt64 4
  let (actor,first) ← propose_block P 0 (NodeActor.new (PedersenProtocol.new 1 registry (some ⟨registry⟩)) [1,2,3,4] 4 powers) 0
  let (_,second) ← propose_block P 0 actor 1
  return (first,second)

private def chunks_of (block : Block) : List (Chunk Scalar) :=
  match (block.as_chunks 4 1 : Rust (List (Chunk Scalar) × Nat)) with
  | .error _ => []
  | .ok (chunks,_) => chunks

private def committed (block : Block) : List Scalar := commitments (CommitmentKey.canonical 1) (chunks_of block)

/-- The key of the proposer, which has signed its two blocks. -/
private def two_signed : Registry :=
  match emitted ⟨[]⟩ with
  | .error _ => ⟨[]⟩
  | .ok (first,second) => ⟨[serialize_commitments (committed first.block),serialize_commitments (committed second.block)]⟩

/-- The receiver 1 is sent the announcement of the first block and then packets, as the
    packets of block 0. -/
private def sent_as_first (announced packets : Proposed Nat) : List (Nat × Channel × Bytes) :=
  (0,.Announce,announced.ann_msg) :: packets.packets.map fun entry => (0,.Data,message 0 (entry.2.drop 8))

private def received (messages : List (Nat × Channel × Bytes)) : Receiver Node Nat :=
  receive_all (protocol Scalar Scalar Registry Registry UInt64 4) 1
    (Receiver.new (NodeActor.new (PedersenProtocol.new 1 two_signed none) [0] 1 powers)) messages

/-- The packets of the second block are accepted as packets of the first, and decoded. -/
theorem relabelled_accepted : ∃ first second, emitted two_signed = .ok (first,second) ∧ first.block ≠ second.block ∧
    decodes (received (sent_as_first first second)).log = [(0,second.block)] := by
  have ran : (emitted two_signed).map (fun sent => decide (sent.1.block ≠ sent.2.block ∧
      decodes (received (sent_as_first sent.1 sent.2)).log = [(0,sent.2.block)])) = .ok true := by decide +kernel
  obtain ⟨⟨first,second⟩,sent,both⟩ := map_ok ran
  exact ⟨first,second,sent,of_decide_eq_true both⟩

/-- A packet that is handed over for block 0 and carries these commitments. -/
private def carries (listed : List Scalar) (handed : Nat × Bytes) : Bool :=
  match (SignedPacket.deserialize handed.2 1 : Rust (Except String (SignedPacket Scalar 4 (PedersenProof Scalar UInt64)))) with
  | .ok (.ok packet) => packet.proof.commitments == listed && handed.1 == 0
  | _ => false

private theorem emitted_signed : ∃ first second, emitted two_signed = .ok (first,second) ∧
    (two_signed.signed = [serialize_commitments (committed first.block),serialize_commitments (committed second.block)] ∧
      first.block.transactions = [] ∧ second.block.transactions = []) ∧
    first.block.as_chunks 4 1 = .ok (chunks_of first.block,97) ∧
    second.block.as_chunks 4 1 = .ok (chunks_of second.block,97) := by
  have ran : (emitted two_signed).map (fun sent => decide ((two_signed.signed =
        [serialize_commitments (committed sent.1.block),serialize_commitments (committed sent.2.block)] ∧
      sent.1.block.transactions = [] ∧ sent.2.block.transactions = []) ∧
      sent.1.block.as_chunks 4 1 = .ok (chunks_of sent.1.block,97) ∧
      sent.2.block.as_chunks 4 1 = .ok (chunks_of sent.2.block,97))) = .ok true := by decide +kernel
  obtain ⟨⟨first,second⟩,sent,all⟩ := map_ok ran
  exact ⟨first,second,sent,of_decide_eq_true all⟩

private theorem first_honest : ∃ first second, emitted two_signed = .ok (first,second) ∧
    decodes (received (sent_as_first first first)).log = [(0,first.block)] ∧
    ∀ entry ∈ taken (received (sent_as_first first first)).log, carries (committed first.block) entry.2 = true := by
  have ran : (emitted two_signed).map (fun sent => decide (
      decodes (received (sent_as_first sent.1 sent.1)).log = [(0,sent.1.block)] ∧
      (taken (received (sent_as_first sent.1 sent.1)).log).all (fun entry => carries (committed sent.1.block) entry.2) = true)) =
        .ok true := by
    decide +kernel
  obtain ⟨⟨first,second⟩,sent,all⟩ := map_ok ran
  obtain ⟨decoded,carried⟩ := of_decide_eq_true all
  exact ⟨first,second,sent,decoded,List.all_eq_true.mp carried⟩

/-- The packets of the first block are accepted as its packets. -/
theorem labelled_bound_four : ∃ first second, emitted two_signed = .ok (first,second) ∧
    decodes (received (sent_as_first first first)).log = [(0,first.block)] ∧
    BoundToBlocks 1 [first.block,second.block] (received (sent_as_first first first)).log := by
  obtain ⟨first,second,sent,⟨signed,empty,empty'⟩,split,split'⟩ := emitted_signed
  obtain ⟨_,_,again,decoded,carried⟩ := first_honest
  obtain ⟨rfl,rfl⟩ := ok_pair (sent.symm.trans again)
  have key : (CommitmentKey.canonical 1 : CommitmentKey Scalar) =
      ⟨[HashToGroup.hash_to_group PEDERSEN_GEN_DST (to_le_bytes 0)]⟩ := rfl
  have binding : BindingKey Scalar (CommitmentKey.canonical 1 : CommitmentKey Scalar) := by
    rw [key]
    exact one_generator_binding (by decide +kernel)
  have blocks : ∀ block ∈ [first.block,second.block], Block.Fits Scalar block 4 1 ∧ block.transactions.length < 2 ^ 32 := by
    intro block listed
    simp only [List.mem_cons,List.not_mem_nil,or_false] at listed
    rcases listed with rfl | rfl
    · exact ⟨(Block.as_chunks_ok split).1,by rw [empty]; decide⟩
    · exact ⟨(Block.as_chunks_ok split').1,by rw [empty']; decide⟩
  have ideal : SignedBlocks Scalar Scalar 4 UInt64 two_signed 1 [first.block,second.block] := by
    intro msg signature verified
    have member : two_signed.signed.contains msg = true := verified
    rw [signed,List.contains_iff_mem] at member
    rcases List.mem_pair.mp member with rfl | rfl
    · exact ⟨0,committed first.block,⟨first.block,_,_,rfl,split,rfl⟩,rfl⟩
    · exact ⟨1,committed second.block,⟨second.block,_,_,rfl,split',rfl⟩,rfl⟩
  have labelled : Labelled 1 [first.block,second.block] (received (sent_as_first first first)).log := by
    intro s n data handed packet read _ _ _
    have honest := carried _ handed
    simp only [carries,read,Bool.and_eq_true,beq_iff_eq] at honest
    rw [honest.2]
    exact ⟨first.block,chunks_of first.block,97,rfl,split,honest.1⟩
  exact ⟨first,second,sent,decoded,labelled_bound 1 two_signed [first.block,second.block] (by simp)
    (fun block listed => (blocks block listed).1) (fun block listed => (blocks block listed).2) binding ideal
    (fun _ => to_be_length 32 _) scalar_write_injective none [0] 1 powers 1 (sent_as_first first first) labelled⟩

end

end Rlnc.Relabelling
