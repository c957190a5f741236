import Rlnc.Protocols

/-!
The strategy trait that the simulator drives, and the full-block strategy. A
strategy is `Faithful` to a block when a node that takes genuine packets only never
refuses one, forwards genuine packets, and decodes the block. The two coded
strategies store and forward packets in the same way; for them it is enough that
what mixes genuine packets is genuine (`Hereditary`).
-/
namespace Rlnc.Strategies
open Rlnc.Panics Rlnc.Combination Rlnc.Wire Rlnc.Packing Rlnc.Coding Rlnc.Draws Rlnc.Blocks Rlnc.Integrity Rlnc.Protocols
set_option linter.unusedSectionVars false

/-- A block propagation strategy; initializing a proposer may change its parameters. -/
structure Strategy (σ NodeState Packet : Type) where
  name : String
  forward_condition : σ → ForwardCondition
  init_proposer : σ → Block → Nat → Rng → Rust ((σ × NodeState × List Packet × Nat) × Rng)
  init_receiver : σ → Rust NodeState
  receive : σ → NodeState → Packet → Rust (NodeState × Except String Bool)
  can_decode : σ → NodeState → Bool
  forward : σ → NodeState → Nat → Rng → Rust (List Packet × Rng)
  packet_size : σ → Packet → Nat
  decode : σ → NodeState → Nat → Rust Block

/-- What the simulator may rely on: states of receivers are `Good`, and `Ready` as
    soon as they can forward. -/
structure Faithful {σ NodeState Packet : Type} (S : Strategy σ NodeState Packet) (params : σ) (block : Block)
    (byte_len : Nat) (Good Ready : NodeState → Prop) (Genuine : Packet → Prop) : Prop where
  receive : ∀ s p, Good s → S.can_decode params s = false → Genuine p →
    ∃ s' useful, S.receive params s p = .ok (s',.ok useful) ∧ Good s' ∧ (useful = true → Ready s') ∧
      (S.can_decode params s' = true → Ready s')
  forward : ∀ s, Good s → Ready s → ∀ count rng, ∃ packets rest, S.forward params s count rng = .ok (packets,rest) ∧
    ∀ p ∈ packets, Genuine p
  decode : ∀ s, Good s → S.can_decode params s = true → S.decode params s byte_len = .ok block

/-- A strategy starts a faithful run for every number of peers. -/
def Starts {σ NodeState Packet : Type} (S : Strategy σ NodeState Packet) (self : σ) (block : Block) : Prop :=
  ∀ count rng, ∃ self' proposer packets byte_len rest fresh,
    S.init_proposer self block count rng = .ok ((self',proposer,packets,byte_len),rest) ∧
    S.init_receiver self' = .ok fresh ∧ S.decode self' proposer byte_len = .ok block ∧
    ∃ (Good Ready : NodeState → Prop) (Genuine : Packet → Prop), Faithful S self' block byte_len Good Ready Genuine ∧
      Good fresh ∧ S.can_decode self' fresh = false ∧ ∀ p ∈ packets, Genuine p

/-! ### The full-block strategy -/

structure BaselineNodeState where
  block_bytes : Option Bytes

section
variable [FixedCodec UInt64] [BytesCodec]

namespace BaselineStrategy

def init_proposer (block : Block) (num_peers : Nat) (rng : Rng) :
    Rust ((Unit × BaselineNodeState × List Bytes × Nat) × Rng) :=
  let bytes := block.serialize
  let byte_len := bytes.length
  let packets := List.replicate num_peers bytes
  .ok (((),⟨some bytes⟩,packets,byte_len),rng)

def receive (state : BaselineNodeState) (packet : Bytes) : Rust (BaselineNodeState × Except String Bool) :=
  if state.block_bytes.isSome then .ok (state,.ok false)
  else .ok (⟨some packet⟩,.ok true)

def forward (state : BaselineNodeState) (num_peers : Nat) (rng : Rng) : Rust (List Bytes × Rng) := do
  let bytes ← expect state.block_bytes "forward called before decode"
  return (List.replicate num_peers bytes,rng)

def decode (state : BaselineNodeState) (_byte_len : Nat) : Rust Block := do
  let raw ← expect state.block_bytes "decode called before receive"
  match Block.decode raw with
  | .ok block => return block
  | .error _ => throw (.expectation "invalid block bytes")

end BaselineStrategy

def baseline : Strategy Unit BaselineNodeState Bytes where
  name := "Baseline"
  forward_condition _ := .AfterDecode
  init_proposer _ := BaselineStrategy.init_proposer
  init_receiver _ := .ok ⟨none⟩
  receive _ := BaselineStrategy.receive
  can_decode _ state := state.block_bytes.isSome
  forward _ := BaselineStrategy.forward
  packet_size _ packet := packet.length
  decode _ := BaselineStrategy.decode

/-- A block with a payload up to the maximum is decoded from its bytes. -/
theorem baseline_decodes [LawfulBlockCodec] {block : Block} (small : block.transactions.length ≤ MAX_TRANSACTIONS_BYTES)
    (byte_len : Nat) : BaselineStrategy.decode ⟨some block.serialize⟩ byte_len = .ok block := by
  have read : Block.read_cfg.run block.serialize = .ok (block,[]) := by
    have whole := Block.read_back block small []
    rwa [List.append_nil] at whole
  have decoded : Block.decode block.serialize = .ok block := by simp only [Block.decode,read]
  simp only [BaselineStrategy.decode,expect,ok_bind,decoded,pure_eq]

/-- The full-block strategy sends the bytes of the block and nothing else. -/
theorem baseline_starts [LawfulBlockCodec] {block : Block} (small : block.transactions.length ≤ MAX_TRANSACTIONS_BYTES) :
    Starts baseline () block := by
  intro count rng
  refine ⟨(),⟨some block.serialize⟩,List.replicate count block.serialize,block.serialize.length,rng,⟨none⟩,rfl,rfl,
    baseline_decodes small block.serialize.length,fun s => ∀ bytes, s.block_bytes = some bytes → bytes = block.serialize,
    fun s => s.block_bytes.isSome = true,fun p => p = block.serialize,?_,?_,rfl,?_⟩
  · constructor
    · rintro ⟨held⟩ p good empty rfl
      obtain rfl : held = none := by simpa [baseline] using empty
      exact ⟨⟨some block.serialize⟩,true,rfl,by rintro bytes ⟨⟩; rfl,fun _ => rfl,fun _ => rfl⟩
    · rintro ⟨held⟩ good ready count rng
      obtain ⟨bytes,rfl⟩ := Option.isSome_iff_exists.mp ready
      refine ⟨List.replicate count bytes,rng,rfl,fun p member => ?_⟩
      rw [List.eq_of_mem_replicate member]
      exact good bytes rfl
    · rintro ⟨held⟩ good complete
      obtain ⟨bytes,rfl⟩ := Option.isSome_iff_exists.mp complete
      rw [good bytes rfl]
      exact baseline_decodes small block.serialize.length
  · rintro bytes ⟨⟩
  · intro p member
    exact List.eq_of_mem_replicate member

end

/-! ### What the coded strategies share -/

section
variable {F : Type} [Field F] [DecidableEq F] {N m : Nat} {Context Proof Error : Type}
  {S : IntegrityScheme F N Context Proof Error} {ctx : Context} {chunks : List (Chunk F)}

/-- The state of a node: what it has accepted, with its proofs, and the verification context. -/
structure CodedNodeState (F : Type) (N : Nat) (Context Proof : Type) where
  decoder : BlockDecoder F N
  proofs : List Proof
  ctx : Context

namespace CodedNodeState
variable (S)

def receive (state : CodedNodeState F N Context Proof) (packet : SignedPacket F N Proof) :
    Rust (CodedNodeState F N Context Proof × Except String Bool) := do
  let ((decoder,proofs),r) ← coded_receive S state.decoder state.proofs state.ctx packet
  return ({ state with decoder := decoder, proofs := proofs },r)

def forward [Random F] (state : CodedNodeState F N Context Proof) (num_peers : Nat) (rng : Rng) :
    Rust (List (SignedPacket F N Proof) × Rng) :=
  coded_forward S state.decoder state.proofs num_peers rng

def decode [PackableField F] [FixedCodec UInt64] [BytesCodec] (state : CodedNodeState F N Context Proof) (byte_len : Nat) :
    Rust Block := do
  let decoded_chunks ← state.decoder.decode
  Block.from_chunks N decoded_chunks byte_len

end CodedNodeState

/-- Genuine packets verify, encode the chunks, and any mix of stored ones is genuine. -/
structure Hereditary (S : IntegrityScheme F N Context Proof Error) (ctx : Context) (m : Nat) (chunks : List (Chunk F))
    (Genuine : SignedPacket F N Proof → Prop) : Prop where
  verifies : ∀ p, Genuine p → Verifies S ctx p
  encodes : ∀ p, Genuine p → Encodes m chunks p.chunk
  mixes : ∀ packets decoder proofs, Stored S ctx m packets decoder proofs → packets ≠ [] → (∀ p ∈ packets, Genuine p) →
    ∀ alphas : List F, alphas.length = packets.length → ∃ chunk proof, decoder.reencode_with alphas = .ok chunk ∧
      S.combine proofs alphas = .ok proof ∧ Genuine ⟨chunk,proof⟩

/-- The node is in this context and holds genuine packets only. -/
def Holds (S : IntegrityScheme F N Context Proof Error) (ctx : Context) (m : Nat)
    (Genuine : SignedPacket F N Proof → Prop) (state : CodedNodeState F N Context Proof) : Prop :=
  state.ctx = ctx ∧ ∃ packets, Stored S ctx m packets state.decoder state.proofs ∧ ∀ p ∈ packets, Genuine p

theorem Holds.fresh {Genuine : SignedPacket F N Proof → Prop} : Holds S ctx m Genuine ⟨BlockDecoder.new,[],ctx⟩ :=
  ⟨rfl,[],Stored.new,by simp⟩

variable {Genuine : SignedPacket F N Proof → Prop} {state : CodedNodeState F N Context Proof}
  {decoder : BlockDecoder F N} {proofs : List Proof}

/-- What mixes stored packets that encode the chunks encodes them. -/
theorem mix_encodes {packets : List (SignedPacket F N Proof)} (stored : Stored S ctx m packets decoder proofs)
    (some_packet : packets ≠ []) (count : chunks.length = N) (encoded : ∀ p ∈ packets, Encodes m chunks p.chunk)
    {alphas : List F} (long : alphas.length = packets.length) :
    ∃ chunk, decoder.reencode_with alphas = .ok chunk ∧ Encodes m chunks chunk := by
  refine BlockDecoder.reencode_encodes decoder alphas ?_ ?_ count ?_
  · rw [stored.chunks]
    simpa using some_packet
  · rw [stored.chunks,List.length_map,long]
  · rw [stored.chunks]
    intro c member
    obtain ⟨p,listed,rfl⟩ := List.mem_map.mp member
    exact encoded p listed

/-- A genuine packet is never refused; when it is useful there is something to forward. -/
theorem Holds.receive (hereditary : Hereditary S ctx m chunks Genuine) (holds : Holds S ctx m Genuine state)
    {packet : SignedPacket F N Proof} (genuine : Genuine packet) :
    ∃ state' useful, state.receive S packet = .ok (state',.ok useful) ∧ Holds S ctx m Genuine state' ∧
      (useful = true → 1 ≤ state'.decoder.rank) := by
  obtain ⟨rfl,packets,stored,fine⟩ := holds
  rcases coded_receive_spec stored packet (hereditary.encodes packet genuine).width (hereditary.verifies packet genuine) with
    ⟨e,refused,_⟩ | ⟨_,_,ran⟩ | ⟨_,_,_,decoder',proofs',ran,grown⟩
  · cases refused
  · exact ⟨state,false,by rw [CodedNodeState.receive,ran]; rfl,⟨rfl,packets,stored,fine⟩,by simp⟩
  · refine ⟨⟨decoder',proofs',state.ctx⟩,true,by rw [CodedNodeState.receive,ran]; rfl,
      ⟨rfl,packets ++ [packet],grown,?_⟩,fun _ => ?_⟩
    · intro p member
      rcases List.mem_append.mp member with old | new
      · exact fine p old
      · rw [List.mem_singleton.mp new]
        exact genuine
    · rw [grown.rank,List.length_append,List.length_singleton]
      omega

/-- Forwarding never panics once something is stored, and gives genuine packets. -/
theorem Holds.forward [Random F] (hereditary : Hereditary S ctx m chunks Genuine) (holds : Holds S ctx m Genuine state)
    (some_rank : 1 ≤ state.decoder.rank) (count : Nat) (rng : Rng) :
    ∃ packets rest, state.forward S count rng = .ok (packets,rest) ∧ ∀ p ∈ packets, Genuine p := by
  obtain ⟨rfl,packets,stored,fine⟩ := holds
  have some_packet : packets ≠ [] := List.ne_nil_of_length_pos (by rw [← stored.rank]; exact some_rank)
  obtain ⟨sent,rest,ran,_,each⟩ := collect_keeps (forward_one S state.decoder state.proofs) Genuine (fun rng => by
    cases sampled : (random_coefficients state.decoder.rank rng : List F × Rng) with
    | mk alphas rest =>
      have long : alphas.length = packets.length := by
        have length := random_coefficients_length (F := F) state.decoder.rank rng
        rw [sampled] at length
        exact length.trans stored.rank
      obtain ⟨chunk,proof,mixed,combined,genuine⟩ := hereditary.mixes packets _ _ stored some_packet fine alphas long
      exact ⟨⟨chunk,proof⟩,rest,by simp only [forward_one,sampled,mixed,ok_bind,combined,pure_eq],genuine⟩) count rng
  exact ⟨sent,rest,ran,each⟩

/-- A complete decoder of genuine packets gives the block back. -/
theorem Holds.decode [PackableField F] [FixedCodec UInt64] [BytesCodec] [LawfulBlockCodec]
    (hereditary : Hereditary S ctx m chunks Genuine) (holds : Holds S ctx m Genuine state) {block : Block}
    (small : block.transactions.length ≤ MAX_TRANSACTIONS_BYTES) (split : Block.ChunksOf block N m chunks)
    (complete : state.decoder.is_complete = true) : state.decode block.serialize.length = .ok block := by
  obtain ⟨_,packets,stored,fine⟩ := holds
  have decodes : state.decoder.decode = .ok chunks := by
    apply BlockDecoder.decode_encoded stored.sound complete split.count split.sizes
    intro c member
    rw [stored.chunks] at member
    obtain ⟨p,listed,rfl⟩ := List.mem_map.mp member
    exact hereditary.encodes p (fine p listed)
  simp only [CodedNodeState.decode,decodes,ok_bind]
  exact Block.from_chunks_as_chunks small split

/-- A complete decoder has something stored. -/
theorem Holds.ready (holds : Holds S ctx m Genuine state) (some_chunk : 0 < N) (complete : state.decoder.is_complete = true) :
    1 ≤ state.decoder.rank := by
  obtain ⟨_,packets,stored,_⟩ := holds
  rw [BlockDecoder.rank_eq stored.sound,(BlockDecoder.is_complete_iff stored.sound).mp complete]
  exact some_chunk

/-- An empty decoder cannot decode. -/
theorem new_incomplete (some_chunk : 0 < N) : (BlockDecoder.new : BlockDecoder F N).is_complete = false := by
  rw [Bool.eq_false_iff,ne_eq,BlockDecoder.is_complete_iff BlockDecoder.sound_new]
  exact some_chunk.ne

/-- A strategy that receives, forwards and decodes as the coded ones do is faithful. -/
theorem coded_faithful {σ : Type} [Random F] [PackableField F] [FixedCodec UInt64] [BytesCodec] [LawfulBlockCodec]
    {T : Strategy σ (CodedNodeState F N Context Proof) (SignedPacket F N Proof)} {self : σ}
    (receives : T.receive self = CodedNodeState.receive S) (completes : ∀ s, T.can_decode self s = s.decoder.is_complete)
    (forwards : T.forward self = CodedNodeState.forward S) (decodes : T.decode self = CodedNodeState.decode)
    (hereditary : Hereditary S ctx m chunks Genuine) {block : Block}
    (small : block.transactions.length ≤ MAX_TRANSACTIONS_BYTES) (some_chunk : 0 < N)
    (split : Block.ChunksOf block N m chunks) :
    Faithful T self block block.serialize.length (Holds S ctx m Genuine) (fun s => 1 ≤ s.decoder.rank) Genuine where
  receive s p holds _ genuine := by
    obtain ⟨s',useful,ran,holds',ready⟩ := holds.receive hereditary genuine
    refine ⟨s',useful,by rw [receives]; exact ran,holds',ready,fun complete => ?_⟩
    rw [completes] at complete
    exact holds'.ready some_chunk complete
  forward s holds ready count rng := by
    rw [forwards]
    exact holds.forward hereditary ready count rng
  decode s holds complete := by
    rw [completes] at complete
    rw [decodes]
    exact holds.decode hereditary small split complete

/-! ### The decoder of a proposer -/

/-- The decoder holds chunks that encode the originals, and they span the first `k` unit vectors. -/
structure Filled (m : Nat) (originals : List (Chunk F)) (k : Nat) (decoder : BlockDecoder F N) : Prop where
  sound : Sound decoder
  encodes : ∀ c ∈ decoder.coded_chunks, Encodes m originals c
  units : ∀ i : Fin N, i.val < k → Pi.single i 1 ∈ coefficient_span decoder.coded_chunks

theorem Filled.start {originals : List (Chunk F)} : Filled m originals 0 (BlockDecoder.new : BlockDecoder F N) :=
  ⟨BlockDecoder.sound_new,by simp [BlockDecoder.new],by simp⟩

/-- Adding chunk `k` with the unit vector `k`. -/
theorem Filled.add {originals : List (Chunk F)} (count : originals.length = N) (sizes : ∀ v ∈ originals, v.v.length = m)
    {k : Nat} (filled : Filled m originals k decoder) (inside : k < originals.length) :
    ∃ coded : CodedChunk F N, CodedChunk.new originals[k] ((List.replicate N (0 : F)).set k 1) = .ok coded ∧
      ∃ decoder' grew, decoder.add coded = .ok (decoder',grew) ∧ Filled m originals (k + 1) decoder' := by
  have long : ((List.replicate N (0 : F)).set k 1).length = N := by simp
  let coded : CodedChunk F N := ⟨originals[k],_,long⟩
  have small : k < N := count ▸ inside
  have unit : coded.coefficients = Pi.single ⟨k,small⟩ 1 := coords_unit N ⟨k,small⟩
  have encodes : Encodes m originals coded := by
    refine ⟨sizes _ (List.getElem_mem inside),?_⟩
    rw [comb_unit N k _ (by simpa using inside) small,List.getElem_map]
  have new_unit : ∀ {decoder' : BlockDecoder F N}, (∀ i : Fin N, i.val < k → Pi.single i 1 ∈ coefficient_span decoder'.coded_chunks) →
      coded.coefficients ∈ coefficient_span decoder'.coded_chunks →
      ∀ i : Fin N, i.val < k + 1 → Pi.single i 1 ∈ coefficient_span decoder'.coded_chunks := by
    intro decoder' earlier here i below
    by_cases last : i.val = k
    · have same : i = ⟨k,small⟩ := Fin.ext last
      rw [same,← unit]
      exact here
    · exact earlier i (by omega)
  refine ⟨coded,CodedChunk.new_of long,?_⟩
  rcases BlockDecoder.add_spec filled.sound coded with ⟨member,ran⟩ | ⟨_,_,decoder',ran,sound,grown⟩
  · exact ⟨decoder,false,ran,filled.sound,filled.encodes,new_unit filled.units member⟩
  · have wider : coefficient_span decoder.coded_chunks ≤ coefficient_span decoder'.coded_chunks := by
      rw [grown]
      refine Submodule.span_mono fun x member => ?_
      have listed : x ∈ decoder.coded_chunks.map CodedChunk.coefficients := member
      have still : x ∈ (decoder.coded_chunks ++ [coded]).map CodedChunk.coefficients := by
        rw [List.map_append]
        exact List.mem_append_left _ listed
      exact still
    refine ⟨decoder',true,ran,sound,?_,new_unit (fun i below => wider (filled.units i below)) ?_⟩
    · rw [grown]
      intro c member
      rcases List.mem_append.mp member with old | new
      · exact filled.encodes c old
      · rw [List.mem_singleton.mp new]
        exact encodes
    · rw [grown]
      exact Submodule.subset_span (by simp)

/-- The loop over the chunks with their indices has passed as many as the index says. -/
theorem enumerated {originals : List (Chunk F)} {before after : List (Chunk F × Nat)} {orig : Chunk F} {i : Nat}
    (split : originals.zipIdx = before ++ (orig,i) :: after) :
    ∃ inside : before.length < originals.length, orig = originals[before.length] ∧ i = before.length := by
  have place : originals.zipIdx[before.length]? = some (orig,i) := by rw [split]; simp
  rw [List.getElem?_zipIdx,Option.map_eq_some_iff] at place
  obtain ⟨v,found,same⟩ := place
  obtain ⟨rfl,rfl⟩ := Prod.mk.inj same
  obtain ⟨inside,rfl⟩ := List.getElem?_eq_some_iff.mp found
  exact ⟨inside,rfl,Nat.zero_add _⟩

/-- With all chunks added the decoder is complete and decodes to them. -/
theorem Filled.decodes {originals : List (Chunk F)} (count : originals.length = N)
    (sizes : ∀ v ∈ originals, v.v.length = m) (filled : Filled m originals originals.length decoder) :
    decoder.is_complete = true ∧ decoder.decode = .ok originals := by
  have complete : decoder.is_complete = true := by
    rw [BlockDecoder.complete_iff_spans filled.sound,eq_top_iff,← (Pi.basisFun F (Fin N)).span_eq]
    apply Submodule.span_le.mpr
    rintro _ ⟨i,rfl⟩
    rw [Pi.basisFun_apply]
    exact filled.units i (by rw [count]; exact i.isLt)
  exact ⟨complete,BlockDecoder.decode_encoded filled.sound complete count sizes filled.encodes⟩

end

end Rlnc.Strategies
