import Rlnc.Reference

/-!
Splitting a block into chunks and reading it back. A block that is split is read
back from its chunks, up to the maximum payload (`chunking_lossless`); nothing that
a proposer checks keeps it from splitting a larger one, which no receiver can read
(`decodes_iff_within_limit`).
-/
namespace Rlnc.Chunking
open Rlnc.Panics Rlnc.Combination Rlnc.Wire Rlnc.Packing Rlnc.Coding Rlnc.Scalars Rlnc.Blocks Rlnc.Draws
set_option linter.unusedSectionVars false

section
variable [FixedCodec UInt64] [BytesCodec] [FixedCodec Scalar] [LawfulScalarCodec] {N m : Nat}

/-- A block of at most 16 MiB of transactions that is split at all gives `N` chunks of
    `m` scalars, and is read back from them. -/
theorem chunking_lossless [LawfulBlockCodec] (block : Block)
    (small : block.transactions.length ≤ MAX_TRANSACTIONS_BYTES) {chunks : List (Chunk Scalar)} {byte_len : Nat}
    (ran : block.as_chunks N m = .ok (chunks,byte_len)) :
    chunks.length = N ∧ (∀ v ∈ chunks, v.v.length = m) ∧ Block.from_chunks N chunks byte_len = .ok block := by
  obtain ⟨_,rfl,split⟩ := Block.as_chunks_ok ran
  exact ⟨split.count,split.sizes,Block.from_chunks_as_chunks small split⟩

/-- A receiver that decodes the chunks of a block reads the block exactly when its
    payload is within the limit of the reader, whatever the proposer could split. -/
theorem decodes_iff_within_limit [RangedBlockCodec] (block : Block) (writable : block.transactions.length < 2 ^ 32)
    {chunks : List (Chunk Scalar)} {byte_len : Nat} (ran : block.as_chunks N m = .ok (chunks,byte_len))
    (received : List (CodedChunk Scalar N)) (encoded : ∀ c ∈ received, Encodes m chunks c)
    (independent : coefficient_span received = ⊤) :
    (∃ decoder decoded, BlockDecoder.new.add_all received = .ok decoder ∧ decoder.decode = .ok decoded ∧
        Block.from_chunks N decoded byte_len = .ok block) ↔
      block.transactions.length ≤ MAX_TRANSACTIONS_BYTES := by
  obtain ⟨_,rfl,split⟩ := Block.as_chunks_ok ran
  obtain ⟨decoder,added,sound,part,same⟩ := BlockDecoder.add_all_spec received
  have complete : decoder.is_complete = true := (BlockDecoder.complete_iff_spans sound).mpr (same.trans independent)
  have decodes : decoder.decode = .ok chunks := BlockDecoder.decode_encoded sound complete split.count split.sizes
    (fun c member => encoded c (part.subset member))
  constructor
  · rintro ⟨decoder',decoded,added',decodes',read⟩
    obtain rfl : decoder = decoder' := Except.ok.inj (added.symm.trans added')
    obtain rfl : chunks = decoded := Except.ok.inj (decodes.symm.trans decodes')
    by_contra large
    rw [Block.from_chunks_refused (Nat.lt_of_not_le large) writable split] at read
    cases read
  · intro small
    exact ⟨decoder,chunks,added,decodes,Block.from_chunks_as_chunks small split⟩

end

section
open Rlnc.Reference Rlnc.Linalg

/-- Three bytes of transactions in two chunks of two scalars. -/
theorem chunking_lossless_three :
    ∃ (chunks : List (Chunk Scalar)) (byte_len : Nat), (block_of [1,0,3]).as_chunks 2 2 = .ok (chunks,byte_len) ∧
      chunks.length = 2 ∧ (∀ v ∈ chunks, v.v.length = 2) ∧ Block.from_chunks 2 chunks byte_len = .ok (block_of [1,0,3]) := by
  have fits : Block.Fits Scalar (block_of [1,0,3]) 2 2 := by unfold Block.Fits; decide +kernel
  obtain ⟨chunks,ran,_⟩ := Block.as_chunks_spec (block_of [1,0,3]) fits
  exact ⟨chunks,_,ran,chunking_lossless (block_of [1,0,3]) (by decide) ran⟩

/-- The chunk of a block in one chunk, with the coefficient one. -/
private def alone (v : Chunk Scalar) : CodedChunk Scalar 1 := coded_one v 1

private theorem alone_encodes {m : Nat} (v : Chunk Scalar) (wide : v.v.length = m) : Encodes m [v] (alone v) :=
  ⟨wide,by simp [alone,coded_one,comb]⟩

private theorem alone_spans (v : Chunk Scalar) : coefficient_span [alone v] = ⊤ := by
  rw [eq_top_iff]
  intro x _
  have multiple : x = x 0 • (alone v).coefficients := by
    funext i
    rw [Subsingleton.elim i 0]
    simp [alone,coded_one,CodedChunk.coefficients]
  rw [multiple]
  exact Submodule.smul_mem _ _ (Submodule.subset_span (by simp))

/-- Chunks can be mixed with any coefficients. -/
private theorem mixed_with {m : Nat} {v w : Chunk Scalar} (sizes : ∀ c ∈ [v,w], c.v.length = m) (positive : 0 < m) (x y : Scalar) :
    ∃ c : CodedChunk Scalar 2, Encodes m [v,w] c ∧ c.b = [x,y] := by
  obtain ⟨data,_,width,value⟩ := linear_combination_spec m [v.v,w.v] [x,y] (by simp) rfl (by
    intro vector listed
    rcases List.mem_pair.mp listed with rfl | rfl
    · exact sizes v (by simp)
    · exact sizes w (by simp))
  have some_data : data ≠ [] := List.ne_nil_of_length_pos (by omega)
  exact ⟨⟨⟨data,some_data⟩,[x,y],rfl⟩,⟨width,value⟩,rfl⟩

/-- The sum and the first chunk with twice the second are enough. -/
private theorem mixed_spans {c d : CodedChunk Scalar 2} (one : c.b = [1,1]) (two : d.b = [1,scalar 2]) :
    coefficient_span [c,d] = ⊤ := by
  rw [eq_top_iff]
  intro x _
  have split : x = (2 * x 0 - x 1) • c.coefficients + (x 1 - x 0) • d.coefficients := by
    have doubled : scalar 2 = 2 := rfl
    funext i
    fin_cases i <;> simp [CodedChunk.coefficients,one,two,doubled] <;> ring
  rw [split]
  exact Submodule.add_mem _ (Submodule.smul_mem _ _ (Submodule.subset_span (by simp)))
    (Submodule.smul_mem _ _ (Submodule.subset_span (by simp)))

/-- The same three bytes, from two mixtures of their chunks. -/
theorem decodes_iff_within_limit_three :
    ∃ (chunks : List (Chunk Scalar)) (byte_len : Nat) (c d : CodedChunk Scalar 2),
      (block_of [1,0,3]).as_chunks 2 2 = .ok (chunks,byte_len) ∧ c.b = [1,1] ∧ d.b = [1,scalar 2] ∧
      ((∃ decoder decoded, BlockDecoder.new.add_all [c,d] = .ok decoder ∧ decoder.decode = .ok decoded ∧
        Block.from_chunks 2 decoded byte_len = .ok (block_of [1,0,3])) ↔
          (block_of [1,0,3]).transactions.length ≤ MAX_TRANSACTIONS_BYTES) := by
  have fits : Block.Fits Scalar (block_of [1,0,3]) 2 2 := by unfold Block.Fits; decide +kernel
  obtain ⟨chunks,ran,split⟩ := Block.as_chunks_spec (block_of [1,0,3]) fits
  obtain ⟨v,w,rfl⟩ := List.length_eq_two.mp split.count
  obtain ⟨c,encodes,one⟩ := mixed_with split.sizes (by decide) 1 1
  obtain ⟨d,encodes',two⟩ := mixed_with split.sizes (by decide) 1 (scalar 2)
  refine ⟨[v,w],_,c,d,ran,one,two,decodes_iff_within_limit (block_of [1,0,3]) (by decide) ran [c,d] ?_ (mixed_spans one two)⟩
  intro e member
  rcases List.mem_pair.mp member with rfl | rfl
  · exact encodes
  · exact encodes'

/-- A payload of zeros, one byte above the limit. -/
private def large_block : Block := block_of (List.replicate (MAX_TRANSACTIONS_BYTES + 1) 0)

private theorem large_block_transactions : large_block.transactions.length = 16777217 := by
  rw [large_block,block_of,List.length_replicate]
  rfl

/-- It takes at most 101 bytes besides its payload. -/
private theorem large_block_fits : Block.Fits Scalar large_block 1 600000 := by
  have slice := LawfulBlockCodec.slice_length large_block.transactions (by rw [large_block_transactions]; decide)
  have integer : ∀ n : UInt64, (FixedCodec.write n).length = 8 := fun n =>
    (LawfulCodec.size n).trans LawfulBlockCodec.u64_size
  have long : large_block.serialize.length ≤ 16777318 := by
    rw [large_block_transactions] at slice
    simp only [Block.serialize,Block.write,List.length_append,integer,large_block.parent_hash.2,large_block.state_root.2]
    omega
  have windowed : PackableField.DATA_BYTES Scalar = 31 := rfl
  rw [Block.Fits,element_count,windowed]
  omega

/-- The proposer splits a block above the limit into one chunk of 600000 scalars; the
    receiver decodes this chunk, and panics. -/
theorem large_block_panics :
    ∃ (v : Chunk Scalar) (byte_len : Nat) (decoder : BlockDecoder Scalar 1), large_block.as_chunks 1 600000 = .ok ([v],byte_len) ∧
      coefficient_span [alone v] = ⊤ ∧ Encodes 600000 [v] (alone v) ∧
      BlockDecoder.new.add_all [alone v] = .ok decoder ∧ decoder.decode = .ok [v] ∧
      Block.from_chunks 1 [v] byte_len = .error (.expectation "decoded chunks must produce a valid Block") := by
  obtain ⟨chunks,ran,split⟩ := Block.as_chunks_spec large_block large_block_fits
  obtain ⟨v,rfl⟩ := List.length_eq_one_iff.mp split.count
  have encoded : Encodes 600000 [v] (alone v) := alone_encodes v (split.sizes v (by simp))
  obtain ⟨decoder,added,sound,part,same⟩ := BlockDecoder.add_all_spec [alone v]
  have complete : decoder.is_complete = true := (BlockDecoder.complete_iff_spans sound).mpr (same.trans (alone_spans v))
  refine ⟨v,_,decoder,ran,alone_spans v,encoded,added,?_,?_⟩
  · apply BlockDecoder.decode_encoded sound complete split.count split.sizes
    intro c member
    rw [List.mem_singleton.mp (part.subset member)]
    exact encoded
  · refine Block.from_chunks_refused ?_ ?_ split
    · rw [large_block_transactions]; decide
    · rw [large_block_transactions]; decide

end

end Rlnc.Chunking
