import Rlnc.Reference

/-!
The three hand-written parts of the block codec against each other. What `write` emits
has the length that `encode_size` says, `read_cfg` takes off only what `write` emits, and
no block is written as the beginning of another one (`codec_canonical`). The chunk
dimension that the node and the simulator compute is therefore large enough for every
block (`compute_m_suffices`).
-/
namespace Rlnc.BlockCodec
open Rlnc.Panics Rlnc.Wire Rlnc.Packing Rlnc.Coding Rlnc.Scalars Rlnc.Blocks
set_option linter.unusedSectionVars false

/-- `EncodeSize` of byte slices, in the codec library. -/
class SliceSize where
  encode_size : Bytes → Nat

/-- What the codec library documents: 64-bit integers take eight bytes, and a byte slice
    has its length in front as a 32-bit variable-length integer in the shortest form. It
    is read if the length is in the range and its bytes are there. -/
class DocumentedCodec [FixedCodec UInt64] [BytesCodec] [SliceSize] : Prop where
  u64_size : FixedCodec.SIZE UInt64 = 8
  u64 : LawfulCodec UInt64
  u64_canonical : CanonicalCodec UInt64
  slice_written : ∀ bs : Bytes, bs.length < 2 ^ 32 → BytesCodec.write bs = Varint.write bs.length ++ bs
  slice_size : ∀ bs : Bytes, bs.length < 2 ^ 32 → SliceSize.encode_size bs = Varint.size bs.length + bs.length
  slice_read : ∀ (low high : Nat) (buf bs rest : Bytes), (BytesCodec.read_cfg low high).run buf = .ok (bs,rest) ↔
    ∃ len more, Varint.read 32 buf = some (len,more) ∧ low ≤ len ∧ len ≤ high ∧ len ≤ more.length ∧
      bs = more.take len ∧ rest = more.drop len

section
variable [FixedCodec UInt64] [BytesCodec] [SliceSize]

/-- `Block::encode_size` -/
def encode_size (self : Block) : Nat :=
  32 + FixedCodec.SIZE UInt64 + FixedCodec.SIZE UInt64 + FixedCodec.SIZE UInt64 + FixedCodec.SIZE UInt64 + 32 +
    SliceSize.encode_size self.transactions

variable [documented : DocumentedCodec]

/-- What is read as a slice is the slice as it is written. -/
theorem slice_canonical {low high : Nat} {buf bs rest : Bytes} (ran : (BytesCodec.read_cfg low high).run buf = .ok (bs,rest)) :
    bs.length < 2 ^ 32 ∧ buf = BytesCodec.write bs ++ rest := by
  obtain ⟨len,more,read,_,_,enough,rfl,rfl⟩ := (DocumentedCodec.slice_read low high buf bs rest).mp ran
  obtain ⟨rfl,small⟩ := Varint.read_canonical read
  have long : (more.take len).length = len := by rw [List.length_take]; omega
  refine ⟨long.symm ▸ small,?_⟩
  rw [DocumentedCodec.slice_written _ (long.symm ▸ small),long,List.append_assoc,List.take_append_drop]

theorem u64_length (n : UInt64) : (FixedCodec.write n).length = 8 :=
  (documented.u64.size n).trans documented.u64_size

/-- The written block has the size that it reports. -/
theorem length_write (block : Block) (writable : block.transactions.length < 2 ^ 32) :
    block.write.length = 96 + Varint.size block.transactions.length + block.transactions.length ∧
      encode_size block = block.write.length := by
  have written : block.write.length = 96 + Varint.size block.transactions.length + block.transactions.length := by
    simp only [Block.write,List.length_append,u64_length,block.parent_hash.2,block.state_root.2,
      DocumentedCodec.slice_written _ writable,Varint.length_write]
    omega
  refine ⟨written,?_⟩
  rw [written,encode_size,documented.u64_size,documented.slice_size _ writable]
  omega

/-! ### Reading only what is written -/

private theorem read_b256_canonical {buf rest : Bytes} {h : B256} (ran : read_b256.run buf = .ok (h,rest)) :
    buf = h.val ++ rest := by
  simp only [read_b256,StateT.run] at ran
  split at ran
  · cases ran
  · obtain ⟨rfl,rfl⟩ := ok_pair ran
    exact (List.take_append_drop 32 buf).symm

/-- The bytes that were taken off are the written block. -/
theorem read_canonical : Canonical (Block.read_cfg : Reader Block) Block.write := by
  intro buf block rest ran
  simp only [Block.read_cfg,run_bind_ok,run_pure',Except.ok.injEq,Prod.mk.injEq] at ran
  obtain ⟨parent_hash,_,parent,number,_,first,timestamp,_,second,gas_used,_,third,gas_limit,_,fourth,state_root,_,state,
    transactions,_,payload,rfl,rfl⟩ := ran
  have integer := documented.u64_canonical.canonical
  rw [read_b256_canonical parent,integer _ _ _ first,integer _ _ _ second,integer _ _ _ third,integer _ _ _ fourth,
    read_b256_canonical state,(slice_canonical payload).2]
  simp only [Block.write,List.append_assoc]

/-! ### Telling blocks apart -/

/-- Equal beginnings of equal lengths. -/
private theorem fixed_apart {xs ys as bs : Bytes} (long : xs.length = ys.length) (same : xs ++ as = ys ++ bs) :
    xs = ys ∧ as = bs := List.append_inj same long

private theorem u64_apart {n k : UInt64} {as bs : Bytes} (same : FixedCodec.write n ++ as = FixedCodec.write k ++ bs) :
    n = k ∧ as = bs := by
  obtain ⟨written,rest⟩ := fixed_apart ((u64_length n).trans (u64_length k).symm) same
  have back := documented.u64.read_back n []
  rw [written,documented.u64.read_back k []] at back
  exact ⟨(ok_pair back).1.symm,rest⟩

private theorem slice_apart {xs ys as bs : Bytes} (writable : xs.length < 2 ^ 32) (writable' : ys.length < 2 ^ 32)
    (same : BytesCodec.write xs ++ as = BytesCodec.write ys ++ bs) : xs = ys := by
  rw [DocumentedCodec.slice_written xs writable,DocumentedCodec.slice_written ys writable',List.append_assoc,
    List.append_assoc] at same
  obtain ⟨long,rest⟩ := Varint.write_apart same
  exact (fixed_apart long rest).1

/-- A block that is written as the beginning of another one is the other one. -/
theorem write_apart {block other : Block} (writable : block.transactions.length < 2 ^ 32)
    (writable' : other.transactions.length < 2 ^ 32) (related : block.write <+: other.write) : block = other := by
  obtain ⟨more,same⟩ := related
  rw [← List.append_nil other.write] at same
  obtain ⟨parent_hash,number,timestamp,gas_used,gas_limit,state_root,transactions⟩ := block
  obtain ⟨parent_hash',number',timestamp',gas_used',gas_limit',state_root',transactions'⟩ := other
  simp only [Block.write,List.append_assoc] at same
  obtain ⟨parent,same⟩ := fixed_apart (parent_hash.2.trans parent_hash'.2.symm) same
  obtain ⟨numbers,same⟩ := u64_apart same
  obtain ⟨timestamps,same⟩ := u64_apart same
  obtain ⟨used,same⟩ := u64_apart same
  obtain ⟨limits,same⟩ := u64_apart same
  obtain ⟨state,same⟩ := fixed_apart (state_root.2.trans state_root'.2.symm) same
  have payload : transactions = transactions' := slice_apart writable writable' same
  rw [Subtype.ext parent,numbers,timestamps,used,limits,Subtype.ext state,payload]

/-- The codec is canonical: `encode_size` is the length that is written, what is read was
    written so, and different blocks are hashed over different bytes, neither beginning
    with the other. -/
theorem codec_canonical (block : Block) (writable : block.transactions.length < 2 ^ 32) :
    block.write.length = encode_size block ∧
    (∀ (buf rest : Bytes) (b : Block), Block.read_cfg.run buf = .ok (b,rest) → buf = b.write ++ rest) ∧
    ∀ other : Block, other.transactions.length < 2 ^ 32 → block ≠ other →
      ¬block.write <+: other.write ∧ ¬other.write <+: block.write ∧ block.serialize ≠ other.serialize := by
  refine ⟨(length_write block writable).2.symm,fun buf rest b ran => read_canonical buf b rest ran,?_⟩
  intro other writable' different
  refine ⟨fun related => different (write_apart writable writable' related),
    fun related => different (write_apart writable' writable related).symm,fun same => ?_⟩
  rw [Block.serialize,Block.serialize] at same
  exact different (write_apart writable writable' (same ▸ List.prefix_rfl))

end

/-! ### The chunk dimension -/

/-- `usize::div_ceil` -/
def div_ceil (a b : Nat) : Rust Nat := do
  require (b ≠ 0) "attempt to divide by zero"
  return (a + b - 1) / b

/-- The dimension that a node computes. -/
def compute_m (block_size n : Nat) : Rust Nat := div_ceil (block_size + 100) (31 * n)

/-- What the chunk dimension uses of the configuration. -/
structure SimConfig where
  block_size : Nat

/-- Parent hash, four integers, state root, and four bytes of transaction length. -/
def BLOCK_HEADER_BYTES : Nat := 100

/-- The dimension that the simulator computes. -/
def SimConfig.compute_m (self : SimConfig) (n : Nat) : Rust Nat :=
  let estimated_encoded := self.block_size + BLOCK_HEADER_BYTES
  div_ceil estimated_encoded (31 * n)

/-- Rounded up per chunk, the estimate covers what is rounded up per element. -/
theorem div_ceil_covers {total estimate n m : Nat} (positive : 0 < n) (below : total ≤ estimate)
    (computed : div_ceil estimate (31 * n) = .ok m) : (total + 30) / 31 ≤ n * m := by
  have nonzero : 31 * n ≠ 0 := by omega
  simp only [div_ceil,require_of nonzero,ok_bind,pure_eq] at computed
  obtain rfl := Except.ok.inj computed
  have split := Nat.div_add_mod (estimate + 31 * n - 1) (31 * n)
  have small := Nat.mod_lt (estimate + 31 * n - 1) (Nat.pos_of_ne_zero nonzero)
  generalize (estimate + 31 * n - 1) / (31 * n) = m at split
  rw [Nat.mul_assoc] at split
  omega

theorem div_ceil_positive {estimate n : Nat} (positive : 0 < n) (some_byte : 0 < estimate) :
    ∃ m, div_ceil estimate (31 * n) = .ok m ∧ 1 ≤ m := by
  have nonzero : 31 * n ≠ 0 := by omega
  refine ⟨(estimate + 31 * n - 1) / (31 * n),by simp only [div_ceil,require_of nonzero,ok_bind,pure_eq],?_⟩
  exact (Nat.le_div_iff_mul_le (Nat.pos_of_ne_zero nonzero)).mpr (by omega)

section
variable [FixedCodec UInt64] [BytesCodec] [SliceSize] [DocumentedCodec] [FixedCodec Scalar] [LawfulScalarCodec]

/-- For every payload that the decoder accepts, the node and the simulator compute the same
    dimension; it is positive, and the chunks hold every block with such a payload. -/
theorem compute_m_suffices (L n : Nat) (accepted : L ≤ MAX_TRANSACTIONS_BYTES) (positive : 1 ≤ n) :
    ∃ m, compute_m L n = .ok m ∧ (∀ config : SimConfig, config.block_size = L → config.compute_m n = .ok m) ∧ 1 ≤ m ∧
      (96 + Varint.size L + L + 30) / 31 ≤ n * m ∧
      ∀ block : Block, block.transactions.length = L →
        ∃ chunks : List (Chunk Scalar), block.as_chunks n m = .ok (chunks,encode_size block) := by
  obtain ⟨m,computed,some_slot⟩ : ∃ m, compute_m L n = .ok m ∧ 1 ≤ m := div_ceil_positive positive (by omega)
  have small : L < 2 ^ 28 := by
    unfold MAX_TRANSACTIONS_BYTES at accepted
    omega
  have length_bytes : Varint.size L ≤ 4 := Varint.size_le (k := 3) small
  have covered : (96 + Varint.size L + L + 30) / 31 ≤ n * m := div_ceil_covers positive (by omega) computed
  refine ⟨m,computed,?_,some_slot,covered,?_⟩
  · rintro config rfl
    exact computed
  · rintro block rfl
    obtain ⟨written,sized⟩ := length_write block (by omega)
    have fits : Block.Fits Scalar block n m := by
      have slots := Nat.mul_le_mul positive some_slot
      show max 1 ((block.write.length + 31 - 1) / 31) ≤ n * m
      rw [written]
      omega
    obtain ⟨chunks,split,_⟩ := Block.as_chunks_spec block fits
    exact ⟨chunks,sized ▸ split⟩

end

/-! ### The reference codec -/

section
open Rlnc.Reference

scoped instance : SliceSize := ⟨fun bs => Varint.size bs.length + bs.length⟩

scoped instance : DocumentedCodec :=
  ⟨rfl,inferInstance,inferInstance,fun _ _ => rfl,fun _ _ => rfl,read_slice_ok⟩

/-- Two blocks whose payloads begin alike. -/
theorem codec_canonical_two : ¬(block_of [1]).write <+: (block_of [1,2]).write :=
  ((codec_canonical (block_of [1]) (by decide)).2.2 (block_of [1,2]) (by decide) (by decide)).1

/-- The largest payload in one chunk: the varint takes all of its four bytes. -/
theorem compute_m_suffices_largest : ∃ m, compute_m MAX_TRANSACTIONS_BYTES 1 = .ok m ∧ 1 ≤ m ∧
    (96 + Varint.size MAX_TRANSACTIONS_BYTES + MAX_TRANSACTIONS_BYTES + 30) / 31 ≤ 1 * m := by
  obtain ⟨m,computed,_,some_slot,covered,_⟩ := compute_m_suffices MAX_TRANSACTIONS_BYTES 1 le_rfl le_rfl
  exact ⟨m,computed,some_slot,covered⟩

end

end Rlnc.BlockCodec
