import Rlnc.Coding
import Rlnc.Draws
import Rlnc.Packing

/-!
Blocks, their codec and their chunks. A block that is split into chunks is read
back from them (`from_chunks_as_chunks`), and bytes that begin a written block are
never read as another one, whatever length they are cut to (`read_prefix`).
-/
namespace Rlnc.Blocks
open Rlnc.Panics Rlnc.Wire Rlnc.Packing Rlnc.Coding Rlnc.Linalg Rlnc.Draws
set_option linter.unusedSectionVars false

/-- Maximum transaction payload size accepted during deserialization (16 MiB). -/
def MAX_TRANSACTIONS_BYTES : Nat := 16 * 1024 * 1024

/-- 32 bytes. -/
abbrev B256 := { bs : Bytes // bs.length = 32 }

structure Block where
  parent_hash : B256
  number : UInt64
  timestamp : UInt64
  gas_used : UInt64
  gas_limit : UInt64
  state_root : B256
  transactions : Bytes
deriving DecidableEq

/-- What the block codec uses of the codec library besides integers: byte slices
    with their length in front, and the texts of `Error::EndOfBuffer` and
    `Error::ExtraData`. -/
class BytesCodec where
  end_of_buffer : String
  extra_data : Nat → String
  write : Bytes → Bytes
  /-- `Vec::<u8>::read_cfg` with a range for the length. -/
  read_cfg : Nat → Nat → Reader Bytes

/-- A 64-bit integer takes eight bytes; a slice has at most five bytes of length in
    front, and is read back if its length is in the range. -/
class LawfulBlockCodec [FixedCodec UInt64] [BytesCodec] : Prop extends LawfulCodec UInt64 where
  u64_size : FixedCodec.SIZE UInt64 = 8
  slice_length : ∀ bs : Bytes, bs.length < 2 ^ 32 → (BytesCodec.write bs).length ≤ bs.length + 5
  slice_local : ∀ low high, Local (BytesCodec.read_cfg low high)
  slice_back : ∀ low high bs rest, low ≤ bs.length → bs.length ≤ high → bs.length < 2 ^ 32 →
    (BytesCodec.read_cfg low high).run (BytesCodec.write bs ++ rest) = .ok (bs,rest)

/-- A slice that is longer than the range allows is refused. -/
class RangedBlockCodec [FixedCodec UInt64] [BytesCodec] : Prop extends LawfulBlockCodec where
  slice_refused : ∀ low high bs rest, high < bs.length → bs.length < 2 ^ 32 →
    ∃ e, (BytesCodec.read_cfg low high).run (BytesCodec.write bs ++ rest) = .error e

/-- `keccak256` -/
class Keccak256 where
  keccak256 : Bytes → B256

section
variable [FixedCodec UInt64] [BytesCodec]
open FixedCodec

/-- `copy_to_slice` into 32 bytes, if they are there. -/
def read_b256 : Reader B256 := fun buf =>
  if few : buf.length < 32 then .error BytesCodec.end_of_buffer
  else .ok (⟨buf.take 32,by rw [List.length_take]; omega⟩,buf.drop 32)

namespace Block

def write (self : Block) : Bytes :=
  self.parent_hash.val ++ FixedCodec.write self.number ++ FixedCodec.write self.timestamp ++
    FixedCodec.write self.gas_used ++ FixedCodec.write self.gas_limit ++ self.state_root.val ++
    BytesCodec.write self.transactions

def read_cfg : Reader Block := do
  let parent_hash ← read_b256
  let number ← (FixedCodec.read_cfg : Reader UInt64)
  let timestamp ← (FixedCodec.read_cfg : Reader UInt64)
  let gas_used ← (FixedCodec.read_cfg : Reader UInt64)
  let gas_limit ← (FixedCodec.read_cfg : Reader UInt64)
  let state_root ← read_b256
  let transactions ← BytesCodec.read_cfg 0 MAX_TRANSACTIONS_BYTES
  return { parent_hash,number,timestamp,gas_used,gas_limit,state_root,transactions }

/-- `Encode::encode` -/
def serialize (self : Block) : Bytes := self.write

/-- The hash of the encoding. -/
def hash [Keccak256] (self : Block) : B256 := Keccak256.keccak256 self.serialize

/-- `Decode::decode`: read a block and leave no byte. -/
def decode (data : Bytes) : Except String Block :=
  match read_cfg.run data with
  | .error e => .error e
  | .ok (block,[]) => .ok block
  | .ok (_,rest) => .error (BytesCodec.extra_data rest.length)

end Block

/-! ### Reading back -/

variable [LawfulBlockCodec]

private theorem read_b256_back (h : B256) (rest : Bytes) : read_b256.run (h.val ++ rest) = .ok (h,rest) := by
  obtain ⟨bs,long⟩ := h
  simp only [read_b256,StateT.run]
  rw [dif_neg (by rw [List.length_append,long]; omega)]
  simp only [List.take_left' long,List.drop_left' long]

private theorem read_b256_local : Local read_b256 := by
  intro buf h rest ran
  simp only [read_b256,StateT.run] at ran
  split at ran
  · cases ran
  · simp only [Except.ok.injEq,Prod.mk.injEq] at ran
    obtain ⟨rfl,rfl⟩ := ran
    exact ⟨buf.take 32,(List.take_append_drop 32 buf).symm,fun rest' => read_b256_back ⟨buf.take 32,_⟩ rest'⟩

namespace Block

theorem read_cfg_local : Local read_cfg :=
  read_b256_local.bind fun _ => LawfulCodec.fixed.local.bind fun _ => LawfulCodec.fixed.local.bind fun _ =>
    LawfulCodec.fixed.local.bind fun _ => LawfulCodec.fixed.local.bind fun _ => read_b256_local.bind fun _ =>
      (LawfulBlockCodec.slice_local 0 MAX_TRANSACTIONS_BYTES).bind fun _ => Local.pure _

/-- A written block is read back, up to the maximum payload. -/
theorem read_back (block : Block) (fits : block.transactions.length ≤ MAX_TRANSACTIONS_BYTES) (rest : Bytes) :
    read_cfg.run (block.write ++ rest) = .ok (block,rest) := by
  simp only [write,List.append_assoc,read_cfg]
  rw [run_bind_of (read_b256_back _ _),run_bind_of (LawfulCodec.read_back _ _),run_bind_of (LawfulCodec.read_back _ _),
    run_bind_of (LawfulCodec.read_back _ _),run_bind_of (LawfulCodec.read_back _ _),run_bind_of (read_b256_back _ _),
    run_bind_of (LawfulBlockCodec.slice_back 0 _ _ _ (Nat.zero_le _) fits (fits.trans_lt (by decide)))]
  rfl

omit [LawfulBlockCodec] in
/-- A written block with a larger payload is refused. -/
theorem read_refused [ranged : RangedBlockCodec] (block : Block) (large : MAX_TRANSACTIONS_BYTES < block.transactions.length)
    (writable : block.transactions.length < 2 ^ 32) (rest : Bytes) : ∃ e, read_cfg.run (block.write ++ rest) = .error e := by
  obtain ⟨e,refused⟩ := ranged.slice_refused 0 _ block.transactions rest large writable
  refine ⟨e,?_⟩
  simp only [write,List.append_assoc,read_cfg]
  rw [run_bind_of (read_b256_back _ _),run_bind_of (LawfulCodec.read_back _ _),run_bind_of (LawfulCodec.read_back _ _),
    run_bind_of (LawfulCodec.read_back _ _),run_bind_of (LawfulCodec.read_back _ _),run_bind_of (read_b256_back _ _),
    StateT.run_bind,refused]
  rfl

omit [LawfulBlockCodec] in
/-- Bytes that extend a block with a larger payload or are cut from it are refused. -/
theorem large_unread [RangedBlockCodec] {block other : Block} (large : MAX_TRANSACTIONS_BYTES < block.transactions.length)
    (writable : block.transactions.length < 2 ^ 32) {bs rest : Bytes} (related : bs <+: block.write ∨ block.write <+: bs) :
    read_cfg.run bs ≠ .ok (other,rest) := by
  intro ran
  rcases related with ⟨more,whole⟩ | ⟨more,rfl⟩
  · have longer := read_cfg_local.extend ran more
    obtain ⟨e,refused⟩ := read_refused block large writable []
    rw [whole,← List.append_nil block.write,refused] at longer
    cases longer
  · obtain ⟨e,refused⟩ := read_refused block large writable more
    rw [refused] at ran
    cases ran

/-- A block up to the maximum payload takes less than 2^64 bytes. -/
theorem serialize_length_lt (block : Block) (fits : block.transactions.length ≤ MAX_TRANSACTIONS_BYTES) :
    block.serialize.length < 256 ^ 8 := by
  have slice := LawfulBlockCodec.slice_length block.transactions (by unfold MAX_TRANSACTIONS_BYTES at fits; omega)
  have integer : ∀ n : UInt64, (FixedCodec.write n).length = 8 := fun n =>
    (LawfulCodec.size n).trans LawfulBlockCodec.u64_size
  simp only [serialize,write,List.length_append,integer,block.parent_hash.2,block.state_root.2]
  unfold MAX_TRANSACTIONS_BYTES at fits
  omega

/-- Bytes that extend a written block or are cut from it are read as this block or not at all. -/
theorem read_prefix {block other : Block} (fits : block.transactions.length ≤ MAX_TRANSACTIONS_BYTES) {bs rest : Bytes}
    (related : bs <+: block.write ∨ block.write <+: bs) (ran : read_cfg.run bs = .ok (other,rest)) : other = block := by
  have whole := read_back block fits []
  rw [List.append_nil] at whole
  exact read_cfg_local.agree related ran whole

end Block

end

/-! ### Chunks -/

section
variable {F : Type} [Field F] [DecidableEq F] [PackableField F] [FixedCodec UInt64] [BytesCodec] {N m : Nat}

namespace Block

def as_chunks (self : Block) (N m : Nat) : Rust (List (Chunk F) × Nat) := do
  let encoded := self.serialize
  let byte_len := encoded.length
  let elements ← bytes_to_field_elements encoded
  let total_slots := N * m
  require (elements.length ≤ total_slots) s!"block requires {elements.length} field elements but N*m = {total_slots}"
  let padded := elements ++ List.replicate (total_slots - elements.length) 0
  require (m ≠ 0) "chunk size must be non-zero"
  let chunks ← (windows m (padded.length / m) padded).mapM Chunk.new
  return (chunks,byte_len)

/-- One coded chunk with random coefficients. -/
def encode_one [Random F] (N : Nat) (chunk_refs : List (List F)) (rng : Rng) : Rust (CodedChunk F N × Rng) := do
  let (coeffs,rng) := random_coefficients N rng
  let coded_data ← linear_combination chunk_refs coeffs
  let w ← Chunk.new coded_data
  let coded ← CodedChunk.new w coeffs
  return (coded,rng)

def encode_chunks [Random F] (self : Block) (N m count : Nat) (rng : Rng) :
    Rust ((List (CodedChunk F N) × Nat) × Rng) := do
  let (original_chunks,byte_len) ← self.as_chunks N m
  let chunk_refs := original_chunks.map Chunk.v
  let (coded,rng) ← collect (encode_one N chunk_refs) count rng
  return ((coded,byte_len),rng)

def from_chunks (N : Nat) (chunks : List (Chunk F)) (byte_len : Nat) : Rust Block := do
  require (chunks.length = N) s!"expected N={N} chunks, got {chunks.length}"
  let elements := (chunks.map Chunk.v).flatten
  let all_bytes := field_elements_to_bytes elements
  let trimmed ← slice_to all_bytes byte_len
  match read_cfg.run trimmed with
  | .ok (block,_) => return block
  | .error _ => throw (.expectation "decoded chunks must produce a valid Block")

/-- The serialized block takes at most `N * m` field elements. -/
def Fits (F : Type) [PackableField F] (self : Block) (N m : Nat) : Prop := element_count F self.serialize ≤ N * m

theorem Fits.slots {self : Block} (fits : Fits F self N m) : 0 < N * m :=
  lt_of_lt_of_le Nat.zero_lt_one ((le_max_left _ _).trans fits)

/-- The chunks of a block: `N` chunks of `m` elements whose bytes begin with the block. -/
structure ChunksOf (block : Block) (N m : Nat) (chunks : List (Chunk F)) : Prop where
  count : chunks.length = N
  sizes : ∀ v ∈ chunks, v.v.length = m
  bytes : block.serialize <+: field_elements_to_bytes (chunks.map Chunk.v).flatten

/-- The bytes of the chunks have this length, and cut to it they begin with a block. -/
def Readable (chunks : List (Chunk F)) (byte_len : Nat) : Prop :=
  byte_len ≤ (field_elements_to_bytes (chunks.map Chunk.v).flatten).length ∧
    ∃ block rest, read_cfg.run ((field_elements_to_bytes (chunks.map Chunk.v).flatten).take byte_len) = .ok (block,rest)

private theorem mapM_chunks (ws : List (List F)) (nonempty : ∀ w ∈ ws, w ≠ []) :
    ∃ chunks, ws.mapM Chunk.new = .ok chunks ∧ chunks.map Chunk.v = ws := by
  obtain ⟨chunks,ran,each⟩ := map_keeps Chunk.new (fun w (c : Chunk F) => c.v = w) ws
    (fun w member => ⟨_,Chunk.new_of (nonempty w member),rfl⟩)
  refine ⟨chunks,ran,?_⟩
  clear ran
  induction ws generalizing chunks with
  | nil => cases each; rfl
  | cons w ws ih =>
    obtain ⟨c,rest,here,later,rfl⟩ := List.forall₂_cons_left_iff.mp each
    rw [List.map_cons,here,ih (fun v member => nonempty v (by simp [member])) rest later]

/-- A block that fits is split into its chunks. -/
theorem as_chunks_spec [LawfulPackable F] (self : Block) (fits : Fits F self N m) :
    ∃ chunks : List (Chunk F), self.as_chunks N m = .ok (chunks,self.serialize.length) ∧ ChunksOf self N m chunks := by
  obtain ⟨elements,ran,long,bytes⟩ := field_elements_prefix (F := F) self.serialize
  have enough : elements.length ≤ N * m := by rw [long]; exact fits
  have some_slot := fits.slots
  have positive : 0 < m := Nat.pos_of_mul_pos_left some_slot
  set padded := elements ++ List.replicate (N * m - elements.length) 0 with named
  have whole : padded.length = N * m := by simp [named]; omega
  have count : padded.length / m = N := by rw [whole,Nat.mul_div_cancel _ positive]
  have sizes := windows_exact (show N * m ≤ padded.length by omega)
  obtain ⟨chunks,split,same⟩ := mapM_chunks (windows m N padded) (by
    intro w member empty
    have size := sizes w member
    rw [empty,List.length_nil] at size
    omega)
  refine ⟨chunks,?_,?_,?_,?_⟩
  · simp only [as_chunks,ran,ok_bind,require_of enough,← named,require_of (Nat.pos_iff_ne_zero.mp positive),count,split,
      pure_eq]
  · rw [← List.length_map (f := Chunk.v),same,windows_length]
  · intro v member
    exact sizes v.v (same ▸ List.mem_map_of_mem member)
  · rw [same,windows_flatten,List.take_of_length_le (by omega),named,field_elements_to_bytes_append]
    exact bytes.trans (List.prefix_append _ _)

/-- A block that does not fit is not split: the assertion fails. -/
theorem as_chunks_ok [LawfulPackable F] {self : Block} {chunks : List (Chunk F)} {byte_len : Nat}
    (ran : self.as_chunks N m = .ok (chunks,byte_len)) :
    Fits F self N m ∧ byte_len = self.serialize.length ∧ ChunksOf self N m chunks := by
  by_cases fits : Fits F self N m
  · obtain ⟨chunks',ran',split⟩ := as_chunks_spec self fits
    obtain ⟨rfl,rfl⟩ := ok_pair (ran'.symm.trans ran)
    exact ⟨fits,rfl,split⟩
  · obtain ⟨elements,packed,long,_⟩ := field_elements_prefix (F := F) self.serialize
    have many : ¬elements.length ≤ N * m := by rw [long]; exact fits
    simp only [as_chunks,packed,ok_bind,require_not many,error_bind] at ran
    cases ran

/-- A block is read from `N` chunks, or the code panics. -/
theorem from_chunks_runs_iff {chunks : List (Chunk F)} (count : chunks.length = N) (byte_len : Nat) :
    (∃ block, from_chunks N chunks byte_len = .ok block) ↔ Readable chunks byte_len := by
  simp only [from_chunks,require_of count,ok_bind,bind_ok,slice_to_eq_ok,Readable]
  constructor
  · rintro ⟨block,trimmed,⟨inside,rfl⟩,ran⟩
    refine ⟨inside,?_⟩
    split at ran
    · rename_i block' rest read
      exact ⟨block',rest,read⟩
    · cases ran
  · rintro ⟨inside,block,rest,read⟩
    exact ⟨block,_,⟨inside,rfl⟩,by simp only [read,pure_eq]⟩

/-- The chunks of a block give the block back, at its own length. -/
theorem from_chunks_as_chunks [LawfulBlockCodec] {self : Block} {chunks : List (Chunk F)}
    (fits : self.transactions.length ≤ MAX_TRANSACTIONS_BYTES) (split : ChunksOf self N m chunks) :
    from_chunks N chunks self.serialize.length = .ok self := by
  obtain ⟨more,bytes⟩ := split.bytes
  have trimmed : slice_to (field_elements_to_bytes (chunks.map Chunk.v).flatten) self.serialize.length =
      .ok self.serialize := by
    rw [← bytes,slice_to_of (by simp),List.take_left]
  have read : read_cfg.run self.serialize = .ok (self,[]) := by
    have whole := read_back self fits []
    rwa [List.append_nil] at whole
  simp only [from_chunks,require_of split.count,ok_bind,trimmed,read,pure_eq]

/-- The chunks of a block with a larger payload make the reader panic, at the length of the block. -/
theorem from_chunks_refused [RangedBlockCodec] {self : Block} {chunks : List (Chunk F)}
    (large : MAX_TRANSACTIONS_BYTES < self.transactions.length) (writable : self.transactions.length < 2 ^ 32)
    (split : ChunksOf self N m chunks) :
    from_chunks N chunks self.serialize.length = .error (.expectation "decoded chunks must produce a valid Block") := by
  obtain ⟨more,bytes⟩ := split.bytes
  have trimmed : slice_to (field_elements_to_bytes (chunks.map Chunk.v).flatten) self.serialize.length =
      .ok self.serialize := by
    rw [← bytes,slice_to_of (by simp),List.take_left]
  obtain ⟨e,refused⟩ := read_refused self large writable []
  rw [List.append_nil] at refused
  have read : read_cfg.run self.serialize = .error e := refused
  simp only [from_chunks,require_of split.count,ok_bind,trimmed,read]
  rfl

/-- What is read from the chunks of a block is read from bytes that extend the block or are cut from it. -/
theorem from_chunks_reads {self other : Block} {chunks : List (Chunk F)} (split : ChunksOf self N m chunks) {byte_len : Nat}
    (ran : from_chunks N chunks byte_len = .ok other) :
    ∃ bs rest, (bs <+: self.serialize ∨ self.serialize <+: bs) ∧ read_cfg.run bs = .ok (other,rest) := by
  simp only [from_chunks,require_of split.count,ok_bind,bind_ok,slice_to_eq_ok] at ran
  obtain ⟨trimmed,⟨_,rfl⟩,ran⟩ := ran
  cases read : read_cfg.run ((field_elements_to_bytes (chunks.map Chunk.v).flatten).take byte_len) with
  | error e => rw [read] at ran; cases ran
  | ok r =>
    obtain ⟨block,rest⟩ := r
    rw [read] at ran
    obtain rfl : block = other := by simpa using ran
    exact ⟨_,rest,List.prefix_or_prefix_of_prefix (List.take_prefix _ _) split.bytes,read⟩

/-- At any other length the chunks of a block give the block back or nothing. -/
theorem from_chunks_any_length [LawfulBlockCodec] {self other : Block} {chunks : List (Chunk F)}
    (fits : self.transactions.length ≤ MAX_TRANSACTIONS_BYTES) (split : ChunksOf self N m chunks) {byte_len : Nat}
    (ran : from_chunks N chunks byte_len = .ok other) : other = self := by
  obtain ⟨bs,rest,related,read⟩ := from_chunks_reads split ran
  exact read_prefix fits related read

/-- So do those of a block that is too large to be read, which give nothing. -/
theorem from_chunks_any_size [RangedBlockCodec] {self other : Block} {chunks : List (Chunk F)}
    (writable : self.transactions.length < 2 ^ 32) (split : ChunksOf self N m chunks) {byte_len : Nat}
    (ran : from_chunks N chunks byte_len = .ok other) : other = self := by
  by_cases large : MAX_TRANSACTIONS_BYTES < self.transactions.length
  · obtain ⟨bs,rest,related,read⟩ := from_chunks_reads split ran
    exact absurd read (large_unread large writable related)
  · exact from_chunks_any_length (not_lt.mp large) split ran

/-- An encoded chunk is the combination of the originals with the coefficients drawn. -/
theorem encode_one_spec [Random F] {originals : List (Chunk F)} (some_chunk : 0 < N) (positive : 0 < m)
    (count : originals.length = N) (sizes : ∀ v ∈ originals, v.v.length = m) (rng : Rng) :
    ∃ c : CodedChunk F N, encode_one N (originals.map Chunk.v) rng = .ok (c,(random_coefficients (F := F) N rng).2) ∧
      Encodes m originals c ∧ c.b = (random_coefficients N rng).1 := by
  cases sampled : (random_coefficients N rng : List F × Rng) with
  | mk coeffs rest =>
    have long : coeffs.length = N := by
      have := random_coefficients_length (F := F) N rng
      rwa [sampled] at this
    have nonempty : originals.map Chunk.v ≠ [] := by
      apply List.ne_nil_of_length_pos
      rw [List.length_map,count]
      exact some_chunk
    obtain ⟨data,ran,width,value⟩ := linear_combination_spec m (originals.map Chunk.v) coeffs
      nonempty (by rw [List.length_map,count,long]) (by
        intro v listed
        obtain ⟨c,member,rfl⟩ := List.mem_map.mp listed
        exact sizes c member)
    have some_data : data ≠ [] := List.ne_nil_of_length_pos (by omega)
    refine ⟨⟨⟨data,some_data⟩,coeffs,long⟩,?_,⟨width,?_⟩,rfl⟩
    · simp only [encode_one,sampled,ran,ok_bind,Chunk.new_of some_data,CodedChunk.new_of long,pure_eq]
    · rw [value,List.map_map]; rfl

/-- What is encoded from a block encodes its chunks. -/
theorem encode_chunks_ok [LawfulPackable F] [Random F] {self : Block} {count : Nat} {rng rest : Rng}
    {coded : List (CodedChunk F N)} {byte_len : Nat}
    (ran : self.encode_chunks N m count rng = .ok ((coded,byte_len),rest)) :
    ∃ chunks : List (Chunk F), self.as_chunks N m = .ok (chunks,byte_len) ∧ coded.length = count ∧
      ∀ c ∈ coded, Encodes m chunks c := by
  rw [encode_chunks,bind_ok] at ran
  obtain ⟨⟨chunks,length⟩,split,ran⟩ := ran
  rw [bind_ok] at ran
  obtain ⟨⟨coded',rest'⟩,collected,ran⟩ := ran
  obtain ⟨same,_⟩ := ok_pair ran
  obtain ⟨rfl,rfl⟩ := Prod.mk.inj same
  obtain ⟨fits,_,parts⟩ := as_chunks_ok split
  have slots := fits.slots
  obtain ⟨many,each⟩ := collect_each collected
  refine ⟨chunks,split,many,fun c member => ?_⟩
  obtain ⟨before,after,made⟩ := each c member
  obtain ⟨c',made',encodes,_⟩ := encode_one_spec (N := N) (Nat.pos_of_mul_pos_right slots) (Nat.pos_of_mul_pos_left slots)
    parts.count parts.sizes before
  obtain ⟨rfl,_⟩ := ok_pair (made.symm.trans made')
  exact encodes

/-- A block that fits is encoded into as many coded chunks as are wanted. -/
theorem encode_chunks_spec [LawfulPackable F] [Random F] {self : Block} (fits : Fits F self N m)
    {chunks : List (Chunk F)} {byte_len : Nat} (split : self.as_chunks N m = .ok (chunks,byte_len)) (count : Nat) (rng : Rng) :
    ∃ coded rest, self.encode_chunks N m count rng = .ok ((coded,byte_len),rest) ∧ coded.length = count ∧
      ∀ c ∈ coded, Encodes m chunks c := by
  obtain ⟨_,_,parts⟩ := as_chunks_ok split
  have slots := fits.slots
  obtain ⟨coded,rest,collected,many,each⟩ := collect_keeps (encode_one N (chunks.map Chunk.v)) (Encodes m chunks) (by
    intro before
    obtain ⟨c,made,encodes,_⟩ := encode_one_spec (Nat.pos_of_mul_pos_right slots) (Nat.pos_of_mul_pos_left slots)
      parts.count parts.sizes before
    exact ⟨c,_,made,encodes⟩) count rng
  exact ⟨coded,rest,by simp only [encode_chunks,split,ok_bind,collected,pure_eq],many,each⟩

end Block

end

end Rlnc.Blocks
