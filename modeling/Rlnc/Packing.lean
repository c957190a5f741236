import Rlnc.Panics
import Rlnc.Wire

/-!
Bytes and field elements. The element codecs of the codec library are parameters
(`FixedCodec`) with their documented laws; `read_field` and `read_group` read the
elements that the library refuses to read, zero and the identity. A
`PackableField` carries bytes in its elements: packing a byte string and unpacking
it again gives the string and padding (`field_elements_prefix`).
-/
namespace Rlnc.Packing
open Rlnc.Panics Rlnc.Wire

/-- `FixedSize + Write + Read<Cfg = ()>`; an error is the text it displays. -/
class FixedCodec (α : Type) where
  SIZE : Nat
  write : α → Bytes
  read_cfg : Reader α

/-- A reader takes exactly `size` bytes, and what it returns depends on them only. -/
def Fixed {α : Type} (size : Nat) (read : Reader α) : Prop :=
  ∀ bs x rest, read.run bs = .ok (x,rest) →
    ∃ used : Bytes, used.length = size ∧ bs = used ++ rest ∧ ∀ rest', read.run (used ++ rest') = .ok (x,rest')

theorem Fixed.local {α : Type} {size : Nat} {read : Reader α} (fixed : Fixed size read) : Local read := by
  intro bs x rest ran
  obtain ⟨used,_,split,again⟩ := fixed bs x rest ran
  exact ⟨used,split,again⟩

/-- The codec of a plain value: what is written is read back. -/
class LawfulCodec (α : Type) [FixedCodec α] : Prop where
  size : ∀ x : α, (FixedCodec.write x).length = FixedCodec.SIZE α
  fixed : Fixed (FixedCodec.SIZE α) (FixedCodec.read_cfg : Reader α)
  read_back : ∀ (x : α) (rest : Bytes), (FixedCodec.read_cfg : Reader α).run (FixedCodec.write x ++ rest) = .ok (x,rest)

/-- The codec of a field or group element: what is written is read back, but the
    reader rejects zero. -/
class LawfulElement (α : Type) [Zero α] [FixedCodec α] : Prop where
  size : ∀ x : α, (FixedCodec.write x).length = FixedCodec.SIZE α
  read_back : ∀ (x : α) (rest : Bytes), x ≠ 0 →
    (FixedCodec.read_cfg : Reader α).run (FixedCodec.write x ++ rest) = .ok (x,rest)
  rejects_zero : ∀ rest r, (FixedCodec.read_cfg : Reader α).run (FixedCodec.write (0 : α) ++ rest) ≠ .ok r

/-- The codec of a scalar: moreover zero is written as zero bytes. -/
class LawfulScalar (F : Type) [Zero F] [FixedCodec F] : Prop extends LawfulElement F where
  zero_bytes : FixedCodec.write (0 : F) = List.replicate (FixedCodec.SIZE F) 0

/-- The least that a round trip needs: what is written has the fixed size and is read back. -/
class WrittenCodec (α : Type) [FixedCodec α] : Prop where
  size : ∀ x : α, (FixedCodec.write x).length = FixedCodec.SIZE α
  read_back : ∀ (x : α) (rest : Bytes), (FixedCodec.read_cfg : Reader α).run (FixedCodec.write x ++ rest) = .ok (x,rest)

/-- The same for an element, where zero is only recognized by how it is written. -/
class WrittenElement (α : Type) [Zero α] [FixedCodec α] : Prop where
  size : ∀ x : α, (FixedCodec.write x).length = FixedCodec.SIZE α
  read_back : ∀ (x : α) (rest : Bytes), x ≠ 0 →
    (FixedCodec.read_cfg : Reader α).run (FixedCodec.write x ++ rest) = .ok (x,rest)
  only_zero : ∀ x : α, FixedCodec.write x = FixedCodec.write (0 : α) → x = 0

class WrittenScalar (F : Type) [Zero F] [FixedCodec F] : Prop extends WrittenElement F where
  zero_bytes : FixedCodec.write (0 : F) = List.replicate (FixedCodec.SIZE F) 0

/-- Only what is written is read. -/
class CanonicalCodec (α : Type) [FixedCodec α] : Prop where
  size : ∀ x : α, (FixedCodec.write x).length = FixedCodec.SIZE α
  canonical : Canonical (FixedCodec.read_cfg : Reader α) FixedCodec.write

class CanonicalScalar (F : Type) [Zero F] [FixedCodec F] : Prop extends CanonicalCodec F where
  zero_bytes : FixedCodec.write (0 : F) = List.replicate (FixedCodec.SIZE F) 0

section
variable {α : Type}

/-- Only zero is written as zero is. -/
theorem write_eq_zero [Zero α] [FixedCodec α] [LawfulElement α] {x : α}
    (same : FixedCodec.write x = FixedCodec.write (0 : α)) : x = 0 := by
  by_contra nonzero
  have back := LawfulElement.read_back x [] nonzero
  rw [same] at back
  exact LawfulElement.rejects_zero [] _ back

instance [FixedCodec α] [LawfulCodec α] : WrittenCodec α := ⟨LawfulCodec.size,LawfulCodec.read_back⟩

instance [Zero α] [FixedCodec α] [LawfulElement α] : WrittenElement α :=
  ⟨LawfulElement.size,LawfulElement.read_back,fun _ => write_eq_zero⟩

instance [Zero α] [FixedCodec α] [LawfulScalar α] : WrittenScalar α := ⟨LawfulScalar.zero_bytes⟩

/-- `map_err` on a reader. -/
def map_err (f : String → String) (read : Reader α) : Reader α := fun bs => (read bs).mapError f

theorem map_err_run (f : String → String) (read : Reader α) (bs : Bytes) :
    (map_err f read).run bs = (read.run bs).mapError f := rfl

theorem map_err_ok (f : String → String) (read : Reader α) (bs : Bytes) (r : α × Bytes) :
    (map_err f read).run bs = .ok r ↔ read.run bs = .ok r := by
  rw [map_err_run]
  cases read.run bs <;> simp [Except.mapError]

theorem map_err_canonical {f : String → String} {read : Reader α} {write : α → Bytes} (canonical : Canonical read write) :
    Canonical (map_err f read) write :=
  fun bs x rest ran => canonical bs x rest ((map_err_ok f read _ _).mp ran)

/-- Values written one after the other take their sizes together. -/
theorem written_length [FixedCodec α] (size : ∀ x : α, (FixedCodec.write x).length = FixedCodec.SIZE α) (xs : List α) :
    (xs.map FixedCodec.write).flatten.length = xs.length * FixedCodec.SIZE α := by
  induction xs with
  | nil => simp
  | cons x xs ih => rw [List.map_cons,List.flatten_cons,List.length_append,size,ih,List.length_cons,Nat.succ_mul,Nat.add_comm]

/-- Look at the next bytes, take them if they write the element `x`, and read otherwise. -/
private def read_or (x : α) (written : Bytes) (short : String) (read : Reader α) : Reader α := fun buf =>
  if buf.length < written.length then .error short
  else if buf.take written.length = written then .ok (x,buf.drop written.length)
  else read buf

end

/-! ### Reading elements -/

section
variable {F : Type} [Zero F] [FixedCodec F]
open FixedCodec

def read_field : Reader F := fun buf =>
  if buf.length < SIZE F then .error "not enough bytes for field element"
  else if (buf.take (SIZE F)).all (· == 0) then .ok (0,buf.drop (SIZE F))
  else (map_err (fun e => s!"invalid field element: {e}") read_cfg) buf

def read_group : Reader F := fun buf =>
  if buf.length < SIZE F then .error "not enough bytes for group element"
  else if buf.take (SIZE F) = write (0 : F) then .ok (0,buf.drop (SIZE F))
  else (map_err (fun e => s!"invalid group element: {e}") read_cfg) buf

private theorem read_group_eq [WrittenElement F] : (read_group : Reader F) =
    read_or 0 (write (0 : F)) "not enough bytes for group element"
      (map_err (fun e => s!"invalid group element: {e}") read_cfg) := by
  funext buf
  simp only [read_group,read_or,WrittenElement.size]

private theorem all_zero_iff (bs : Bytes) (count : Nat) (long : bs.length = count) :
    bs.all (· == 0) = true ↔ bs = List.replicate count 0 := by
  rw [List.all_eq_true,List.eq_replicate_iff]
  simp [long]

private theorem read_field_eq [WrittenScalar F] : (read_field : Reader F) =
    read_or 0 (write (0 : F)) "not enough bytes for field element"
      (map_err (fun e => s!"invalid field element: {e}") read_cfg) := by
  funext buf
  simp only [read_field,read_or,WrittenElement.size]
  by_cases short : buf.length < SIZE F
  · simp only [if_pos short]
  · have long : (buf.take (SIZE F)).length = SIZE F := by rw [List.length_take]; omega
    simp only [if_neg short,all_zero_iff _ _ long,WrittenScalar.zero_bytes]

private theorem read_or_back [WrittenElement F] (short : String) (f : String → String) (x : F) (rest : Bytes) :
    (read_or (0 : F) (write (0 : F)) short (map_err f read_cfg)).run (write x ++ rest) = .ok (x,rest) := by
  have same_size : (write x).length = (write (0 : F)).length := by rw [WrittenElement.size,WrittenElement.size]
  simp only [read_or,StateT.run,List.take_left' same_size,List.drop_left' same_size]
  rw [if_neg (by simp [same_size])]
  by_cases zero : x = 0
  · subst zero; simp
  · rw [if_neg (fun same => zero (WrittenElement.only_zero x same))]
    exact (map_err_ok f read_cfg _ _).mpr (WrittenElement.read_back x rest zero)

/-- Every group element is read back, the identity included. -/
theorem read_group_back [WrittenElement F] (x : F) (rest : Bytes) :
    (read_group : Reader F).run (write x ++ rest) = .ok (x,rest) := by
  rw [read_group_eq]
  exact read_or_back _ _ x rest

/-- Every scalar is read back, zero included. -/
theorem read_field_back [WrittenScalar F] (x : F) (rest : Bytes) :
    (read_field : Reader F).run (write x ++ rest) = .ok (x,rest) := by
  rw [read_field_eq]
  exact read_or_back _ _ x rest

theorem read_group_canonical [CanonicalCodec F] : Canonical (read_group : Reader F) write := by
  intro buf x rest ran
  simp only [read_group,StateT.run] at ran
  split at ran
  · cases ran
  · split at ran
    · rename_i zero
      obtain ⟨rfl,rfl⟩ := ok_pair ran
      rw [← zero,List.take_append_drop]
    · exact map_err_canonical CanonicalCodec.canonical buf x rest ran

theorem read_field_canonical [CanonicalScalar F] : Canonical (read_field : Reader F) write := by
  intro buf x rest ran
  simp only [read_field,StateT.run] at ran
  split at ran
  · cases ran
  · rename_i enough
    split at ran
    · rename_i zeros
      have long : (buf.take (SIZE F)).length = SIZE F := by rw [List.length_take]; omega
      obtain ⟨rfl,rfl⟩ := ok_pair ran
      rw [CanonicalScalar.zero_bytes,← (all_zero_iff _ _ long).mp zeros,List.take_append_drop]
    · exact map_err_canonical CanonicalCodec.canonical buf x rest ran

end

/-! ### Packing bytes into elements -/

/-- A field whose elements carry `DATA_BYTES` bytes each. -/
class PackableField (F : Type) where
  DATA_BYTES : Nat
  pack : Bytes → Rust F
  unpack : F → Bytes

/-- The contract of the trait: a window is recovered with padding after it. -/
class LawfulPackable (F : Type) [PackableField F] : Prop where
  positive : 0 < PackableField.DATA_BYTES F
  unpack_length : ∀ x : F, (PackableField.unpack x).length = PackableField.DATA_BYTES F
  recovers : ∀ window : Bytes, window.length ≤ PackableField.DATA_BYTES F →
    ∃ x : F, PackableField.pack window = .ok x ∧
      PackableField.unpack x = window ++ List.replicate (PackableField.DATA_BYTES F - window.length) 0

section
variable {F : Type} [PackableField F]
open PackableField

def bytes_to_field_elements [Zero F] (data : Bytes) : Rust (List F) :=
  if data = [] then .ok [0]
  else (windows (DATA_BYTES F) ((data.length + DATA_BYTES F - 1) / DATA_BYTES F) data).mapM pack

def field_elements_to_bytes (elements : List F) : Bytes := (elements.map unpack).flatten

/-- The elements that a byte string takes. -/
def element_count (F : Type) [PackableField F] (data : Bytes) : Nat :=
  max 1 ((data.length + DATA_BYTES F - 1) / DATA_BYTES F)

@[simp] theorem field_elements_to_bytes_append (xs ys : List F) :
    field_elements_to_bytes (xs ++ ys) = field_elements_to_bytes xs ++ field_elements_to_bytes ys := by
  simp [field_elements_to_bytes]

private theorem unpack_each (g : Bytes → Bytes) {ws : List Bytes} {xs : List F}
    (each : List.Forall₂ (fun w x => unpack x = g w) ws xs) : xs.map unpack = ws.map g := by
  induction each with
  | nil => rfl
  | cons here _ ih => rw [List.map_cons,List.map_cons,here,ih]

/-- Packing never panics, and the elements unpack to the string and something after it. -/
theorem field_elements_prefix [Zero F] [LawfulPackable F] (data : Bytes) :
    ∃ elements : List F, bytes_to_field_elements data = .ok elements ∧ elements.length = element_count F data ∧
      data <+: field_elements_to_bytes elements := by
  have positive := LawfulPackable.positive (F := F)
  by_cases empty : data = []
  · subst empty
    have none : (0 + DATA_BYTES F - 1) / DATA_BYTES F = 0 := Nat.div_eq_of_lt (by omega)
    exact ⟨[0],by simp [bytes_to_field_elements],by rw [element_count,List.length_nil,none]; rfl,List.nil_prefix⟩
  · set count := (data.length + DATA_BYTES F - 1) / DATA_BYTES F with counted
    have filled : data.length ≤ count * DATA_BYTES F := by
      have split := Nat.div_add_mod (data.length + DATA_BYTES F - 1) (DATA_BYTES F)
      have small := Nat.mod_lt (data.length + DATA_BYTES F - 1) positive
      rw [← counted,Nat.mul_comm] at split
      omega
    obtain ⟨elements,ran,each⟩ := map_keeps (pack : Bytes → Rust F)
      (fun window x => unpack x = window ++ List.replicate (DATA_BYTES F - window.length) 0)
      (windows (DATA_BYTES F) count data) (by
        intro window member
        obtain ⟨x,packed,back⟩ := LawfulPackable.recovers (F := F) window (windows_le _ _ _ _ member)
        exact ⟨x,packed,back⟩)
    refine ⟨elements,?_,?_,?_⟩
    · rw [bytes_to_field_elements,if_neg empty,← counted]
      exact ran
    · have some_data : 0 < data.length := List.length_pos_of_ne_nil empty
      have some_window : 0 < count := by
        rcases Nat.eq_zero_or_pos count with zero | pos
        · rw [zero,Nat.zero_mul] at filled; omega
        · exact pos
      rw [← each.length_eq,windows_length,element_count,← counted]
      omega
    · have unpacked : field_elements_to_bytes elements =
          ((windows (DATA_BYTES F) count data).map
            (fun w => w ++ List.replicate (DATA_BYTES F - w.length) 0)).flatten := by
        rw [field_elements_to_bytes,unpack_each _ each]
      rw [unpacked,windows_padded _ _ _ _ filled]
      exact List.prefix_append _ _

end

end Rlnc.Packing
