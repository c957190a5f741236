import Rlnc.Blocks
import Rlnc.Groups
import Rlnc.Scalars
import Rlnc.Varint

/-!
A reference instantiation of the libraries, in which their laws hold: big-endian
integers and scalars, byte slices with a variable-length integer in front, the
scalar field as both groups with its product as the pairing, and signatures that
recompute a checksum of key, namespace and message. The laws that the other
modules assume are therefore satisfiable together.
-/
namespace Rlnc.Reference
open Rlnc.Panics Rlnc.Combination Rlnc.Wire Rlnc.Packing Rlnc.Coding Rlnc.Scalars Rlnc.Blocks Rlnc.Draws Rlnc.Groups

/-- A number as a scalar. -/
def scalar (n : Nat) : Scalar := n

/-- Draws whose first sixteen make four independent coefficient vectors. -/
def powers : Rng := fun i => (i + 1) ^ 5

/-- A chunk from its first element and the others. -/
def chunk_of {F : Type} (x : F) (xs : List F) : Chunk F := ⟨x :: xs,List.cons_ne_nil x xs⟩

/-- A coded chunk of one original. -/
def coded_one {F : Type} (w : Chunk F) (x : F) : CodedChunk F 1 := ⟨w,[x],rfl⟩

/-- A coded chunk of two originals. -/
def coded_two {F : Type} (w : Chunk F) (x y : F) : CodedChunk F 2 := ⟨w,[x,y],rfl⟩

/-- A block with the given transactions and nothing else set. -/
def block_of (transactions : Bytes) : Block where
  parent_hash := ⟨List.replicate 32 0,List.length_replicate⟩
  number := 0
  timestamp := 0
  gas_used := 0
  gas_limit := 0
  state_root := ⟨List.replicate 32 0,List.length_replicate⟩
  transactions := transactions

/-! ### Codecs -/

/-- The text of the library's error for a buffer that is too short. -/
def end_of_buffer : String := "Unexpected End-of-Buffer: Not enough bytes remaining to read data"

/-- Read `size` bytes and make a value of them. -/
def read_fixed {α : Type} (size : Nat) (make : Bytes → Except String α) : Reader α := fun buf =>
  if buf.length < size then .error end_of_buffer
  else (make (buf.take size)).map (fun x => (x,buf.drop size))

theorem read_fixed_append {α : Type} {size : Nat} {make : Bytes → Except String α} {bs : Bytes} (long : bs.length = size)
    (rest : Bytes) : (read_fixed size make).run (bs ++ rest) = (make bs).map (fun x => (x,rest)) := by
  simp only [read_fixed,StateT.run,List.take_left' long,List.drop_left' long]
  rw [if_neg (by simp [long])]

theorem read_fixed_fixed {α : Type} (size : Nat) (make : Bytes → Except String α) : Fixed size (read_fixed size make) := by
  intro buf x rest ran
  by_cases short : buf.length < size
  · simp [read_fixed,StateT.run,short] at ran
  · have long : (buf.take size).length = size := by rw [List.length_take]; omega
    have split := List.take_append_drop size buf
    rw [← split,read_fixed_append long] at ran
    cases made : make (buf.take size) with
    | error e => rw [made] at ran; cases ran
    | ok y =>
      rw [made] at ran
      obtain ⟨rfl,rfl⟩ := ok_pair ran
      exact ⟨buf.take size,long,split.symm,fun rest' => by rw [read_fixed_append long,made]; rfl⟩

theorem read_fixed_canonical {α : Type} {size : Nat} {make : Bytes → Except String α} {write : α → Bytes}
    (written : ∀ bs x, bs.length = size → make bs = .ok x → write x = bs) : Canonical (read_fixed size make) write := by
  intro buf x rest ran
  by_cases short : buf.length < size
  · simp [read_fixed,StateT.run,short] at ran
  · have long : (buf.take size).length = size := by rw [List.length_take]; omega
    simp only [read_fixed,StateT.run,if_neg short] at ran
    cases made : make (buf.take size) with
    | error e => rw [made] at ran; cases ran
    | ok y =>
      rw [made] at ran
      obtain ⟨rfl,rfl⟩ := ok_pair ran
      rw [written _ y long made,List.take_append_drop]

scoped instance : FixedCodec UInt32 := ⟨4,fun n => to_be 4 n.toNat,read_fixed 4 (fun bs => .ok (UInt32.ofNat (of_be bs)))⟩

scoped instance : FixedCodec UInt64 := ⟨8,fun n => to_be 8 n.toNat,read_fixed 8 (fun bs => .ok (UInt64.ofNat (of_be bs)))⟩

scoped instance : LawfulCodec UInt32 where
  size _ := to_be_length 4 _
  fixed := read_fixed_fixed 4 _
  read_back n rest := by
    have small : n.toNat < 256 ^ 4 := n.toNat_lt
    refine (read_fixed_append (to_be_length 4 _) rest).trans ?_
    simp [of_be_to_be_of_lt small,Except.map]

scoped instance : LawfulCodec UInt64 where
  size _ := to_be_length 8 _
  fixed := read_fixed_fixed 8 _
  read_back n rest := by
    have small : n.toNat < 256 ^ 8 := n.toNat_lt
    refine (read_fixed_append (to_be_length 8 _) rest).trans ?_
    simp [of_be_to_be_of_lt small,Except.map]

scoped instance : CanonicalCodec UInt32 where
  size _ := to_be_length 4 _
  canonical := read_fixed_canonical (by
    intro bs n long made
    obtain rfl := Except.ok.inj made
    have small := of_be_lt bs
    have back := to_be_of_be bs
    rw [long] at small back
    exact (congrArg (to_be 4) (UInt32.toNat_ofNat_of_lt' small)).trans back)

scoped instance : CanonicalCodec UInt64 where
  size _ := to_be_length 8 _
  canonical := read_fixed_canonical (by
    intro bs n long made
    obtain rfl := Except.ok.inj made
    have small := of_be_lt bs
    have back := to_be_of_be bs
    rw [long] at small back
    exact (congrArg (to_be 8) (UInt64.toNat_ofNat_of_lt' small)).trans back)

/-- A slice with its length in front, if that is in the range. -/
def read_slice (low high : Nat) : Reader Bytes := fun buf =>
  match Varint.read 32 buf with
  | none => .error "Invalid Varint"
  | some (len,more) =>
    if len < low ∨ high < len then .error s!"Invalid Length: {len}"
    else if more.length < len then .error end_of_buffer
    else .ok (more.take len,more.drop len)

theorem read_slice_ok (low high : Nat) (buf bs rest : Bytes) : (read_slice low high).run buf = .ok (bs,rest) ↔
    ∃ len more, Varint.read 32 buf = some (len,more) ∧ low ≤ len ∧ len ≤ high ∧ len ≤ more.length ∧
      bs = more.take len ∧ rest = more.drop len := by
  simp only [read_slice,StateT.run]
  cases read : Varint.read 32 buf with
  | none => simp
  | some r =>
    obtain ⟨len,more⟩ := r
    by_cases outside : len < low ∨ high < len
    · simp only [if_pos outside]
      constructor
      · intro failed
        cases failed
      · rintro ⟨len',more',found,large,small,_⟩
        obtain ⟨rfl,rfl⟩ := Prod.mk.inj (Option.some.inj found)
        omega
    · by_cases short : more.length < len
      · simp only [if_neg outside,if_pos short]
        constructor
        · intro failed
          cases failed
        · rintro ⟨len',more',found,_,_,enough,_⟩
          obtain ⟨rfl,rfl⟩ := Prod.mk.inj (Option.some.inj found)
          omega
      · simp only [if_neg outside,if_neg short]
        constructor
        · intro ran
          obtain ⟨rfl,rfl⟩ := ok_pair ran
          exact ⟨len,more,rfl,by omega,by omega,by omega,rfl,rfl⟩
        · rintro ⟨len',more',found,_,_,_,rfl,rfl⟩
          obtain ⟨rfl,rfl⟩ := Prod.mk.inj (Option.some.inj found)
          rfl

scoped instance : BytesCodec where
  end_of_buffer := end_of_buffer
  extra_data count := s!"Extra Data: {count} bytes"
  write bs := Varint.write bs.length ++ bs
  read_cfg := read_slice

scoped instance : LawfulBlockCodec where
  u64_size := rfl
  slice_length bs small := by
    have bits : Varint.size bs.length ≤ 4 + 1 := Varint.size_le (by omega)
    simp only [BytesCodec.write,List.length_append,Varint.length_write]
    omega
  slice_local low high := by
    intro buf bs rest ran
    obtain ⟨len,more,read,large,small,enough,rfl,rfl⟩ := (read_slice_ok low high buf bs rest).mp ran
    obtain ⟨rfl,bits⟩ := Varint.read_canonical read
    have long : (more.take len).length = len := by rw [List.length_take]; omega
    refine ⟨Varint.write len ++ more.take len,by rw [List.append_assoc,List.take_append_drop],fun rest' => ?_⟩
    rw [List.append_assoc]
    exact (read_slice_ok low high _ _ _).mpr ⟨len,_,Varint.read_write bits _,large,small,by rw [List.length_append]; omega,
      (List.take_left' long).symm,(List.drop_left' long).symm⟩
  slice_back low high bs rest large small writable := by
    simp only [BytesCodec.write,List.append_assoc]
    exact (read_slice_ok low high _ _ _).mpr ⟨bs.length,_,Varint.read_write writable _,large,small,by simp,
      List.take_left.symm,List.drop_left.symm⟩

scoped instance : RangedBlockCodec where
  slice_refused low high bs rest large writable := by
    refine ⟨s!"Invalid Length: {bs.length}",?_⟩
    simp only [BytesCodec.write,BytesCodec.read_cfg,List.append_assoc,read_slice,StateT.run,Varint.read_write writable]
    rw [if_pos (.inr large)]

scoped instance : FixedCodec Scalar where
  SIZE := 32
  write s := to_be 32 s.val
  read_cfg := read_fixed 32 fun bs =>
    if of_be bs = 0 ∨ order ≤ of_be bs then .error "Invalid: Scalar" else .ok (of_be bs : Scalar)

scoped instance : LawfulScalarCodec where
  size := rfl
  written _ := rfl
  reads bs rest long positive reduced := by
    refine (read_fixed_append long rest).trans ?_
    rw [if_neg (by omega)]
    rfl
  rejects_zero rest r ran := by
    have failed := (read_fixed_append (List.length_replicate (n := 32) (a := (0 : UInt8))) rest).symm.trans ran
    rw [if_pos (.inl (of_be_zeros 32))] at failed
    cases failed

scoped instance : CanonicalScalar Scalar where
  size _ := to_be_length 32 _
  canonical := read_fixed_canonical (by
    intro bs x long made
    have back := to_be_of_be bs
    rw [long] at back
    by_cases refused : of_be bs = 0 ∨ order ≤ of_be bs
    · rw [if_pos refused] at made
      cases made
    · rw [if_neg refused] at made
      obtain rfl := Except.ok.inj made
      have reduced : (of_be bs : Scalar).val = of_be bs := ZMod.val_natCast_of_lt (by omega)
      exact (congrArg (to_be 32) reduced).trans back)
  zero_bytes := by
    change to_be 32 (0 : Scalar).val = List.replicate 32 0
    rw [ZMod.val_zero]
    decide

theorem scalar_write_injective : Function.Injective (FixedCodec.write : Scalar → Bytes) := by
  intro x y same
  have small : ∀ s : Scalar, s.val < 256 ^ 32 := fun s => lt_trans s.val_lt (by decide)
  exact ZMod.val_injective order (to_be_inj (small x) (small y) same)

/-! ### Randomness -/

scoped instance : Random Scalar := ⟨fun draw => if (draw : Scalar) = 0 then 1 else draw⟩

scoped instance : LawfulRandom Scalar where
  nonzero draw := by
    change (if (draw : Scalar) = 0 then (1 : Scalar) else draw) ≠ 0
    split
    · exact one_ne_zero
    · assumption
  every x nonzero := by
    refine ⟨x.val,?_⟩
    change (if ((x.val : Nat) : Scalar) = 0 then (1 : Scalar) else (x.val : Nat)) = x
    rw [ZMod.natCast_zmod_val,if_neg nonzero]

/-- The outcome gives the place of each element among those after it. -/
def shuffle {α : Type} : Nat → List α → List α
  | _, [] => []
  | draw, x :: xs => (shuffle (draw / (xs.length + 1)) xs).insertIdx (draw % (xs.length + 1)) x

theorem shuffle_perm {α : Type} (draw : Nat) (xs : List α) : (shuffle draw xs).Perm xs := by
  induction xs generalizing draw with
  | nil => exact List.Perm.refl []
  | cons x xs ih =>
    have shorter := ih (draw / (xs.length + 1))
    have inside : draw % (xs.length + 1) ≤ (shuffle (draw / (xs.length + 1)) xs).length := by
      rw [shorter.length_eq]
      exact Nat.lt_succ_iff.mp (Nat.mod_lt _ (Nat.succ_pos _))
    exact (List.perm_insertIdx x _ inside).trans (shorter.cons x)

theorem shuffle_every {α : Type} (xs ys : List α) (permuted : ys.Perm xs) : ∃ draw, shuffle draw xs = ys := by
  induction xs generalizing ys with
  | nil => exact ⟨0,permuted.eq_nil.symm⟩
  | cons x xs ih =>
    obtain ⟨before,after,rfl⟩ := List.append_of_mem (permuted.mem_iff.mpr List.mem_cons_self)
    have rest : (before ++ after).Perm xs := List.Perm.cons_inv (List.perm_middle.symm.trans permuted)
    obtain ⟨draw,shuffled⟩ := ih _ rest
    have small : before.length < xs.length + 1 := by
      have count := rest.length_eq
      rw [List.length_append] at count
      omega
    refine ⟨before.length + (xs.length + 1) * draw,?_⟩
    rw [shuffle,Nat.add_mul_mod_self_left,Nat.mod_eq_of_lt small,Nat.add_mul_div_left _ _ (Nat.succ_pos _),
      Nat.div_eq_of_lt small,Nat.zero_add,shuffled]
    clear permuted rest shuffled small
    induction before with
    | nil => simp
    | cons b before ih => simpa using ih

scoped instance : SliceRandom := ⟨shuffle⟩

scoped instance : LawfulSliceRandom := ⟨shuffle_perm,shuffle_every⟩

/-! ### Groups and signatures -/

scoped instance : Space Scalar Scalar := ⟨fun points scalars => comb scalars points⟩

scoped instance : LawfulSpace Scalar Scalar := ⟨fun _ _ _ => rfl⟩

/-- A checksum of the bytes that is never zero. -/
def checksum (bs : Bytes) : Scalar := if (of_be bs : Scalar) = 0 then 1 else of_be bs

scoped instance : HashToGroup Scalar := ⟨fun dst msg => checksum (dst ++ msg)⟩

scoped instance : PairingGroup Scalar Scalar := ⟨1,fun pk sigma p => decide (sigma = pk * p)⟩

scoped instance : LawfulPairing Scalar Scalar Scalar :=
  ⟨Scalar,inferInstance,inferInstance,LinearMap.mul Scalar Scalar,fun pk sigma p => by simp [PairingGroup.pairing_check,
    PairingGroup.generator]⟩

scoped instance : Verifier Bytes UInt64 := ⟨fun pk ns msg sig => sig == UInt64.ofNat (of_be (pk ++ ns ++ msg))⟩

scoped instance : Signer Bytes Bytes UInt64 := ⟨id,fun s ns msg => UInt64.ofNat (of_be (s ++ ns ++ msg))⟩

scoped instance : LawfulSigner Bytes Bytes UInt64 := ⟨fun s ns msg => by simp [Verifier.verify,Signer.sign,Signer.public_key]⟩

/-- The number of the bytes, cut to 32 bytes. -/
scoped instance : Keccak256 := ⟨fun bs => ⟨to_be 32 (of_be bs),to_be_length 32 _⟩⟩

/-- An ideal signer: its key accepts the messages that it has signed and no others. -/
structure Registry where
  signed : List Bytes

scoped instance : Verifier Registry UInt64 := ⟨fun pk _ msg _ => pk.signed.contains msg⟩

scoped instance : Signer Registry Registry UInt64 := ⟨id,fun _ _ _ => 0⟩

end Rlnc.Reference
