import Rlnc.Wire

/-!
Variable-length integers: seven bits to a byte, the low bits first, and the high bit set
on every byte but the last. The reader takes integers of a given width and refuses the
forms that are longer than needed, so that it takes off exactly what is written
(`read_write`, `read_canonical`), and the bytes tell where an integer ends (`write_apart`).
-/
namespace Rlnc.Varint
open Rlnc.Wire

def write (n : Nat) : Bytes :=
  if n < 128 then [UInt8.ofNat n] else UInt8.ofNat (128 + n % 128) :: write (n / 128)
termination_by n
decreasing_by omega

/-- The number of bytes, from the number of significant bits. -/
def size (n : Nat) : Nat := (max 1 n.size + 6) / 7

/-- Read an integer of at most `bits` bits. Only the first byte may be zero. -/
def read_from (first : Bool) (bits : Nat) : Bytes → Option (Nat × Bytes)
  | [] => none
  | b :: bs =>
    if first = false ∧ b = 0 then none
    else if bits ≤ 7 ∧ 2 ^ bits ≤ b.toNat then none
    else if b.toNat < 128 then some (b.toNat,bs)
    else (read_from false (bits - 7) bs).map (fun r => (b.toNat - 128 + 128 * r.1,r.2))

def read (bits : Nat) (bs : Bytes) : Option (Nat × Bytes) := read_from true bits bs

theorem write_small {n : Nat} (small : n < 128) : write n = [UInt8.ofNat n] := by rw [write,if_pos small]

theorem write_large {n : Nat} (large : ¬n < 128) : write n = UInt8.ofNat (128 + n % 128) :: write (n / 128) := by
  rw [write,if_neg large]

/-! ### Sizes -/

/-- Seven bits less. -/
theorem size_div {n : Nat} (large : 128 ≤ n) : n.size = (n / 128).size + 7 := by
  have shift : ∀ k : Nat, (2 : Nat) ^ (k + 7) = 2 ^ k * 128 := fun k => by rw [Nat.pow_add]
  apply le_antisymm
  · rw [Nat.size_le,shift]
    have below := Nat.size_le.mp (le_refl (n / 128).size)
    omega
  · have above : 7 < n.size := by
      rw [Nat.lt_size]
      exact large
    obtain ⟨k,split⟩ : ∃ k, n.size = k + 7 := ⟨n.size - 7,by omega⟩
    have below := Nat.size_le.mp (le_refl n.size)
    rw [split,shift] at below
    have lower : (n / 128).size ≤ k := by
      rw [Nat.size_le]
      omega
    omega

/-- As many bytes are written as the size says. -/
theorem length_write (n : Nat) : (write n).length = size n := by
  induction n using write.induct with
  | case1 n small =>
    have bits : n.size ≤ 7 := Nat.size_le.mpr small
    rw [write_small small,size,List.length_singleton]
    omega
  | case2 n large ih =>
    have positive : 0 < (n / 128).size := Nat.size_pos.mpr (by omega)
    rw [write_large large,List.length_cons,ih,size,size,size_div (not_lt.mp large)]
    omega

theorem size_le {n k : Nat} (small : n < 2 ^ (7 * (k + 1))) : size n ≤ k + 1 := by
  have bits := Nat.size_le.mpr small
  rw [size]
  omega

/-! ### Reading -/

theorem read_from_write (first : Bool) {bits n : Nat} (small : n < 2 ^ bits) (positive : first = false → 0 < n) (rest : Bytes) :
    read_from first bits (write n ++ rest) = some (n,rest) := by
  induction n using write.induct generalizing first bits with
  | case1 n last =>
    have byte : (UInt8.ofNat n).toNat = n := by simp; omega
    have nonzero : ¬(first = false ∧ UInt8.ofNat n = 0) := by
      rintro ⟨later,zero⟩
      have value := congrArg UInt8.toNat zero
      rw [byte] at value
      exact absurd value (positive later).ne'
    rw [write_small last,List.singleton_append,read_from,if_neg nonzero,byte,if_neg (by omega),if_pos last]
  | case2 n more ih =>
    have byte : (UInt8.ofNat (128 + n % 128)).toNat = 128 + n % 128 := by simp; omega
    have wide : 7 < bits := by
      by_contra narrow
      have bound : 2 ^ bits ≤ 2 ^ 7 := Nat.pow_le_pow_right (by omega) (by omega)
      omega
    have shorter : n / 128 < 2 ^ (bits - 7) := by
      have split : 2 ^ bits = 2 ^ (bits - 7) * 128 := by
        rw [show (128 : Nat) = 2 ^ 7 from rfl,← Nat.pow_add,Nat.sub_add_cancel (by omega)]
      omega
    have next := ih false shorter (fun _ => by omega)
    have nonzero : ¬(first = false ∧ UInt8.ofNat (128 + n % 128) = 0) := by
      rintro ⟨_,zero⟩
      have value := congrArg UInt8.toNat zero
      rw [byte] at value
      exact absurd value (by simp)
    rw [write_large more,List.cons_append,read_from,if_neg nonzero,byte,if_neg (by omega),if_neg (by omega),next,
      Option.map_some]
    congr 2
    omega

theorem read_write {bits n : Nat} (small : n < 2 ^ bits) (rest : Bytes) : read bits (write n ++ rest) = some (n,rest) :=
  read_from_write true small (fun later => by cases later) rest

theorem read_from_canonical {first : Bool} {bits n : Nat} {bs rest : Bytes}
    (ran : read_from first bits bs = some (n,rest)) : bs = write n ++ rest ∧ n < 2 ^ bits ∧ (first = false → 0 < n) := by
  induction bs generalizing first bits n with
  | nil => cases ran
  | cons b bs ih =>
    rw [read_from] at ran
    by_cases zero : first = false ∧ b = 0
    · rw [if_pos zero] at ran
      cases ran
    · rw [if_neg zero] at ran
      by_cases over_long : bits ≤ 7 ∧ 2 ^ bits ≤ b.toNat
      · rw [if_pos over_long] at ran
        cases ran
      · rw [if_neg over_long] at ran
        by_cases last : b.toNat < 128
        · rw [if_pos last] at ran
          obtain ⟨rfl,rfl⟩ := Prod.mk.inj (Option.some.inj ran)
          refine ⟨?_,?_,?_⟩
          · rw [write_small last,UInt8.ofNat_toNat,List.singleton_append]
          · by_cases narrow : bits ≤ 7
            · exact not_le.mp fun large => over_long ⟨narrow,large⟩
            · exact lt_of_lt_of_le last (Nat.pow_le_pow_right (n := 2) (by omega) (show 7 ≤ bits by omega))
          · intro later
            refine Nat.pos_of_ne_zero fun vanishes => zero ⟨later,UInt8.toNat_inj.mp vanishes⟩
        · rw [if_neg last,Option.map_eq_some_iff] at ran
          obtain ⟨⟨k,left⟩,next,same⟩ := ran
          obtain ⟨rfl,rfl⟩ := Prod.mk.inj same
          obtain ⟨rfl,bound,positive⟩ := ih next
          have byte := b.toNat_lt
          have some_bit := positive rfl
          have wide : 7 < bits := by
            by_contra narrow
            have below : 2 ^ bits ≤ 2 ^ 7 := Nat.pow_le_pow_right (by omega) (by omega)
            exact over_long ⟨by omega,by omega⟩
          have split : 2 ^ bits = 2 ^ (bits - 7) * 128 := by
            rw [show (128 : Nat) = 2 ^ 7 from rfl,← Nat.pow_add,Nat.sub_add_cancel (by omega)]
          have high : (b.toNat - 128 + 128 * k) / 128 = k := by omega
          have low : 128 + (b.toNat - 128 + 128 * k) % 128 = b.toNat := by omega
          have large : ¬b.toNat - 128 + 128 * k < 128 := by omega
          refine ⟨?_,by simp only; omega,fun _ => by simp only; omega⟩
          rw [write_large large,high,low,UInt8.ofNat_toNat,List.cons_append]

/-- Only the shortest form is read. -/
theorem read_canonical {bits n : Nat} {bs rest : Bytes} (ran : read bits bs = some (n,rest)) :
    bs = write n ++ rest ∧ n < 2 ^ bits := by
  obtain ⟨split,small,_⟩ := read_from_canonical ran
  exact ⟨split,small⟩

/-- No integer is written as the beginning of another one. -/
theorem write_apart {n k : Nat} {xs ys : Bytes} (same : write n ++ xs = write k ++ ys) : n = k ∧ xs = ys := by
  have left := read_write (lt_of_lt_of_le n.lt_two_pow_self (Nat.pow_le_pow_right (n := 2) (by omega) (Nat.le_add_right n k))) xs
  have right := read_write (lt_of_lt_of_le k.lt_two_pow_self (Nat.pow_le_pow_right (n := 2) (by omega) (Nat.le_add_left k n))) ys
  rw [same,right] at left
  obtain ⟨rfl,rfl⟩ := Prod.mk.inj (Option.some.inj left)
  exact ⟨rfl,rfl⟩

/-- A zero byte after others is refused. -/
example : read 32 [128,0] = none ∧ read 32 [128,1,9] = some (128,[9]) := by decide

end Rlnc.Varint
