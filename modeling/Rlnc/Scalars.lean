import Rlnc.Packing

/-!
The BLS12-381 scalar field and its packing. `order` is the order of the curve's
groups, prime by Lucas' test (`order_prime`). The library writes a scalar as 32
big-endian bytes and refuses zero and unreduced numbers when reading; a scalar
carries 31 bytes below a leading zero, and this keeps the contract of `PackableField`.
-/
namespace Rlnc.Scalars
open Rlnc.Panics Rlnc.Wire Rlnc.Packing

def order : Nat := 52435875175126190479447740508185965837690552500527637822603658699938581184513

/-- The prime factors of `order - 1` with their exponents. -/
private def factors : List (Nat × Nat) :=
  [(2,32),(3,1),(11,1),(19,1),(10177,1),(125527,1),(859267,1),(906349,2),(2508409,1),(2529403,1),(52437899,1),
    (254760293,2)]

private theorem factors_product : (factors.map (fun f => f.1 ^ f.2)).prod = order - 1 := by norm_num [factors,order]

private theorem factors_prime : ∀ f ∈ factors, f.1.Prime := by
  simp only [factors,List.forall_mem_cons,List.not_mem_nil,false_implies,implies_true,and_true]
  norm_num

private theorem prime_factor {q : Nat} (prime : q.Prime) (divides : q ∣ order - 1) : ∃ f ∈ factors, q = f.1 := by
  rw [← factors_product,prime.prime.dvd_prod_iff] at divides
  obtain ⟨power,listed,inside⟩ := divides
  obtain ⟨f,member,rfl⟩ := List.mem_map.mp listed
  exact ⟨f,member,(Nat.prime_dvd_prime_iff_eq prime (factors_prime f member)).mp (prime.dvd_of_dvd_pow inside)⟩

/-- 7 generates the multiplicative group. -/
theorem order_prime : order.Prime := by
  apply lucas_primality order 7
  · unfold order
    norm_num only
    reduce_mod_char
  · intro q prime divides
    obtain ⟨f,member,rfl⟩ := prime_factor prime divides
    simp only [factors,List.mem_cons,List.not_mem_nil,or_false] at member
    rcases member with rfl | rfl | rfl | rfl | rfl | rfl | rfl | rfl | rfl | rfl | rfl | rfl
    all_goals
      unfold order
      norm_num only
      reduce_mod_char
      decide

instance : Fact order.Prime := ⟨order_prime⟩

/-- The scalar field of BLS12-381. -/
abbrev Scalar := ZMod order

theorem packed_lt (bs : Bytes) (short : bs.length ≤ 31) : of_be bs < order := by
  have bound := of_be_lt bs
  have power : 256 ^ bs.length ≤ 256 ^ 31 := Nat.pow_le_pow_right (by decide) short
  have below : 256 ^ 31 < order := by decide
  omega

/-- What the library documents of its scalar codec: 32 big-endian bytes, reduced
    and never zero when read. -/
class LawfulScalarCodec [FixedCodec Scalar] : Prop where
  size : FixedCodec.SIZE Scalar = 32
  written : ∀ s : Scalar, FixedCodec.write s = to_be 32 s.val
  reads : ∀ bs rest : Bytes, bs.length = 32 → 0 < of_be bs → of_be bs < order →
    (FixedCodec.read_cfg : Reader Scalar).run (bs ++ rest) = .ok ((of_be bs : Scalar),rest)
  rejects_zero : ∀ rest r, (FixedCodec.read_cfg : Reader Scalar).run (List.replicate 32 0 ++ rest) ≠ .ok r

private theorem val_bound (s : Scalar) : s.val < 256 ^ 32 := by
  have reduced := ZMod.val_lt s
  have below : order < 256 ^ 32 := by decide
  omega

section
variable [FixedCodec Scalar] [LawfulScalarCodec]
open FixedCodec

private theorem of_written (s : Scalar) : of_be (write s) = s.val := by
  rw [LawfulScalarCodec.written,of_be_to_be_of_lt (val_bound s)]

private theorem zero_written : write (0 : Scalar) = List.replicate 32 0 := by
  have zero : of_be (write (0 : Scalar)) = 0 := by rw [of_written,ZMod.val_zero]
  have long : (write (0 : Scalar)).length = 32 := by rw [LawfulScalarCodec.written,to_be_length]
  rw [of_be_eq_zero zero,long]

instance : LawfulScalar Scalar where
  size s := by rw [LawfulScalarCodec.written,to_be_length,LawfulScalarCodec.size]
  read_back s rest nonzero := by
    have long : (write s).length = 32 := by rw [LawfulScalarCodec.written,to_be_length]
    have positive : 0 < s.val := Nat.pos_of_ne_zero (fun zero => nonzero ((ZMod.val_eq_zero s).mp zero))
    have read := LawfulScalarCodec.reads (write s) rest long (by rwa [of_written]) (by rw [of_written]; exact ZMod.val_lt s)
    rwa [of_written,ZMod.natCast_zmod_val] at read
  rejects_zero rest r := by rw [zero_written]; exact LawfulScalarCodec.rejects_zero rest r
  zero_bytes := by rw [zero_written,LawfulScalarCodec.size]

/-- Pack at most 31 bytes below a leading zero byte. -/
def pack (window : Bytes) : Rust Scalar := do
  require (window.length ≤ 31) s!"window length {window.length} exceeds DATA_BYTES 31"
  if window.all (· == 0) then
    return 0
  let be := 0 :: (window ++ List.replicate (31 - window.length) 0)
  match (read_cfg : Reader Scalar).run be with
  | .ok (s,_) => return s
  | .error _ => throw (.expectation "31-byte value is always a valid non-zero BLS12-381 scalar")

def unpack (s : Scalar) : Bytes := (write s).drop 1

instance : PackableField Scalar := ⟨31,pack,unpack⟩

private theorem unpack_natCast (bs : Bytes) (long : bs.length = 31) : unpack (of_be bs : Scalar) = bs := by
  have value : (of_be bs : Scalar).val = of_be (0 :: bs) := by
    rw [of_be_zero_cons,ZMod.val_natCast_of_lt (packed_lt bs (by omega))]
  have whole : to_be 32 (of_be (0 :: bs)) = 0 :: bs := by
    have back := to_be_of_be (0 :: bs)
    rwa [List.length_cons,long] at back
  rw [unpack,LawfulScalarCodec.written,value,whole,List.drop_succ_cons,List.drop_zero]

private theorem unpack_length (s : Scalar) : (unpack s).length = 31 := by
  rw [unpack,List.length_drop,LawfulScalarCodec.written,to_be_length]

private theorem pack_spec (window : Bytes) (short : window.length ≤ 31) :
    pack window = .ok (of_be (window ++ List.replicate (31 - window.length) 0) : Scalar) := by
  set padded := window ++ List.replicate (31 - window.length) 0 with named
  have long : padded.length = 31 := by simp [named]; omega
  by_cases zero : window.all (· == 0)
  · have zeros : padded = List.replicate 31 0 := by
      rw [List.eq_replicate_iff]
      refine ⟨long,fun b member => ?_⟩
      rcases List.mem_append.mp member with inside | padding
      · simpa using List.all_eq_true.mp zero b inside
      · exact List.eq_of_mem_replicate padding
    rw [zeros,of_be_zeros]
    simp only [pack,require_of short,ok_bind,if_pos zero,pure_eq,Nat.cast_zero]
  · have positive : 0 < of_be (0 :: padded) := by
      rw [of_be_zero_cons]
      apply Nat.pos_of_ne_zero
      intro vanishes
      have zeros := of_be_eq_zero vanishes
      apply zero
      rw [List.all_eq_true]
      intro b inside
      have member : b ∈ padded := List.mem_append_left _ inside
      rw [zeros] at member
      simp [List.eq_of_mem_replicate member]
    have reduced : of_be (0 :: padded) < order := by
      rw [of_be_zero_cons]
      exact packed_lt padded (by omega)
    have read := LawfulScalarCodec.reads (0 :: padded) [] (by simp [long]) positive reduced
    rw [List.append_nil,of_be_zero_cons] at read
    simp only [pack,require_of short,ok_bind,if_neg zero,← named,read,pure_eq]

instance : LawfulPackable Scalar where
  positive := Nat.succ_pos 30
  unpack_length := unpack_length
  recovers window short := by
    refine ⟨_,pack_spec window short,?_⟩
    apply unpack_natCast
    simp only [List.length_append,List.length_replicate]
    exact Nat.add_sub_of_le short

end

end Rlnc.Scalars
