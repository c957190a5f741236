import Mathlib

/-!
Byte strings: big-endian numbers, splitting into windows, and readers. A reader
takes a value off the front of a buffer. It is `Local` when what it returns depends
on the bytes it takes only: then it returns the same value on any longer buffer
(`Local.extend`), and two buffers of which one is a prefix of the other never give
two different values (`Local.agree`). It is `Canonical` when it takes off only what a
writer writes.
-/
namespace Rlnc.Wire

abbrev Bytes := List UInt8

/-! ### Big-endian numbers -/

def of_be (bs : Bytes) : Nat := bs.foldl (fun n b => n * 256 + b.toNat) 0

def to_be : Nat → Nat → Bytes
  | 0, _ => []
  | width + 1, n => to_be width (n / 256) ++ [UInt8.ofNat n]

@[simp] theorem of_be_snoc (bs : Bytes) (b : UInt8) : of_be (bs ++ [b]) = of_be bs * 256 + b.toNat := by
  simp [of_be]

@[simp] theorem to_be_length (width n : Nat) : (to_be width n).length = width := by
  induction width generalizing n with
  | zero => rfl
  | succ width ih => simp [to_be,ih]

theorem of_be_to_be (width n : Nat) : of_be (to_be width n) = n % 256 ^ width := by
  induction width generalizing n with
  | zero => simp [to_be,of_be,Nat.mod_one]
  | succ width ih =>
    have byte : (UInt8.ofNat n).toNat = n % 256 := by simp
    rw [to_be,of_be_snoc,ih,byte,Nat.pow_succ',Nat.mod_mul]
    omega

theorem of_be_to_be_of_lt {width n : Nat} (small : n < 256 ^ width) : of_be (to_be width n) = n := by
  rw [of_be_to_be,Nat.mod_eq_of_lt small]

theorem to_be_of_be (bs : Bytes) : to_be bs.length (of_be bs) = bs := by
  induction bs using List.reverseRecOn with
  | nil => rfl
  | append_singleton bs b ih =>
    have high : (of_be bs * 256 + b.toNat) / 256 = of_be bs := by
      have bound := b.toNat_lt
      omega
    have low : UInt8.ofNat (of_be bs * 256 + b.toNat) = b := by
      apply UInt8.toNat_inj.mp
      have bound := b.toNat_lt
      simp only [UInt8.toNat_ofNat']
      omega
    rw [List.length_append,List.length_singleton,to_be,of_be_snoc,high,low,ih]

theorem of_be_lt (bs : Bytes) : of_be bs < 256 ^ bs.length := by
  induction bs using List.reverseRecOn with
  | nil => simp [of_be]
  | append_singleton bs b ih =>
    have bound := b.toNat_lt
    rw [of_be_snoc,List.length_append,List.length_singleton,Nat.pow_succ]
    omega

theorem to_be_inj {width n k : Nat} (small : n < 256 ^ width) (small' : k < 256 ^ width)
    (same : to_be width n = to_be width k) : n = k := by
  rw [← of_be_to_be_of_lt small,← of_be_to_be_of_lt small',same]

theorem of_be_zeros (k : Nat) : of_be (List.replicate k 0) = 0 := by
  induction k with
  | zero => rfl
  | succ k ih => rw [List.replicate_succ',of_be_snoc,ih]; rfl

theorem of_be_zero_cons (bs : Bytes) : of_be (0 :: bs) = of_be bs := by
  simp [of_be]

theorem of_be_eq_zero {bs : Bytes} (zero : of_be bs = 0) : bs = List.replicate bs.length 0 := by
  rw [← to_be_of_be bs,zero,to_be_length]
  conv_rhs => rw [← to_be_of_be (List.replicate bs.length 0),of_be_zeros,List.length_replicate]

/-! ### Windows -/

section
variable {α : Type}

/-- The first `count` windows of `size` elements. -/
def windows (size : Nat) : Nat → List α → List (List α)
  | 0, _ => []
  | count + 1, xs => xs.take size :: windows size count (xs.drop size)

@[simp] theorem windows_length (size count : Nat) (xs : List α) : (windows size count xs).length = count := by
  induction count generalizing xs with
  | zero => rfl
  | succ count ih => simp [windows,ih]

theorem windows_flatten (size count : Nat) (xs : List α) :
    (windows size count xs).flatten = xs.take (count * size) := by
  induction count generalizing xs with
  | zero => simp [windows]
  | succ count ih =>
    rw [windows,List.flatten_cons,ih,Nat.succ_mul,Nat.add_comm,List.take_add]

theorem windows_exact {size count : Nat} {xs : List α} (enough : count * size ≤ xs.length) :
    ∀ w ∈ windows size count xs, w.length = size := by
  induction count generalizing xs with
  | zero => simp [windows]
  | succ count ih =>
    rw [Nat.succ_mul] at enough
    intro w member
    rcases List.mem_cons.mp member with first | later
    · subst first
      rw [List.length_take]
      omega
    · exact ih (by rw [List.length_drop]; omega) w later

theorem windows_le (size count : Nat) (xs : List α) : ∀ w ∈ windows size count xs, w.length ≤ size := by
  induction count generalizing xs with
  | zero => simp [windows]
  | succ count ih =>
    intro w member
    rcases List.mem_cons.mp member with first | later
    · subst first
      exact List.length_take_le _ _
    · exact ih _ w later

/-- Windows padded to their full size are the elements with padding after them. -/
theorem windows_padded (size count : Nat) (xs : List α) (pad : α) (enough : xs.length ≤ count * size) :
    ((windows size count xs).map (fun w => w ++ List.replicate (size - w.length) pad)).flatten =
      xs ++ List.replicate (count * size - xs.length) pad := by
  induction count generalizing xs with
  | zero =>
    obtain rfl : xs = [] := List.length_eq_zero_iff.mp (by omega)
    simp [windows]
  | succ count ih =>
    rw [Nat.succ_mul] at enough ⊢
    rw [windows,List.map_cons,List.flatten_cons,ih (xs.drop size) (by rw [List.length_drop]; omega)]
    by_cases long : size ≤ xs.length
    · have full : (xs.take size).length = size := by rw [List.length_take]; omega
      rw [full,Nat.sub_self,List.replicate_zero,List.append_nil,← List.append_assoc,List.take_append_drop,
        List.length_drop]
      congr 2
      omega
    · have all : xs.take size = xs := List.take_of_length_le (by omega)
      have none : xs.drop size = [] := List.drop_of_length_le (by omega)
      rw [all,none,List.nil_append,List.length_nil,List.append_assoc,List.replicate_append_replicate]
      congr 2
      omega

end

/-! ### Readers -/

/-- Take a value off the front of a buffer, or fail with a text. -/
abbrev Reader (α : Type) := StateT Bytes (Except String) α

section
variable {α β : Type}

/-- What a reader returns depends on the bytes it takes only. -/
def Local (read : Reader α) : Prop :=
  ∀ bs x rest, read.run bs = .ok (x,rest) →
    ∃ used, bs = used ++ rest ∧ ∀ rest', read.run (used ++ rest') = .ok (x,rest')

theorem run_bind_ok (read : Reader α) (next : α → Reader β) (bs : Bytes) (y : β) (rest : Bytes) :
    (read >>= next).run bs = .ok (y,rest) ↔
      ∃ x middle, read.run bs = .ok (x,middle) ∧ (next x).run middle = .ok (y,rest) := by
  rw [StateT.run_bind]
  cases first : read.run bs with
  | error e => simp [bind,Except.bind]
  | ok r =>
    obtain ⟨x,middle⟩ := r
    simp [bind,Except.bind]

theorem run_bind_of {read : Reader α} {bs : Bytes} {x : α} {middle : Bytes} (first : read.run bs = .ok (x,middle))
    (next : α → Reader β) : (read >>= next).run bs = (next x).run middle := by
  rw [StateT.run_bind,first]
  rfl

@[simp] theorem run_pure' (x : α) (bs : Bytes) : (pure x : Reader α).run bs = .ok (x,bs) := rfl

theorem Local.pure (x : α) : Local (pure x : Reader α) := by
  intro bs y rest ran
  simp only [run_pure',Except.ok.injEq,Prod.mk.injEq] at ran
  obtain ⟨rfl,rfl⟩ := ran
  exact ⟨[],rfl,fun _ => rfl⟩

theorem Local.bind {read : Reader α} {next : α → Reader β} (first : Local read) (rest : ∀ x, Local (next x)) :
    Local (read >>= next) := by
  intro bs y r ran
  obtain ⟨x,middle,readFirst,readRest⟩ := (run_bind_ok read next bs y r).mp ran
  obtain ⟨used,rfl,again⟩ := first bs x middle readFirst
  obtain ⟨used',rfl,again'⟩ := rest x middle y r readRest
  refine ⟨used ++ used',by simp,fun rest' => ?_⟩
  rw [List.append_assoc,run_bind_of (again (used' ++ rest'))]
  exact again' rest'

/-- The same value is read off a longer buffer. -/
theorem Local.extend {read : Reader α} (here : Local read) {bs : Bytes} {x : α} {rest : Bytes}
    (ran : read.run bs = .ok (x,rest)) (more : Bytes) : read.run (bs ++ more) = .ok (x,rest ++ more) := by
  obtain ⟨used,rfl,again⟩ := here bs x rest ran
  rw [List.append_assoc]
  exact again (rest ++ more)

/-- Buffers of which one is a prefix of the other do not give different values. -/
theorem Local.agree {read : Reader α} (here : Local read) {bs cs : Bytes} {x y : α} {rest rest' : Bytes}
    (related : bs <+: cs ∨ cs <+: bs) (left : read.run bs = .ok (x,rest)) (right : read.run cs = .ok (y,rest')) :
    x = y := by
  rcases related with ⟨more,rfl⟩ | ⟨more,rfl⟩
  · have longer := here.extend left more
    rw [longer] at right
    simp only [Except.ok.injEq,Prod.mk.injEq] at right
    exact right.1
  · have longer := here.extend right more
    rw [longer] at left
    simp only [Except.ok.injEq,Prod.mk.injEq] at left
    exact left.1.symm

/-- Read `count` values one after the other. -/
def read_many (read : Reader α) : Nat → Reader (List α)
  | 0 => pure []
  | count + 1 => do
    let x ← read
    let xs ← read_many read count
    return x :: xs

theorem read_many_length {read : Reader α} {count : Nat} {bs : Bytes} {xs : List α} {rest : Bytes}
    (ran : (read_many read count).run bs = .ok (xs,rest)) : xs.length = count := by
  induction count generalizing bs xs rest with
  | zero =>
    simp only [Wire.read_many,run_pure',Except.ok.injEq,Prod.mk.injEq] at ran
    simp [← ran.1]
  | succ count ih =>
    simp only [Wire.read_many,run_bind_ok,run_pure',Except.ok.injEq,Prod.mk.injEq] at ran
    obtain ⟨x,_,_,ys,_,more,rfl,_⟩ := ran
    simp [ih more]

/-- What was written one after the other is read back, if each value is. -/
theorem read_many_written (read : Reader α) (write : α → Bytes) (xs : List α) (back : ∀ x ∈ xs, ∀ rest, read.run (write x ++ rest) = .ok (x,rest)) (rest : Bytes) :
    (read_many read xs.length).run ((xs.map write).flatten ++ rest) = .ok (xs,rest) := by
  induction xs with
  | nil => rfl
  | cons x xs ih =>
    simp only [List.map_cons,List.flatten_cons,List.append_assoc,List.length_cons,Wire.read_many]
    rw [run_bind_of (back x (by simp) _),run_bind_of (ih (fun y member => back y (by simp [member])))]
    rfl

/-- A reader takes off only what is written. -/
def Canonical (read : Reader α) (write : α → Bytes) : Prop :=
  ∀ bs x rest, read.run bs = .ok (x,rest) → bs = write x ++ rest

theorem Canonical.read_many {read : Reader α} {write : α → Bytes} (canonical : Canonical read write) (count : Nat) :
    Canonical (read_many read count) (fun xs => (xs.map write).flatten) := by
  induction count with
  | zero =>
    intro bs xs rest ran
    simp only [Wire.read_many,run_pure',Except.ok.injEq,Prod.mk.injEq] at ran
    obtain ⟨rfl,rfl⟩ := ran
    rfl
  | succ count ih =>
    intro bs xs rest ran
    simp only [Wire.read_many,run_bind_ok,run_pure',Except.ok.injEq,Prod.mk.injEq] at ran
    obtain ⟨x,middle,first,ys,left,more,rfl,rfl⟩ := ran
    rw [canonical _ _ _ first,ih _ _ _ more]
    simp only [List.map_cons,List.flatten_cons,List.append_assoc]

end

end Rlnc.Wire
