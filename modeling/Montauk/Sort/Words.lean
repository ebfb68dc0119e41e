import Mathlib.Algebra.Order.Ring.Int
import Montauk.Sort.Buckets

/-!
# Machine words and their bytes

The integer types the sort's templates are included for. `SubInt` is what the
template bodies use of a type: the value its comparisons compare, and the
unsigned key whose order is that of the values (`SUB_ORDER_KEY`), with the
index of its highest byte (`SUB_TOPBYTE`). Signed types flip their sign bit.

A radix sort looks at one byte of the key at a time; `StableSort.byte` puts
the passes together.
-/

namespace Montauk.Sort

/-! ## Bytes -/

/-- Byte `p` of a number: `(k >> 8 * p) & 0xff`. -/
def byteOf (k p : Nat) : Nat := (k >>> (8 * p)) &&& 0xff

theorem byteOf_eq (k p : Nat) : byteOf k p = k / 256 ^ p % 256 := by
  have hff : 0xff = 2 ^ 8 - 1 := rfl
  rw [byteOf, hff, Nat.and_two_pow_sub_one_eq_mod, Nat.shiftRight_eq_div_pow, Nat.pow_mul]

theorem byteOf_lt (k p : Nat) : byteOf k p < 256 := by
  rw [byteOf_eq]
  exact Nat.mod_lt _ (by decide)

/-- `(w >> 8 * p) & 0xff` of a 64-bit word. -/
def byte64 (w : UInt64) (p : Nat) : Nat := ((w >>> UInt64.ofNat (8 * p)) &&& 0xff).toNat

theorem byte64_eq (w : UInt64) {p : Nat} (hp : p < 8) : byte64 w p = byteOf w.toNat p := by
  have hshift : (UInt64.ofNat (8 * p)).toNat = 8 * p := by
    rw [UInt64.toNat_ofNat', Nat.mod_eq_of_lt (by omega)]
  rw [byte64, UInt64.toNat_and, UInt64.toNat_shiftRight, hshift,
    Nat.mod_eq_of_lt (by omega : 8 * p < 64)]
  rfl

/-- `(w >> 8 * p) & 0xff` of a 32-bit word. -/
def byte32 (w : UInt32) (p : Nat) : Nat := ((w >>> UInt32.ofNat (8 * p)) &&& 0xff).toNat

theorem byte32_eq (w : UInt32) {p : Nat} (hp : p < 4) : byte32 w p = byteOf w.toNat p := by
  have hshift : (UInt32.ofNat (8 * p)).toNat = 8 * p := by
    rw [UInt32.toNat_ofNat', Nat.mod_eq_of_lt (by omega)]
  rw [byte32, UInt32.toNat_and, UInt32.toNat_shiftRight, hshift,
    Nat.mod_eq_of_lt (by omega : 8 * p < 32)]
  rfl

theorem byte64_lt (w : UInt64) (p : Nat) : byte64 w p < 256 := by
  rw [byte64, UInt64.toNat_and]
  exact Nat.lt_of_le_of_lt Nat.and_le_right (by decide)

theorem byte32_lt (w : UInt32) (p : Nat) : byte32 w p < 256 := by
  rw [byte32, UInt32.toNat_and]
  exact Nat.lt_of_le_of_lt Nat.and_le_right (by decide)

/-- The order by the low `p + 1` bytes: byte `p` first, then the bytes below. -/
theorem mod_byte_le_iff (j k p : Nat) :
    j % 256 ^ (p + 1) ≤ k % 256 ^ (p + 1)
      ↔ byteOf j p < byteOf k p ∨ byteOf j p = byteOf k p ∧ j % 256 ^ p ≤ k % 256 ^ p := by
  have hpos : 0 < 256 ^ p := Nat.pow_pos (by decide)
  have hj := Nat.mod_lt j hpos
  have hk := Nat.mod_lt k hpos
  rw [Nat.mod_pow_succ, Nat.mod_pow_succ, ← byteOf_eq, ← byteOf_eq]
  generalize j % 256 ^ p = a at *
  generalize k % 256 ^ p = b at *
  generalize 256 ^ p = m at *
  rcases Nat.lt_trichotomy (byteOf j p) (byteOf k p) with hlt | heq | hgt
  · have hstep : m * (byteOf j p + 1) ≤ m * byteOf k p := Nat.mul_le_mul_left m hlt
    rw [Nat.mul_add, Nat.mul_one] at hstep
    exact iff_of_true (by omega) (Or.inl hlt)
  · rw [heq]
    simp
  · have hstep : m * (byteOf k p + 1) ≤ m * byteOf j p := Nat.mul_le_mul_left m hgt
    rw [Nat.mul_add, Nat.mul_one] at hstep
    exact iff_of_false (by omega) (by omega)

section
variable {α : Type*} {key : α → Nat} {a b c : List α} {p : Nat}

theorem StableSort.byte (h : StableSort (fun x => key x % 256 ^ p) a b)
    (h' : StableSort (fun x => byteOf (key x) p) b c) :
    StableSort (fun x => key x % 256 ^ (p + 1)) a c :=
  h.lex h' fun x y => mod_byte_le_iff (key x) (key y) p

theorem StableSort.no_bytes (a : List α) : StableSort (fun x => key x % 256 ^ 0) a a :=
  .refl (List.pairwise_of_forall fun x y => by simp only [Nat.pow_zero, Nat.mod_one]; exact le_rfl)

end

theorem StableSort.of_le_iff {α κ κ' : Type*} [LinearOrder κ] [LinearOrder κ'] {key : α → κ}
    {key' : α → κ'} {a b : List α} (hkey : ∀ x y, key' x ≤ key' y ↔ key x ≤ key y)
    (h : StableSort key a b) : StableSort key' a b := by
  refine ⟨h.sorted.imp fun hxy => (hkey _ _).mpr hxy, fun k => ?_⟩
  by_cases hk : ∃ z, key' z = k
  · obtain ⟨z, rfl⟩ := hk
    have hsame : ∀ xs : List α, ofKey key' (key' z) xs = ofKey key (key z) xs := by
      intro xs
      refine List.filter_congr fun x _ => decide_eq_decide.mpr ?_
      rw [le_antisymm_iff, hkey, hkey, ← le_antisymm_iff]
    rw [hsame, hsame, h.stable]
  · rw [ofKey_eq_nil fun x _ hx => hk ⟨x, hx⟩, ofKey_eq_nil fun x _ hx => hk ⟨x, hx⟩]

/-! ## The integer types -/

/-- Flipping the highest bit moves the upper half below the lower one. -/
theorem xor_signBit {k a : Nat} (h : a < 2 ^ (k + 1)) :
    a ^^^ 2 ^ k = if a < 2 ^ k then a + 2 ^ k else a - 2 ^ k := by
  have hmod : (a ^^^ 2 ^ k) % 2 ^ k = a % 2 ^ k := by
    rw [Nat.xor_mod_two_pow, Nat.mod_self, Nat.xor_zero]
  have hdiv : (a ^^^ 2 ^ k) / 2 ^ k = a / 2 ^ k ^^^ 1 := by
    rw [Nat.xor_div_two_pow, Nat.div_self (Nat.two_pow_pos k)]
  have hsum := Nat.div_add_mod (a ^^^ 2 ^ k) (2 ^ k)
  rw [hmod, hdiv] at hsum
  rw [← hsum]
  split
  · rename_i hlt
    rw [Nat.div_eq_of_lt hlt, Nat.mod_eq_of_lt hlt, Nat.zero_xor, Nat.mul_one, Nat.add_comm]
  · rename_i hge
    have hone : a / 2 ^ k = 1 := by
      rw [Nat.pow_succ] at h
      exact Nat.div_eq_of_lt_le (by omega) (by omega)
    have hsplit := Nat.div_add_mod a (2 ^ k)
    rw [hone] at hsplit
    rw [hone, Nat.xor_self, Nat.mul_zero, Nat.zero_add]
    omega

/-- `SUB_TYPE`, for the integer types: the value that is compared, and the
unsigned key that orders alike. -/
class SubInt (α : Type) where
  value : α → Int
  value_injective : Function.Injective value
  /-- `SUB_ORDER_KEY` -/
  orderKey : α → Nat
  /-- `SUB_TOPBYTE` -/
  topByte : Nat
  orderKey_lt : ∀ x, orderKey x < 256 ^ (topByte + 1)
  orderKey_le_iff : ∀ x y, orderKey x ≤ orderKey y ↔ value x ≤ value y

def sign64 : UInt64 := 0x8000000000000000

def sign32 : UInt32 := 0x80000000

/-- `(uint64_t)v ^ SIGN64`. -/
def key64 (v : Int64) : UInt64 := v.toUInt64 ^^^ sign64

/-- `(uint32_t)v ^ SIGN32`. -/
def key32 (v : Int32) : UInt32 := v.toUInt32 ^^^ sign32

/-- `(int64_t)(k ^ SIGN64)`. -/
def unkey64 (k : UInt64) : Int64 := (k ^^^ sign64).toInt64

/-- `(int32_t)(k ^ SIGN32)`. -/
def unkey32 (k : UInt32) : Int32 := (k ^^^ sign32).toInt32

theorem unkey64_key64 (v : Int64) : unkey64 (key64 v) = v := by
  rw [unkey64, key64, UInt64.xor_assoc, UInt64.xor_self, UInt64.xor_zero]
  rfl

theorem key64_unkey64 (k : UInt64) : key64 (unkey64 k) = k := by
  show (k ^^^ sign64) ^^^ sign64 = k
  rw [UInt64.xor_assoc, UInt64.xor_self, UInt64.xor_zero]

theorem unkey32_key32 (v : Int32) : unkey32 (key32 v) = v := by
  rw [unkey32, key32, UInt32.xor_assoc, UInt32.xor_self, UInt32.xor_zero]
  rfl

theorem key32_unkey32 (k : UInt32) : key32 (unkey32 k) = k := by
  show (k ^^^ sign32) ^^^ sign32 = k
  rw [UInt32.xor_assoc, UInt32.xor_self, UInt32.xor_zero]

theorem key64_toNat (v : Int64) : ((key64 v).toNat : Int) = v.toInt + 2 ^ 63 := by
  have hv := v.toUInt64.toNat_lt
  have hint : v.toInt = v.toUInt64.toBitVec.toInt := rfl
  have hsign : sign64.toNat = 2 ^ 63 := rfl
  have hnat : v.toUInt64.toBitVec.toNat = v.toUInt64.toNat := rfl
  rw [hint, BitVec.toInt_eq_toNat_cond, key64, UInt64.toNat_xor, hsign, xor_signBit hv, hnat]
  split <;> split <;> omega

theorem key32_toNat (v : Int32) : ((key32 v).toNat : Int) = v.toInt + 2 ^ 31 := by
  have hv := v.toUInt32.toNat_lt
  have hint : v.toInt = v.toUInt32.toBitVec.toInt := rfl
  have hsign : sign32.toNat = 2 ^ 31 := rfl
  have hnat : v.toUInt32.toBitVec.toNat = v.toUInt32.toNat := rfl
  rw [hint, BitVec.toInt_eq_toNat_cond, key32, UInt32.toNat_xor, hsign, xor_signBit hv, hnat]
  split <;> split <;> omega

instance : SubInt Int32 where
  value := Int32.toInt
  value_injective _ _ h := Int32.toInt_inj.mp h
  orderKey v := (key32 v).toNat
  topByte := 3
  orderKey_lt v := (key32 v).toNat_lt
  orderKey_le_iff x y := by
    have hx := key32_toNat x
    have hy := key32_toNat y
    omega

instance : SubInt Int64 where
  value := Int64.toInt
  value_injective _ _ h := Int64.toInt_inj.mp h
  orderKey v := (key64 v).toNat
  topByte := 7
  orderKey_lt v := (key64 v).toNat_lt
  orderKey_le_iff x y := by
    have hx := key64_toNat x
    have hy := key64_toNat y
    omega

instance : SubInt UInt32 where
  value v := v.toNat
  value_injective _ _ h := UInt32.toNat_inj.mp (Int.ofNat.inj h)
  orderKey v := v.toNat
  topByte := 3
  orderKey_lt v := v.toNat_lt
  orderKey_le_iff _ _ := Int.ofNat_le.symm

instance : SubInt UInt64 where
  value v := v.toNat
  value_injective _ _ h := UInt64.toNat_inj.mp (Int.ofNat.inj h)
  orderKey v := v.toNat
  topByte := 7
  orderKey_lt v := v.toNat_lt
  orderKey_le_iff _ _ := Int.ofNat_le.symm

/-- Sorted permutations are stable sorts when equal keys are equal elements. -/
theorem SubInt.stableSort {α : Type} [SubInt α] {a b : List α} (h : b.Perm a)
    (h' : Ascending SubInt.value b) : StableSort SubInt.value a b := by
  refine ⟨h', fun k => ?_⟩
  have hperm : (ofKey SubInt.value k b).Perm (ofKey SubInt.value k a) := h.filter _
  have hall : ∀ x ∈ ofKey SubInt.value k b, ∀ y ∈ ofKey SubInt.value k a, x = y := by
    intro x hx y hy
    refine SubInt.value_injective ?_
    rw [of_decide_eq_true (List.mem_filter.mp hx).2, of_decide_eq_true (List.mem_filter.mp hy).2]
  have htrue : ∀ xs : List α, xs.Pairwise fun _ _ => True :=
    fun xs => List.pairwise_of_forall fun _ _ => trivial
  exact hperm.eq_of_pairwise (fun x y hx hy _ _ => hall x hx y hy) (htrue _) (htrue _)

end Montauk.Sort
