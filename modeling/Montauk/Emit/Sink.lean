import Montauk.Json.Grammar
import Mathlib.Data.UInt

/-!
# The output sink

`montauk_sink`: one growable buffer that every report is built in before it
is drained with a single write. Growing may fail, and then the bytes that did
not fit are dropped; `mem n` answers an allocation of `n` bytes. On a sink
that does not fail an append is an append (`append_data`), whatever the
capacity it started from.
-/

namespace Montauk.Emit

open Json

/-- `data` holds the `len` bytes written so far. -/
structure Sink where
  data : List UInt8
  cap : Nat

/-- `montauk_sink_init`: empty, on the inline store. -/
def Sink.init : Sink := { data := [], cap := 512 }

namespace Sink

variable (mem : Nat → Bool)

/-- `montauk_sink_reserve`: growth by half, or to what is needed. -/
def reserve (s : Sink) (need : Nat) : Sink :=
  if s.data.length + need ≤ s.cap then s
  else
    let ncap := s.cap + s.cap / 2
    let ncap := if ncap < s.data.length + need then s.data.length + need else ncap
    if mem ncap then { s with cap := ncap } else s

/-- `montauk_sink_append`. -/
def append (s : Sink) (p : List UInt8) : Sink :=
  let s := s.reserve mem p.length
  if s.data.length + p.length ≤ s.cap then { s with data := s.data ++ p } else s

/-- `montauk_sink_appendc`. -/
def appendc (s : Sink) (c : Char) : Sink := s.append mem [UInt8.ofNat c.toNat]

/-- The table `D`: the two digits of every number below a hundred. -/
def digitPairs : List UInt8 :=
  (List.range 100).flatMap fun k => [UInt8.ofNat (48 + k / 10), UInt8.ofNat (48 + k % 10)]

/-- The loop of `montauk_sink_append_u64`, two digits a step from the right;
`p` is the part of `tmp` that is filled. -/
def u64Loop : Nat → UInt64 → List UInt8 → List UInt8
  | 0, _, p => p
  | n + 1, v, p =>
      if 100 ≤ v then
        let idx := (v % 100).toNat * 2
        u64Loop n (v / 100) (digitPairs.getD idx 0 :: digitPairs.getD (idx + 1) 0 :: p)
      else if 10 ≤ v then
        let idx := v.toNat * 2
        digitPairs.getD idx 0 :: digitPairs.getD (idx + 1) 0 :: p
      else UInt8.ofNat (48 + v.toNat) :: p

/-- `montauk_sink_append_u64`; the twenty bytes of `tmp` are ten steps. -/
def append_u64 (s : Sink) (v : UInt64) : Sink := s.append mem (u64Loop 10 v [])

/-- `montauk_sink_append_i64`. -/
def append_i64 (s : Sink) (v : Int64) : Sink :=
  if v < 0 then (s.appendc mem '-').append_u64 mem ((-(v + 1)).toUInt64 + 1)
  else s.append_u64 mem v.toUInt64

/-! ## A sink that does not fail -/

variable {mem} (hmem : ∀ n, mem n = true)
include hmem

theorem append_data (s : Sink) (p : List UInt8) : (s.append mem p).data = s.data ++ p := by
  unfold append reserve
  by_cases h : s.data.length + p.length ≤ s.cap
  · simp [h]
  · simp only [h, if_false, hmem, if_true]
    split_ifs <;> first | rfl | omega

omit hmem in
theorem utf8_ascii {c : Char} (h : c.toNat < 0x80) (s : List Char) :
    utf8 (c :: s) = UInt8.ofNat c.toNat :: utf8 s := by
  have hv : c.val.toNat ≤ 0x7f := by
    have : c.toNat = c.val.toNat := rfl
    omega
  rw [utf8_cons]
  unfold String.utf8EncodeChar
  simp only [hv, if_true]
  rfl

theorem appendc_data (s : Sink) {c : Char} (h : c.toNat < 0x80) :
    (s.appendc mem c).data = s.data ++ utf8 [c] := by
  unfold appendc
  rw [append_data hmem, utf8_ascii h]
  rfl

omit hmem in
theorem digitPairs_get (k : Nat) (h : k < 100) :
    digitPairs.getD (k * 2) 0 = UInt8.ofNat (Nat.digitChar (k / 10)).toNat
      ∧ digitPairs.getD (k * 2 + 1) 0 = UInt8.ofNat (Nat.digitChar (k % 10)).toNat := by
  have : ∀ k < 100, digitPairs.getD (k * 2) 0 = UInt8.ofNat (Nat.digitChar (k / 10)).toNat
      ∧ digitPairs.getD (k * 2 + 1) 0 = UInt8.ofNat (Nat.digitChar (k % 10)).toNat := by
    decide +kernel
  exact this k h

omit hmem in
theorem digitChar_ascii {k : Nat} (h : k < 10) : (Nat.digitChar k).toNat < 0x80 := by
  have : ∀ k < 10, (Nat.digitChar k).toNat < 0x80 := by decide
  exact this k h

omit hmem in
theorem utf8_toDigits_pair {v : Nat} (h : 10 ≤ v) (hv : v < 100) :
    utf8 (Nat.toDigits 10 v) = [digitPairs.getD (v * 2) 0, digitPairs.getD (v * 2 + 1) 0] := by
  obtain ⟨h0, h1⟩ := digitPairs_get v hv
  rw [Nat.toDigits_of_base_le (by decide) h, Nat.toDigits_of_lt_base (by omega), utf8_append,
    utf8_ascii (digitChar_ascii (by omega)), utf8_ascii (digitChar_ascii (by omega)), h0, h1]
  rfl

omit hmem in
theorem utf8_toDigits_step {v : Nat} (h : 100 ≤ v) :
    utf8 (Nat.toDigits 10 v) = utf8 (Nat.toDigits 10 (v / 100))
      ++ [digitPairs.getD (v % 100 * 2) 0, digitPairs.getD (v % 100 * 2 + 1) 0] := by
  obtain ⟨h0, h1⟩ := digitPairs_get (v % 100) (by omega)
  have hd : v / 10 / 10 = v / 100 := by omega
  have hm : v / 10 % 10 = v % 100 / 10 := by omega
  have hm' : v % 10 = v % 100 % 10 := by omega
  rw [Nat.toDigits_of_base_le (b := 10) (n := v) (by decide) (by omega),
    Nat.toDigits_of_base_le (b := 10) (n := v / 10) (by decide) (by omega), hd, hm, hm',
    utf8_append, utf8_append, utf8_ascii (digitChar_ascii (by omega)),
    utf8_ascii (digitChar_ascii (by omega)), h0, h1, List.append_assoc]
  rfl

omit hmem in
theorem u64Loop_eq (n : Nat) (v : UInt64) (p : List UInt8) (h : v.toNat < 100 ^ (n + 1)) :
    u64Loop (n + 1) v p = utf8 (Nat.toDigits 10 v.toNat) ++ p := by
  induction n generalizing v p with
  | zero =>
    have hlt : ¬ (100 : UInt64) ≤ v := by
      rw [UInt64.le_iff_toNat_le]
      have : (100 : UInt64).toNat = 100 := rfl
      omega
    have hge : (10 : UInt64) ≤ v ↔ 10 ≤ v.toNat := UInt64.le_iff_toNat_le
    simp only [u64Loop, hlt, if_false, hge]
    split
    · rename_i h10
      rw [utf8_toDigits_pair h10 (by omega)]
      rfl
    · rename_i h10
      have hd : (Nat.digitChar v.toNat).toNat = 48 + v.toNat := by
        have : ∀ k < 10, (Nat.digitChar k).toNat = 48 + k := by decide
        exact this _ (by omega)
      rw [Nat.toDigits_of_lt_base (by omega), utf8_ascii (by omega), hd]
      rfl
  | succ n ih =>
    have hge : (100 : UInt64) ≤ v ↔ 100 ≤ v.toNat := UInt64.le_iff_toNat_le
    by_cases h100 : 100 ≤ v.toNat
    · have hdiv : (v / 100).toNat = v.toNat / 100 := UInt64.toNat_div v 100
      have hmod : (v % 100).toNat = v.toNat % 100 := UInt64.toNat_mod v 100
      rw [u64Loop, if_pos (hge.mpr h100), ih (v / 100) _ (by rw [hdiv]; rw [Nat.pow_succ] at h; omega),
        hdiv, hmod, utf8_toDigits_step h100, List.append_assoc]
      rfl
    · have hsame := ih v p (by
        have : 100 ^ 1 ≤ 100 ^ (n + 1) := Nat.pow_le_pow_right (by decide) (by omega)
        omega)
      rw [← hsame]
      simp only [u64Loop, hge, h100, if_false]

theorem append_u64_data (s : Sink) (v : UInt64) :
    (s.append_u64 mem v).data = s.data ++ utf8 (intText v.toNat) := by
  have hlt : v.toNat < 100 ^ (9 + 1) := by
    have := v.toNat_lt
    omega
  have hi : intText v.toNat = Nat.toDigits 10 v.toNat := by
    unfold intText
    rw [if_neg (by omega)]
    rfl
  unfold append_u64
  rw [append_data hmem, u64Loop_eq 9 v [] hlt, List.append_nil, hi]

omit hmem in
/-- `(uint64_t)(-(v + 1)) + 1u` does not overflow, for the least number
either. -/
theorem natAbs_of_neg {v : Int64} (h : v < 0) :
    ((-(v + 1)).toUInt64 + 1).toNat = v.toInt.natAbs := by
  have hbv : ((-(v + 1)).toUInt64 + 1).toBitVec = -v.toBitVec := by
    show -(v.toBitVec + 1#64) + 1#64 = -v.toBitVec
    bv_omega
  have hneg : v.toBitVec.toInt < 0 := by simpa using Int64.lt_iff_toInt_lt.mp h
  have hlt := v.toBitVec.isLt
  show ((-(v + 1)).toUInt64 + 1).toBitVec.toNat = v.toBitVec.toInt.natAbs
  rw [hbv, BitVec.toNat_neg]
  rw [BitVec.toInt_eq_toNat_cond] at hneg ⊢
  split_ifs at hneg ⊢ <;> omega

omit hmem in
theorem toNat_of_nonneg {v : Int64} (h : ¬ v < 0) : v.toInt = v.toUInt64.toNat := by
  have hpos : ¬ v.toBitVec.toInt < 0 := fun h' => h (Int64.lt_iff_toInt_lt.mpr (by simpa using h'))
  have hlt := v.toBitVec.isLt
  show v.toBitVec.toInt = v.toBitVec.toNat
  rw [BitVec.toInt_eq_toNat_cond] at hpos ⊢
  split_ifs at hpos ⊢ <;> omega

theorem append_i64_data (s : Sink) (v : Int64) :
    (s.append_i64 mem v).data = s.data ++ utf8 (intText v.toInt) := by
  unfold append_i64
  split
  · rename_i hneg
    have hi : v.toInt < 0 := by simpa using Int64.lt_iff_toInt_lt.mp hneg
    have ht : intText v.toInt = '-' :: intText (v.toInt.natAbs : Nat) := by
      unfold intText
      rw [if_pos hi, if_neg (by omega), Int.natAbs_natCast]
    rw [append_u64_data hmem, appendc_data hmem _ (by decide), natAbs_of_neg hneg, ht,
      List.append_assoc, ← utf8_append]
    rfl
  · rename_i hpos
    rw [append_u64_data hmem, toNat_of_nonneg hpos]

end Sink

end Montauk.Emit
