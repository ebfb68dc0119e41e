import Montauk.Sort.Insertion
import Montauk.Sort.Words

/-!
# Two words in one

A sort of single words sorts pairs of half the width: the first component in the
high half, the second below it. The order of such words is the
lexicographic order of the pairs (`pairWord_le_iff`), both halves are read off
again, and a stable sort of the images of elements is the image of a stable sort
of the elements (`StableSort.lift`).
-/

namespace Montauk.Sort

/-- `((uint64_t)hi << 32) | lo` -/
def pairWord (hi lo : UInt32) : UInt64 := hi.toUInt64 <<< 32 ||| lo.toUInt64

/-- `(uint32_t)(w & 0xFFFFFFFFu)` -/
def lowWord (w : UInt64) : UInt32 := (w &&& 0xFFFFFFFF).toUInt32

/-- `(uint32_t)(w >> 32)` -/
def highWord (w : UInt64) : UInt32 := (w >>> 32).toUInt32

theorem shiftOr_toNat {high low : UInt64} (hhigh : high.toNat < 2 ^ 32) (hlow : low.toNat < 2 ^ 32) :
    (high <<< 32 ||| low).toNat = high.toNat * 2 ^ 32 + low.toNat := by
  have hshift : (high <<< 32).toNat = high.toNat <<< 32 := by
    rw [UInt64.toNat_shiftLeft]
    show high.toNat <<< 32 % 2 ^ 64 = high.toNat <<< 32
    rw [Nat.shiftLeft_eq, Nat.mod_eq_of_lt (by omega)]
  rw [UInt64.toNat_or, hshift, ← Nat.shiftLeft_add_eq_or_of_lt hlow, Nat.shiftLeft_eq]

theorem lowHalf_toNat (w : UInt64) : (w &&& 0xFFFFFFFF).toNat = w.toNat % 2 ^ 32 := by
  have hmask : (0xFFFFFFFF : UInt64).toNat = 2 ^ 32 - 1 := rfl
  rw [UInt64.toNat_and, hmask, Nat.and_two_pow_sub_one_eq_mod]

variable {hi lo hi' lo' : UInt32}

theorem pairWord_toNat : (pairWord hi lo).toNat = hi.toNat * 2 ^ 32 + lo.toNat :=
  shiftOr_toNat hi.toNat_lt lo.toNat_lt

@[simp] theorem lowWord_pairWord : lowWord (pairWord hi lo) = lo := by
  have hlo := lo.toNat_lt
  rw [← UInt32.toNat_inj, lowWord, UInt64.toNat_toUInt32, lowHalf_toNat, pairWord_toNat]
  omega

@[simp] theorem highWord_pairWord : highWord (pairWord hi lo) = hi := by
  have hhi := hi.toNat_lt
  have hlo := lo.toNat_lt
  have hshift : (32 : UInt64).toNat % 64 = 32 := rfl
  rw [← UInt32.toNat_inj, highWord, UInt64.toNat_toUInt32, UInt64.toNat_shiftRight, pairWord_toNat, hshift,
    Nat.shiftRight_eq_div_pow]
  omega

theorem pairWord_le_iff : (pairWord hi lo).toNat ≤ (pairWord hi' lo').toNat
    ↔ hi.toNat < hi'.toNat ∨ hi.toNat = hi'.toNat ∧ lo.toNat ≤ lo'.toNat := by
  have hlo := lo.toNat_lt
  have hlo' := lo'.toNat_lt
  rw [pairWord_toNat, pairWord_toNat]
  omega

theorem StableSort.lift {α β κ : Type} [LinearOrder κ] {g : α → β} {key : β → κ} {a : List α} {out : List β}
    (h : StableSort key (a.map g) out) : ∃ b, out = b.map g ∧ StableSort (fun x => key (g x)) a b := by
  obtain ⟨b, -, hb⟩ := insertionSort_stable (fun x => key (g x)) a
  exact ⟨b, h.unique (hb.map fun _ _ => rfl), hb⟩

end Montauk.Sort
