import Mathlib.Data.List.Basic
import Mathlib.Data.List.Induction
import Mathlib.Data.List.TakeWhile

/-!
# Decimal numbers

The number a text begins with is the value of the digits in front (`leading`),
behind a minus the negative of it (`leadingInt`). The text of a number has no
zero in front that could be left out (`ofNat`, `ofInt`), and reading it gives
the number back, whatever comes behind it that is no digit. It is the only text
of the number that is so (`canonical_iff`).
-/

namespace Montauk.Numerals

/-! ## Reading -/

def isDigit (c : UInt8) : Bool := 0x30 ≤ c && c ≤ 0x39

def minus : UInt8 := 0x2d

def number (ds : List UInt8) : Nat := ds.foldl (fun n c => 10 * n + (c.toNat - 0x30)) 0

def leading (t : List UInt8) : Option Nat :=
  let ds := t.takeWhile isDigit
  if ds = [] then none else some (number ds)

/-- The number in front of a text, which may be negative. -/
def leadingInt (t : List UInt8) : Option Int :=
  if t.head? = some minus then (leading t.tail).map fun n : Nat => -(n : Int) else (leading t).map Int.ofNat

/-! ## Writing -/

def ofNat (n : Nat) : List UInt8 := (Nat.toDigits 10 n).map fun c => UInt8.ofNat c.toNat

def ofInt (n : Int) : List UInt8 := if n < 0 then minus :: ofNat n.natAbs else ofNat n.natAbs

def zero : UInt8 := 0x30

/-- A row of digits with no zero in front, unless it is all there is. -/
structure Digits (ds : List UInt8) : Prop where
  nonempty : ds ≠ []
  digits : ∀ c ∈ ds, isDigit c = true
  noZero : ds.head? = some zero → ds = [zero]

/-- The canonical text of an integer: a minus only in front of a negative one,
then the digits of its size. -/
def Canonical (i : Int) (t : List UInt8) : Prop :=
  ∃ ds, t = (if i < 0 then [minus] else []) ++ ds ∧ Digits ds ∧ number ds = i.natAbs

section

variable {n : Nat} {i : Int} {t : List UInt8}

theorem ofNat_ne_nil (n : Nat) : ofNat n ≠ [] :=
  fun h => Nat.toDigits_ne_nil (List.map_eq_nil_iff.mp h)

theorem toNat_digit {c : Char} (h : c.isDigit = true) :
    (UInt8.ofNat c.toNat).toNat = c.toNat ∧ 0x30 ≤ c.toNat ∧ c.toNat ≤ 0x39 := by
  simp only [Char.isDigit, Bool.and_eq_true, decide_eq_true_eq] at h
  have hlo : 0x30 ≤ c.toNat := UInt32.le_iff_toNat_le.mp h.1
  have hhi : c.toNat ≤ 0x39 := UInt32.le_iff_toNat_le.mp h.2
  exact ⟨Nat.mod_eq_of_lt (by omega), hlo, hhi⟩

theorem isDigit_ofNat (n : Nat) : ∀ c ∈ ofNat n, isDigit c = true := by
  intro c hc
  obtain ⟨d, hd, rfl⟩ := List.mem_map.mp hc
  obtain ⟨hval, hlo, hhi⟩ := toNat_digit (Nat.isDigit_of_mem_toDigits (by decide) (by decide) hd)
  simp only [isDigit, Bool.and_eq_true, decide_eq_true_eq, UInt8.le_iff_toNat_le, hval]
  exact ⟨hlo, hhi⟩

theorem number_ofNat (n : Nat) : number (ofNat n) = n := by
  have hmap : ∀ cs : List Char, (∀ c ∈ cs, c.isDigit = true) → ∀ k : Nat,
      (cs.map fun c => UInt8.ofNat c.toNat).foldl (fun n c => 10 * n + (c.toNat - 0x30)) k = Nat.ofDigitChars 10 cs k := by
    intro cs
    induction cs with
    | nil => exact fun _ k => Nat.ofDigitChars_nil.symm
    | cons c cs ih =>
        intro h k
        obtain ⟨hc, hcs⟩ := List.forall_mem_cons.mp h
        rw [List.map_cons, List.foldl_cons, ih hcs, (toNat_digit hc).1, Nat.ofDigitChars_cons]
        rfl
  have hdigits : ∀ c ∈ Nat.toDigits 10 n, c.isDigit = true := fun c hc =>
    Nat.isDigit_of_mem_toDigits (by decide) (by decide) hc
  exact (hmap _ hdigits 0).trans Nat.ofDigitChars_ten_toDigits

theorem takeWhile_ofNat (n : Nat) (ht : ∀ c ∈ t.head?, isDigit c = false) :
    (ofNat n ++ t).takeWhile isDigit = ofNat n := by
  have hstop : t.takeWhile isDigit = [] := by
    cases t with
    | nil => rfl
    | cons c t => exact List.takeWhile_cons_of_neg (by simp [ht c rfl])
  rw [List.takeWhile_append_of_pos (isDigit_ofNat n), hstop, List.append_nil]

theorem leading_ofNat (n : Nat) (ht : ∀ c ∈ t.head?, isDigit c = false) : leading (ofNat n ++ t) = some n := by
  rw [leading, takeWhile_ofNat n ht, if_neg (ofNat_ne_nil n), number_ofNat]

theorem leadingInt_ofInt (i : Int) (ht : ∀ c ∈ t.head?, isDigit c = false) : leadingInt (ofInt i ++ t) = some i := by
  rw [leadingInt, ofInt]
  by_cases hneg : i < 0
  · rw [if_pos hneg, List.cons_append, List.head?_cons, if_pos rfl, List.tail_cons, leading_ofNat _ ht, Option.map_some]
    exact congrArg some (by omega)
  · obtain ⟨c, cs, hcs⟩ := List.exists_cons_of_ne_nil (ofNat_ne_nil i.natAbs)
    have hdigit : isDigit c = true := isDigit_ofNat i.natAbs c (hcs ▸ List.mem_cons_self)
    have hc : (ofNat i.natAbs ++ t).head? ≠ some minus := by
      rw [hcs, List.cons_append, List.head?_cons]
      intro h
      rw [Option.some.inj h] at hdigit
      exact Bool.noConfusion hdigit
    rw [if_neg hneg, if_neg hc, leading_ofNat _ ht, Option.map_some]
    exact congrArg some (Int.natAbs_of_nonneg (Int.not_lt.mp hneg))

theorem leading_ofNat_self (n : Nat) : leading (ofNat n) = some n := by
  simpa using leading_ofNat (t := []) n (by simp)

theorem leadingInt_ofInt_self (i : Int) : leadingInt (ofInt i) = some i := by
  simpa using leadingInt_ofInt (t := []) i (by simp)

/-! ## The only text -/

theorem ofNat_digit {k : Nat} (h : k < 10) : ofNat k = [UInt8.ofNat (0x30 + k)] := by
  have hchar : ∀ k < 10, (Nat.digitChar k).toNat = 0x30 + k := by decide
  rw [ofNat, Nat.toDigits_of_lt_base h, List.map_singleton, hchar k h]

theorem ofNat_append {k : Nat} (hn : 0 < n) (h : k < 10) : ofNat (10 * n + k) = ofNat n ++ ofNat k := by
  rw [ofNat, ← Nat.toDigits_append_toDigits (by decide) hn h, List.map_append]
  rfl

theorem ofNat_of_ten_le (h : 10 ≤ n) : ofNat n = ofNat (n / 10) ++ ofNat (n % 10) := by
  rw [← ofNat_append (Nat.div_pos h (by decide)) (Nat.mod_lt n (by decide)), Nat.div_add_mod]

theorem digits_ofNat (n : Nat) : Digits (ofNat n) := by
  refine ⟨ofNat_ne_nil n, isDigit_ofNat n, ?_⟩
  induction n using Nat.strongRecOn with
  | ind n ih =>
      intro hhead
      by_cases hn : n < 10
      · rw [ofNat_digit hn] at hhead ⊢
        exact congrArg (fun c => [c]) (Option.some.inj hhead)
      · -- the first digit is the first one of a tenth, which is not zero
        have hlt : n / 10 < n := Nat.div_lt_self (by omega) (by decide)
        rw [ofNat_of_ten_le (Nat.not_lt.mp hn), List.head?_append_of_ne_nil _ (ofNat_ne_nil _)] at hhead
        have hzero : number (ofNat (n / 10)) = number [zero] := congrArg number (ih _ hlt hhead)
        rw [number_ofNat] at hzero
        have : number [zero] = 0 := rfl
        omega

theorem number_append (ds : List UInt8) (c : UInt8) : number (ds ++ [c]) = 10 * number ds + (c.toNat - 0x30) := by
  rw [number, List.foldl_append]
  rfl

theorem ofNat_isDigit {c : UInt8} (hc : isDigit c = true) : c.toNat - 0x30 < 10 ∧ ofNat (c.toNat - 0x30) = [c] := by
  simp only [isDigit, Bool.and_eq_true, decide_eq_true_eq, UInt8.le_iff_toNat_le] at hc
  have hlo : 0x30 ≤ c.toNat := hc.1
  have hhi : c.toNat ≤ 0x39 := hc.2
  have hlt : c.toNat - 0x30 < 10 := by omega
  have hback : 0x30 + (c.toNat - 0x30) = c.toNat := by omega
  refine ⟨hlt, ?_⟩
  rw [ofNat_digit hlt, hback, UInt8.ofNat_toNat]

theorem ofNat_number {ds : List UInt8} (h : Digits ds) : ofNat (number ds) = ds := by
  induction ds using List.reverseRecOn with
  | nil => exact absurd rfl h.nonempty
  | append_singleton ds c ih =>
      obtain ⟨hlt, hc⟩ := ofNat_isDigit (h.digits c (by simp))
      rw [number_append]
      by_cases hds : ds = []
      · rw [hds]
        show ofNat (10 * 0 + (c.toNat - 0x30)) = [c]
        rw [Nat.mul_zero, Nat.zero_add, hc]
      · have hhead : ds.head? ≠ some zero := by
          intro hz
          have hall : ds ++ [c] = [zero] := h.noZero (by rw [List.head?_append_of_ne_nil _ hds, hz])
          have hlen : (ds ++ [c]).length = 1 := congrArg List.length hall
          rw [List.length_append, List.length_singleton] at hlen
          exact hds (List.eq_nil_of_length_eq_zero (by omega))
        have hfront : ofNat (number ds) = ds :=
          ih ⟨hds, fun d hd => h.digits d (List.mem_append_left _ hd), fun hz => absurd hz hhead⟩
        have hpos : 0 < number ds := by
          refine Nat.pos_of_ne_zero fun hzero => hhead ?_
          rw [← hfront, hzero]
          rfl
        rw [ofNat_append hpos hlt, hfront, hc]

theorem canonical_iff : Canonical i t ↔ t = ofInt i := by
  have hsign : ofInt i = (if i < 0 then [minus] else []) ++ ofNat i.natAbs := by
    rw [ofInt]
    split_ifs <;> rfl
  rw [hsign]
  constructor
  · rintro ⟨ds, rfl, hds, hnumber⟩
    rw [← hnumber, ofNat_number hds]
  · rintro rfl
    exact ⟨_, rfl, digits_ofNat _, number_ofNat _⟩

end

end Montauk.Numerals
