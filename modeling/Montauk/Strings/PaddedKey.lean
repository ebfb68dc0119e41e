import Montauk.Strings.MsdRadix

/-!
# The prefix key of a string

`sub_pack_prefix4` of `strings_internal.h` puts the first four bytes of a string
into a word, with zeros behind its end. So a string that ends and one that goes
on with NUL bytes may have the same key. Keys that differ are in the order of
the strings (`order_lt_of_key_lt`); where they are the same the order is that of
the bytes from the fourth on, and then that of the lengths
(`order_le_iff_of_key_eq`).
-/

namespace Montauk.Strings

/-! ## The key -/

/-- What `__builtin_memcpy(&v, s, 4)` leaves in `v`, low byte first. -/
def loadWord (a b c d : UInt8) : UInt32 :=
  d.toUInt32 <<< 24 ||| c.toUInt32 <<< 16 ||| b.toUInt32 <<< 8 ||| a.toUInt32

/-- `__builtin_bswap32` -/
def bswap32 (v : UInt32) : UInt32 := loadWord (v >>> 24).toUInt8 (v >>> 16).toUInt8 (v >>> 8).toUInt8 v.toUInt8

def subPackPrefix4 : List UInt8 → UInt32
  | [] => 0
  | [a] => a.toUInt32 <<< 24
  | [a, b] => a.toUInt32 <<< 24 ||| b.toUInt32 <<< 16
  | [a, b, c] => a.toUInt32 <<< 24 ||| b.toUInt32 <<< 16 ||| c.toUInt32 <<< 8
  | a :: b :: c :: d :: _ => bswap32 (loadWord a b c d)

/-- The first `n` bytes as numbers, with zeros behind the end. -/
def padded : Nat → List UInt8 → List Nat
  | 0, _ => []
  | n + 1, [] => 0 :: padded n []
  | n + 1, c :: s => c.toNat :: padded n s

theorem shiftByte_toNat (c : UInt8) {k : Nat} (hk : k ≤ 24) :
    (c.toUInt32 <<< UInt32.ofNat k).toNat = 2 ^ k * c.toNat := by
  have hc := c.toNat_lt
  have hmod : (UInt32.ofNat k).toNat % 32 = k := by
    rw [UInt32.toNat_ofNat']
    omega
  have hpow : 2 ^ k ≤ 2 ^ 24 := Nat.pow_le_pow_right (by decide) hk
  have hlt : 2 ^ k * c.toNat < 2 ^ 32 := by
    calc 2 ^ k * c.toNat ≤ 2 ^ 24 * 255 := Nat.mul_le_mul hpow (by omega)
      _ < 2 ^ 32 := by decide
  rw [UInt32.toNat_shiftLeft, hmod, UInt8.toNat_toUInt32, Nat.shiftLeft_eq, Nat.mul_comm]
  exact Nat.mod_eq_of_lt hlt

theorem orLow_toNat {hi lo : UInt32} {k q : Nat} (hhi : hi.toNat = 2 ^ k * q) (hlo : lo.toNat < 2 ^ k) :
    (hi ||| lo).toNat = 2 ^ k * q + lo.toNat := by
  rw [UInt32.toNat_or, hhi, Nat.two_pow_add_eq_or_of_lt hlo]

variable {a b c d : UInt8}

theorem twoBytes_toNat : (a.toUInt32 <<< 24 ||| b.toUInt32 <<< 16).toNat = 2 ^ 16 * (2 ^ 8 * a.toNat + b.toNat) := by
  have hb := b.toNat_lt
  have ha : (a.toUInt32 <<< 24).toNat = 2 ^ 24 * a.toNat := shiftByte_toNat a (by decide)
  have hb' : (b.toUInt32 <<< 16).toNat = 2 ^ 16 * b.toNat := shiftByte_toNat b (by decide)
  rw [orLow_toNat ha (by omega), hb']
  omega

theorem threeBytes_toNat : (a.toUInt32 <<< 24 ||| b.toUInt32 <<< 16 ||| c.toUInt32 <<< 8).toNat
    = 2 ^ 8 * (2 ^ 16 * a.toNat + 2 ^ 8 * b.toNat + c.toNat) := by
  have hc := c.toNat_lt
  have hc' : (c.toUInt32 <<< 8).toNat = 2 ^ 8 * c.toNat := shiftByte_toNat c (by decide)
  rw [orLow_toNat twoBytes_toNat (by omega), hc']
  omega

theorem loadWord_toNat : (loadWord d c b a).toNat
    = 2 ^ 24 * a.toNat + 2 ^ 16 * b.toNat + 2 ^ 8 * c.toNat + d.toNat := by
  have hd := d.toNat_lt
  have hd' : d.toUInt32.toNat = d.toNat := UInt8.toNat_toUInt32 d
  rw [loadWord, orLow_toNat threeBytes_toNat (by omega), hd']
  omega

theorem bswap32_loadWord : bswap32 (loadWord a b c d) = loadWord d c b a := by
  have ha := a.toNat_lt
  have hb := b.toNat_lt
  have hc := c.toNat_lt
  have hd := d.toNat_lt
  have hword := @loadWord_toNat d c b a
  have hbyte : ∀ (k : Nat) (x : UInt8), k < 32 → (loadWord a b c d).toNat / 2 ^ k % 256 = x.toNat →
      (loadWord a b c d >>> UInt32.ofNat k).toUInt8 = x := by
    intro k x hk hx
    have hmod : (UInt32.ofNat k).toNat % 32 = k := by
      rw [UInt32.toNat_ofNat']
      omega
    rw [← UInt8.toNat_inj, UInt32.toNat_toUInt8, UInt32.toNat_shiftRight, hmod, Nat.shiftRight_eq_div_pow]
    exact hx
  have h24 := hbyte 24 d (by decide) (by omega)
  have h16 := hbyte 16 c (by decide) (by omega)
  have h8 := hbyte 8 b (by decide) (by omega)
  have h0 : (loadWord a b c d).toUInt8 = a := by
    rw [← UInt8.toNat_inj, UInt32.toNat_toUInt8]
    omega
  rw [bswap32]
  exact congr (congr (congr (congrArg loadWord h24) h16) h8) h0

theorem subPackPrefix4_toNat (s : List UInt8) : ∃ p q r t, q < 256 ∧ r < 256 ∧ t < 256 ∧ padded 4 s = [p, q, r, t] ∧
    (subPackPrefix4 s).toNat = 2 ^ 24 * p + 2 ^ 16 * q + 2 ^ 8 * r + t := by
  match s with
  | [] => exact ⟨0, 0, 0, 0, by decide, by decide, by decide, rfl, rfl⟩
  | [a] =>
      refine ⟨a.toNat, 0, 0, 0, by decide, by decide, by decide, rfl, ?_⟩
      exact (shiftByte_toNat a (by decide : 24 ≤ 24)).trans rfl
  | [a, b] =>
      refine ⟨a.toNat, b.toNat, 0, 0, b.toNat_lt, by decide, by decide, rfl, ?_⟩
      rw [subPackPrefix4, twoBytes_toNat]
      omega
  | [a, b, c] =>
      refine ⟨a.toNat, b.toNat, c.toNat, 0, b.toNat_lt, c.toNat_lt, by decide, rfl, ?_⟩
      rw [subPackPrefix4, threeBytes_toNat]
      omega
  | a :: b :: c :: d :: s =>
      refine ⟨a.toNat, b.toNat, c.toNat, d.toNat, b.toNat_lt, c.toNat_lt, d.toNat_lt, rfl, ?_⟩
      rw [subPackPrefix4, bswap32_loadWord, loadWord_toNat]

theorem key_lt_iff {s t : List UInt8} :
    (subPackPrefix4 s).toNat < (subPackPrefix4 t).toNat ↔ padded 4 s < padded 4 t := by
  obtain ⟨p, q, r, u, hq, hr, hu, hs, hkey⟩ := subPackPrefix4_toNat s
  obtain ⟨p', q', r', u', hq', hr', hu', ht, hkey'⟩ := subPackPrefix4_toNat t
  rw [hkey, hkey', hs, ht]
  simp only [List.cons_lt_cons_iff, lt_irrefl, and_false, or_false]
  omega

theorem key_eq_iff {s t : List UInt8} : subPackPrefix4 s = subPackPrefix4 t ↔ padded 4 s = padded 4 t := by
  rw [← UInt32.toNat_inj, le_antisymm_iff, ← not_lt, ← not_lt, key_lt_iff, key_lt_iff, not_lt, not_lt,
    ← le_antisymm_iff]

/-! ## The order -/

theorem codes_lt_of_padded_lt {n : Nat} {s t : List UInt8} (h : padded n s < padded n t) : codes s < codes t := by
  induction n generalizing s t with
  | zero => exact absurd h (lt_irrefl _)
  | succ n ih =>
      cases t with
      | nil =>
          cases s with
          | nil => exact absurd h (lt_irrefl _)
          | cons c s =>
              rw [padded, padded, List.cons_lt_cons_iff] at h
              rcases h with hlt | ⟨-, hlt⟩
              · exact absurd hlt (Nat.not_lt_zero _)
              · exact absurd (ih hlt) (List.not_lt_nil _)
      | cons d t =>
          cases s with
          | nil => exact List.nil_lt_cons _ _
          | cons c s =>
              rw [padded, padded, List.cons_lt_cons_iff] at h
              refine List.cons_lt_cons_iff.mpr (h.imp_right fun heq => ⟨heq.1, ih heq.2⟩)

theorem tailOrder_le_iff {n : Nat} {s t : List UInt8} : tailOrder n s ≤ tailOrder n t ↔
    codes (s.drop n) < codes (t.drop n) ∨ codes (s.drop n) = codes (t.drop n) ∧ s.length ≤ t.length :=
  Prod.Lex.toLex_le_toLex

theorem codes_le_iff_of_padded_eq {n : Nat} {s t : List UInt8} (h : padded n s = padded n t) :
    codes s ≤ codes t ↔ tailOrder n s ≤ tailOrder n t := by
  induction n generalizing s t with
  | zero =>
      rw [tailOrder_le_iff, List.drop_zero, List.drop_zero]
      refine le_iff_lt_or_eq.trans (or_congr_right (and_iff_left_of_imp fun heq => ?_).symm)
      have hlen := congrArg List.length heq
      rw [codes, codes, List.length_map, List.length_map] at hlen
      exact hlen.le
  | succ n ih =>
      rw [tailOrder_le_iff]
      cases s with
      | nil =>
          have hnil : ∀ u : List UInt8, codes [] ≤ codes u := fun u => not_lt.mp (List.not_lt_nil _)
          refine iff_of_true (hnil t) ?_
          rw [List.drop_nil]
          exact (le_iff_lt_or_eq.mp (hnil (t.drop (n + 1)))).imp_right fun heq => ⟨heq, Nat.zero_le _⟩
      | cons c s =>
          cases t with
          | nil =>
              refine iff_of_false (not_le.mpr (List.nil_lt_cons _ _)) ?_
              rintro (hlt | ⟨-, hlen⟩)
              · exact List.not_lt_nil _ hlt
              · exact Nat.not_succ_le_zero _ hlen
          | cons d t =>
              rw [padded, padded, List.cons.injEq] at h
              obtain ⟨hcd, hrest⟩ := h
              have hdown : codes (c :: s) ≤ codes (d :: t) ↔ codes s ≤ codes t := by
                rw [← not_lt, ← not_lt]
                refine not_congr (List.cons_lt_cons_iff.trans ?_)
                rw [hcd]
                simp only [lt_irrefl, true_and, false_or]
                rfl
              rw [hdown, ih hrest, tailOrder_le_iff, List.drop_succ_cons, List.drop_succ_cons, List.length_cons,
                List.length_cons, Nat.add_le_add_iff_right]

end Montauk.Strings
