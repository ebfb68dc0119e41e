import Mathlib.Algebra.Order.Ring.Int
import Mathlib.Tactic.Common

/-!
# Messages made of attributes

A message body is a row of attributes: a header of two 16-bit numbers, the
length with the header and the type, then the payload, filled up to a
multiple of four. A writer appends attributes to a buffer of a fixed size and
refuses one that has no room; a reader walks the bytes and stops at the first
length that makes no sense. What was written is what the walk sees
(`walkAttrs_encode`).
-/

namespace Montauk.Attributes

/-! ## Numbers -/

/-- `n` bytes of a number, little-endian. -/
def le : Nat → Nat → List UInt8
  | 0, _ => []
  | n + 1, v => UInt8.ofNat v :: le n (v / 2 ^ 8)

def leVal : List UInt8 → Nat
  | [] => 0
  | b :: bs => b.toNat + 2 ^ 8 * leVal bs

@[simp] theorem length_le (n v : Nat) : (le n v).length = n := by
  induction n generalizing v with
  | zero => rfl
  | succ n ih => rw [le, List.length_cons, ih]

theorem leVal_le {n v : Nat} (h : v < 2 ^ (8 * n)) : leVal (le n v) = v := by
  induction n generalizing v with
  | zero =>
      have hv : v = 0 := by omega
      rw [hv]
      rfl
  | succ n ih =>
      have hdiv : v / 2 ^ 8 < 2 ^ (8 * n) := by
        rw [Nat.div_lt_iff_lt_mul (Nat.two_pow_pos 8), ← Nat.pow_add]
        exact h
      rw [le, leVal, ih hdiv, UInt8.toNat_ofNat']
      exact Nat.mod_add_div v (2 ^ 8)

/-- The first `n` bytes, as a number. -/
def readLe (n : Nat) (bs : List UInt8) : Nat := leVal (bs.take n)

theorem readLe_le {n v : Nat} (h : v < 2 ^ (8 * n)) (rest : List UInt8) :
    readLe n (le n v ++ rest) = v := by
  rw [readLe, List.take_left' (length_le n v), leVal_le h]

/-! ## Attributes -/

/-- `NLA_ALIGN`. -/
def align4 (n : Nat) : Nat := (n + 3) / 4 * 4

theorem le_align4 (n : Nat) : n ≤ align4 n := by
  rw [align4]
  omega

theorem align4_of_dvd {n : Nat} (h : 4 ∣ n) : align4 n = n := by
  rw [align4]
  omega

theorem dvd_align4 (n : Nat) : 4 ∣ align4 n := Nat.dvd_mul_left 4 _

structure Attr where
  type : Nat
  payload : List UInt8
deriving DecidableEq

namespace Attr

/-- `nla_len`: the header and the payload. -/
def len (a : Attr) : Nat := 4 + a.payload.length

def size (a : Attr) : Nat := align4 a.len

def Fits (a : Attr) : Prop := a.len < 2 ^ 16 ∧ a.type < 2 ^ 16

def encode (a : Attr) : List UInt8 :=
  le 2 a.len ++ le 2 a.type ++ a.payload ++ List.replicate (a.size - a.len) 0

@[simp] theorem length_encode (a : Attr) : a.encode.length = a.size := by
  have h := le_align4 a.len
  simp only [encode, List.length_append, length_le, List.length_replicate]
  rw [size, len] at *
  omega

theorem size_pos (a : Attr) : 4 ≤ a.size := by
  have h := le_align4 a.len
  rw [size, len] at *
  omega

theorem dvd_size (a : Attr) : 4 ∣ a.size := dvd_align4 _

end Attr

def encodeAll (as : List Attr) : List UInt8 := as.flatMap Attr.encode

def sizeAll (as : List Attr) : Nat := (as.map Attr.size).sum

@[simp] theorem encodeAll_nil : encodeAll [] = [] := rfl

theorem encodeAll_cons (a : Attr) (as : List Attr) :
    encodeAll (a :: as) = a.encode ++ encodeAll as := List.flatMap_cons

theorem encodeAll_append (as bs : List Attr) : encodeAll (as ++ bs) = encodeAll as ++ encodeAll bs :=
  List.flatMap_append

@[simp] theorem sizeAll_nil : sizeAll [] = 0 := rfl

theorem sizeAll_cons (a : Attr) (as : List Attr) : sizeAll (a :: as) = a.size + sizeAll as := by
  rw [sizeAll, List.map_cons, List.sum_cons]
  rfl

theorem sizeAll_append (as bs : List Attr) : sizeAll (as ++ bs) = sizeAll as + sizeAll bs := by
  rw [sizeAll, List.map_append, List.sum_append]
  rfl

theorem length_encodeAll (as : List Attr) : (encodeAll as).length = sizeAll as := by
  rw [encodeAll, sizeAll, List.length_flatMap]
  exact congrArg List.sum (List.map_congr_left fun a _ => a.length_encode)

theorem sizeAll_le {as : List Attr} {k : Nat} (h : ∀ a ∈ as, a.size ≤ k) :
    sizeAll as ≤ as.length * k := by
  induction as with
  | nil => exact Nat.zero_le _
  | cons a as ih =>
      have ha := h a List.mem_cons_self
      have has := ih fun b hb => h b (List.mem_cons_of_mem a hb)
      rw [sizeAll_cons, List.length_cons, Nat.succ_mul]
      omega

theorem dvd_sizeAll (as : List Attr) : 4 ∣ sizeAll as := by
  induction as with
  | nil => exact Nat.dvd_zero 4
  | cons a as ih =>
      rw [sizeAll_cons]
      exact Nat.dvd_add a.dvd_size ih

/-! ## Writing -/

/-- A buffer with room for `cap` bytes. -/
structure Buf where
  data : List UInt8
  cap : Nat

namespace Buf

/-- `skb_tailroom`. -/
def tailroom (b : Buf) : Nat := b.cap - b.data.length

/-- `nla_put`: append an attribute, or refuse it. -/
def put (b : Buf) (a : Attr) : Option Buf :=
  if b.tailroom < a.size then none else some { b with data := b.data ++ a.encode }

/-- A row of puts, up to the first that is refused. -/
def putAll (b : Buf) (as : List Attr) : Option Buf := as.foldlM put b

theorem put_eq_some {b : Buf} {a : Attr} (h : b.data.length + a.size ≤ b.cap) :
    b.put a = some { b with data := b.data ++ a.encode } := by
  rw [put, tailroom]
  exact if_neg (by omega)

theorem put_eq_none {b : Buf} {a : Attr} (h : b.cap < b.data.length + a.size) :
    b.put a = none := by
  have hpos := a.size_pos
  rw [put, tailroom]
  exact if_pos (by omega)

theorem putAll_eq_some {b : Buf} {as : List Attr} (h : b.data.length + sizeAll as ≤ b.cap) :
    b.putAll as = some { b with data := b.data ++ encodeAll as } := by
  induction as generalizing b with
  | nil =>
      rw [encodeAll_nil, List.append_nil]
      rfl
  | cons a as ih =>
      rw [sizeAll_cons] at h
      have ha : b.data.length + a.size ≤ b.cap := by omega
      have has : ({ b with data := b.data ++ a.encode } : Buf).data.length + sizeAll as ≤ b.cap := by
        rw [List.length_append, Attr.length_encode, Nat.add_assoc]
        exact h
      rw [putAll, List.foldlM_cons, put_eq_some ha]
      refine (ih has).trans ?_
      rw [encodeAll_cons, List.append_assoc]

theorem putAll_eq_none {b : Buf} {as : List Attr} (hb : b.data.length ≤ b.cap)
    (h : b.cap < b.data.length + sizeAll as) : b.putAll as = none := by
  induction as generalizing b with
  | nil =>
      rw [sizeAll_nil] at h
      omega
  | cons a as ih =>
      rw [sizeAll_cons] at h
      rw [putAll, List.foldlM_cons]
      by_cases ha : b.data.length + a.size ≤ b.cap
      · rw [put_eq_some ha]
        refine ih ?_ ?_
        · rw [List.length_append, Attr.length_encode]
          exact ha
        · rw [List.length_append, Attr.length_encode, Nat.add_assoc]
          exact h
      · rw [put_eq_none (Nat.not_le.mp ha)]
        rfl

/-- `nla_nest_start`: the header of an attribute whose payload follows. -/
def nestStart (b : Buf) (type : Nat) : Option Buf := b.put ⟨type, []⟩

/-- `nla_nest_end`: the length of the attribute that starts at `start`. -/
def nestEnd (b : Buf) (start : Nat) : Buf :=
  { b with data := b.data.take start ++ le 2 (b.data.length - start) ++ b.data.drop (start + 2) }

/-- `nla_nest_cancel`: back to `start`. -/
def nestCancel (b : Buf) (start : Nat) : Buf := { b with data := b.data.take start }

/-- A nest that is filled and ended is an attribute with the rows as its
payload. -/
theorem nestEnd_encode (pre : List UInt8) (cap type : Nat) (as : List Attr) :
    (⟨pre ++ Attr.encode ⟨type, []⟩ ++ encodeAll as, cap⟩ : Buf).nestEnd pre.length
      = ⟨pre ++ Attr.encode ⟨type, encodeAll as⟩, cap⟩ := by
  have hlen : (Attr.mk type (encodeAll as)).len = 4 + sizeAll as := by
    rw [Attr.len, length_encodeAll]
  have hpad : (Attr.mk type (encodeAll as)).size - (Attr.mk type (encodeAll as)).len = 0 := by
    have hdvd := dvd_sizeAll as
    rw [Attr.size, hlen, align4_of_dvd (by omega), Nat.sub_self]
  have hempty : Attr.encode ⟨type, []⟩ = le 2 4 ++ le 2 type := by
    simp [Attr.encode, Attr.len, Attr.size, align4]
  rw [nestEnd, hempty]
  refine congrArg (Buf.mk · cap) ?_
  have htotal : (pre ++ (le 2 4 ++ le 2 type) ++ encodeAll as).length - pre.length
      = 4 + sizeAll as := by
    simp only [List.length_append, length_le, length_encodeAll]
    omega
  have htake : (pre ++ (le 2 4 ++ le 2 type) ++ encodeAll as).take pre.length = pre := by
    rw [List.append_assoc, List.take_left]
  have hdrop : (pre ++ (le 2 4 ++ le 2 type) ++ encodeAll as).drop (pre.length + 2)
      = le 2 type ++ encodeAll as := by
    rw [List.append_assoc, ← List.drop_drop, List.drop_left, List.append_assoc]
    exact List.drop_left' (length_le 2 4)
  rw [htotal, htake, hdrop, Attr.encode, hpad, hlen, List.replicate_zero, List.append_nil]
  simp only [List.append_assoc]

end Buf

/-! ## Reading -/

/-- The attribute walk: `f` sees the type, the length of the payload and the
bytes from the payload on. -/
def walkAttrs {σ : Type} (f : σ → Nat → Nat → List UInt8 → σ) : Nat → List UInt8 → σ → σ
  | 0, _, s => s
  | fuel + 1, bs, s =>
      if bs.length < 4 then s
      else
        let len := readLe 2 bs
        if len < 4 ∨ bs.length < len then s
        else if bs.length < align4 len then s
        else walkAttrs f fuel (bs.drop (align4 len))
          (f s (readLe 2 (bs.drop 2)) (len - 4) (bs.drop 4))

/-- The walk of a text of attributes is a fold over them, for a handler that
reads no further than the payload of the attributes there. -/
theorem walkAttrs_encode {σ : Type} {f : σ → Nat → Nat → List UInt8 → σ} {g : σ → Attr → σ}
    {l : List Attr} (hfits : ∀ a ∈ l, a.Fits)
    (hf : ∀ s, ∀ a ∈ l, ∀ tail, f s a.type a.payload.length (a.payload ++ tail) = g s a) :
    ∀ (fuel : Nat) (s : σ), (encodeAll l).length < fuel →
      walkAttrs f fuel (encodeAll l) s = l.foldl g s := by
  induction l with
  | nil =>
      intro fuel s hfuel
      cases fuel with
      | zero => exact absurd hfuel (Nat.not_lt_zero _)
      | succ fuel => rfl
  | cons a as ih =>
      intro fuel s hfuel
      cases fuel with
      | zero => exact absurd hfuel (Nat.not_lt_zero _)
      | succ fuel =>
          obtain ⟨hlen16, htype16⟩ := hfits a List.mem_cons_self
          have hsplit := encodeAll_cons a as
          have hlen : readLe 2 (encodeAll (a :: as)) = a.len := by
            rw [hsplit, Attr.encode]
            simp only [List.append_assoc]
            exact readLe_le hlen16 _
          have htype : readLe 2 ((encodeAll (a :: as)).drop 2) = a.type := by
            rw [hsplit, Attr.encode]
            simp only [List.append_assoc]
            rw [List.drop_left' (length_le 2 _)]
            exact readLe_le htype16 _
          have hdata : (encodeAll (a :: as)).drop 4
              = a.payload ++ (List.replicate (a.size - a.len) 0 ++ encodeAll as) := by
            rw [hsplit, Attr.encode]
            have hhead : (le 2 a.len ++ le 2 a.type).length = 4 := by simp
            simp only [List.append_assoc]
            rw [← List.append_assoc (le 2 a.len)]
            exact List.drop_left' hhead
          have hrest : (encodeAll (a :: as)).drop (align4 a.len) = encodeAll as := by
            rw [hsplit]
            exact List.drop_left' a.length_encode
          have htotal : (encodeAll (a :: as)).length = a.size + (encodeAll as).length := by
            rw [hsplit, List.length_append, Attr.length_encode]
          have hle := le_align4 a.len
          have hsize : a.size = align4 a.len := rfl
          have hge : 4 ≤ a.len := Nat.le_add_right 4 _
          have hsub : a.len - 4 = a.payload.length := Nat.add_sub_cancel_left 4 _
          have hpos := a.size_pos
          rw [walkAttrs, if_neg (by omega)]
          dsimp only
          rw [hlen, if_neg (by omega), if_neg (by omega), htype, hdata, hrest, hsub,
            hf s a List.mem_cons_self, List.foldl_cons]
          refine ih (fun b hb => hfits b (List.mem_cons_of_mem a hb))
            (fun s b hb => hf s b (List.mem_cons_of_mem a hb)) fuel _ ?_
          omega

end Montauk.Attributes
