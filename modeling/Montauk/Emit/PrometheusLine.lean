import Montauk.Emit.Sink
import Montauk.Text.Bytes

/-!
# A line of the exposition

`labeled_line` and the value behind it, as the Prometheus sink writes them:
the metric's name, its labels in braces with their values quoted and escaped,
a blank and the value. What the standard library makes of a double
(`std::to_chars`) and reads as one (`strtod`) is a parameter, `DoubleText`,
with the laws that are documented for it.
-/

namespace Montauk.Emit

open Json (utf8 intText)
open Ch

/-! ## Names -/

/-- A byte of a metric's or a label's name. -/
def identByte (c : UInt8) : Bool := isAlnum c || c = 0x5f || c = colon

/-- A name as it stands in the source: not empty, and of name bytes only. -/
structure Ident where
  bytes : List UInt8
  nonempty : bytes ≠ []
  valid : ∀ c ∈ bytes, identByte c = true

theorem Ident.ext_bytes {a b : Ident} (h : a.bytes = b.bytes) : a = b := by
  cases a
  cases b
  cases h
  rfl

instance : DecidableEq Ident := fun a b =>
  decidable_of_iff (a.bytes = b.bytes) ⟨Ident.ext_bytes, fun h => by rw [h]⟩

/-- `struct Label`. -/
structure Label where
  key : Ident
  value : List UInt8
deriving DecidableEq

/-! ## Escaping -/

def dquote : UInt8 := 0x22
def equals : UInt8 := 0x3d

/-- One byte in `append_escaped`. -/
def escapeByte (c : UInt8) : List UInt8 :=
  if c = backslash then [backslash, backslash]
  else if c = dquote then [backslash, dquote]
  else if c = newline then [backslash, 0x6e]
  else [c]

/-- `append_escaped`. -/
def escaped (v : List UInt8) : List UInt8 := v.flatMap escapeByte

@[simp] theorem escaped_nil : escaped [] = [] := rfl

@[simp] theorem escaped_cons (c : UInt8) (v : List UInt8) :
    escaped (c :: v) = escapeByte c ++ escaped v := rfl

/-- What an escaped byte is: a backslash and another byte, or one byte that
stands for itself. -/
theorem escapeByte_cases (c : UInt8) :
    (∃ d, escapeByte c = [backslash, d] ∧ d ≠ newline) ∨
      (escapeByte c = [c] ∧ c ≠ backslash ∧ c ≠ dquote ∧ c ≠ newline) := by
  unfold escapeByte
  split
  · exact .inl ⟨backslash, rfl, by decide⟩
  · rename_i hb
    split
    · exact .inl ⟨dquote, rfl, by decide⟩
    · rename_i hq
      split
      · exact .inl ⟨0x6e, rfl, by decide⟩
      · rename_i hn
        exact .inr ⟨rfl, hb, hq, hn⟩

theorem newline_notMem_escaped (v : List UInt8) : newline ∉ escaped v := by
  induction v with
  | nil => exact List.not_mem_nil
  | cons c v ih =>
    rw [escaped_cons, List.mem_append, not_or]
    refine ⟨?_, ih⟩
    rcases escapeByte_cases c with ⟨d, hd, hne⟩ | ⟨hc, -, -, hn⟩
    · rw [hd]
      simp [hne.symm, backslash, newline]
    · rw [hc]
      simp [Ne.symm hn]

theorem mem_escaped {c : UInt8} (h : c ≠ backslash ∧ c ≠ dquote ∧ c ≠ newline ∧ c ≠ 0x6e)
    (v : List UInt8) : c ∈ escaped v ↔ c ∈ v := by
  obtain ⟨hb, hq, hn, h6⟩ := h
  have hbyte : ∀ d, c ∈ escapeByte d ↔ c = d := by
    intro d
    unfold escapeByte
    split
    · rename_i hd
      simp [hd, hb]
    split
    · rename_i hd
      simp [hd, hb, hq]
    split
    · rename_i hd
      simp [hd, hb, h6, hn]
    · simp
  simp [escaped, List.mem_flatMap, hbyte]

theorem escaped_append_inj {v w : List UInt8} {s t : List UInt8}
    (h : escaped v ++ dquote :: s = escaped w ++ dquote :: t) : v = w ∧ s = t := by
  induction v generalizing w with
  | nil =>
    cases w with
    | nil => exact ⟨rfl, (List.cons.inj h).2⟩
    | cons d w =>
      rcases escapeByte_cases d with ⟨e, he, -⟩ | ⟨he, -, hq, -⟩
      · rw [escaped_cons, he] at h
        have hhead : dquote = backslash := (List.cons.inj h).1
        exact absurd hhead (by decide)
      · rw [escaped_cons, he] at h
        exact absurd (List.cons.inj h).1.symm hq
  | cons c v ih =>
    cases w with
    | nil =>
      rcases escapeByte_cases c with ⟨e, he, -⟩ | ⟨he, -, hq, -⟩
      · rw [escaped_cons, he] at h
        have hhead : backslash = dquote := (List.cons.inj h).1
        exact absurd hhead (by decide)
      · rw [escaped_cons, he] at h
        exact absurd (List.cons.inj h).1 hq
    | cons d w =>
      rw [escaped_cons, escaped_cons, List.append_assoc, List.append_assoc] at h
      have hcd : c = d ∧ escaped v ++ dquote :: s = escaped w ++ dquote :: t := by
        unfold escapeByte at h
        split_ifs at h <;> simp_all [backslash, dquote, newline]
      obtain ⟨rfl, hrest⟩ := hcd
      obtain ⟨rfl, hst⟩ := ih hrest
      exact ⟨rfl, hst⟩

theorem escaped_injective {v w : List UInt8} (h : escaped v = escaped w) : v = w :=
  (escaped_append_inj (s := []) (t := []) (by rw [h])).1

/-! ## The line -/

/-- `key="value"`. -/
def Label.text (l : Label) : List UInt8 :=
  l.key.bytes ++ equals :: dquote :: (escaped l.value ++ [dquote])

/-- What `labeled_line` puts between the braces. -/
def labelsText : List Label → List UInt8
  | [] => []
  | l :: ls => l.text ++ ls.flatMap fun l => comma :: l.text

def labeledLine (name : Ident) (labels : List Label) : List UInt8 :=
  if labels = [] then name.bytes ++ [0x20]
  else name.bytes ++ lbrace :: (labelsText labels ++ [rbrace, 0x20])

theorem notMem_ident {c : UInt8} (h : identByte c = false) (i : Ident) : c ∉ i.bytes := by
  intro hc
  rw [i.valid c hc] at h
  cases h

theorem newline_notMem_labelText (l : Label) : newline ∉ l.text := by
  have hkey : newline ∉ l.key.bytes := notMem_ident (by decide) l.key
  have hval := newline_notMem_escaped l.value
  simp [Label.text, hkey, hval, newline, equals, dquote]

theorem newline_notMem_labelsText (ls : List Label) : newline ∉ labelsText ls := by
  have htail : ∀ ls : List Label, newline ∉ ls.flatMap fun l => comma :: l.text := by
    intro ls hmem
    obtain ⟨l, -, hl⟩ := List.mem_flatMap.mp hmem
    rcases List.mem_cons.mp hl with hc | hl
    · exact absurd hc (by decide)
    · exact newline_notMem_labelText l hl
  cases ls with
  | nil => exact List.not_mem_nil
  | cons l ls =>
    rw [labelsText, List.mem_append, not_or]
    exact ⟨newline_notMem_labelText l, htail ls⟩

theorem newline_notMem_labeledLine (name : Ident) (ls : List Label) :
    newline ∉ labeledLine name ls := by
  have hname : newline ∉ name.bytes := notMem_ident (by decide) name
  have hls := newline_notMem_labelsText ls
  unfold labeledLine
  split
  · simp [hname, newline]
  · simp [hname, hls, newline, lbrace, rbrace]

theorem ident_append_inj {a b : Ident} {c d : UInt8} {s t : List UInt8}
    (hc : identByte c = false) (hd : identByte d = false)
    (h : a.bytes ++ c :: s = b.bytes ++ d :: t) : a = b ∧ c = d ∧ s = t := by
  have hcut : ∀ (i : Ident) (e : UInt8) (u : List UInt8), identByte e = false →
      (i.bytes ++ e :: u).takeWhile identByte = i.bytes := by
    intro i e u he
    rw [List.takeWhile_append_of_pos i.valid]
    simp [he]
  have hab : a.bytes = b.bytes := by
    rw [← hcut a c s hc, h, hcut b d t hd]
  obtain rfl := Ident.ext_bytes hab
  obtain ⟨hcd, hst⟩ := List.cons.inj (List.append_cancel_left h)
  exact ⟨rfl, hcd, hst⟩

theorem key_append_inj {a b : Ident} {s t : List UInt8}
    (h : a.bytes ++ equals :: s = b.bytes ++ equals :: t) : a = b ∧ s = t := by
  obtain ⟨hab, -, hst⟩ := ident_append_inj (by decide) (by decide) h
  exact ⟨hab, hst⟩

theorem labelText_append_inj {l m : Label} {s t : List UInt8}
    (h : l.text ++ s = m.text ++ t) : l = m ∧ s = t := by
  unfold Label.text at h
  simp only [List.append_assoc, List.cons_append, List.nil_append] at h
  obtain ⟨hkey, hrest⟩ := key_append_inj h
  obtain ⟨hval, hst⟩ := escaped_append_inj (List.cons.inj hrest).2
  refine ⟨?_, hst⟩
  cases l
  cases m
  cases hkey
  cases hval
  rfl

theorem labelsText_append_inj {ls ms : List Label} {s t : List UInt8}
    (h : labelsText ls ++ rbrace :: s = labelsText ms ++ rbrace :: t) : ls = ms ∧ s = t := by
  have htail : ∀ ls ms : List Label, (ls.flatMap fun l => comma :: l.text) ++ rbrace :: s
      = (ms.flatMap fun l => comma :: l.text) ++ rbrace :: t → ls = ms ∧ s = t := by
    intro ls
    induction ls with
    | nil =>
      intro ms h
      cases ms with
      | nil => exact ⟨rfl, (List.cons.inj h).2⟩
      | cons m ms => exact absurd (List.cons.inj h).1 (by decide)
    | cons l ls ih =>
      intro ms h
      cases ms with
      | nil => exact absurd (List.cons.inj h).1 (by decide)
      | cons m ms =>
        simp only [List.flatMap_cons, List.cons_append, List.append_assoc, List.cons.injEq,
          true_and] at h
        obtain ⟨rfl, hrest⟩ := labelText_append_inj h
        obtain ⟨rfl, hst⟩ := ih ms hrest
        exact ⟨rfl, hst⟩
  have hkey : ∀ (l : Label) (u v : List UInt8), l.text ++ u ≠ rbrace :: v := by
    intro l u v he
    obtain ⟨c, k, hk⟩ := List.exists_cons_of_ne_nil l.key.nonempty
    have hc : c ∈ l.key.bytes := hk ▸ List.mem_cons_self
    rw [Label.text, hk] at he
    obtain rfl : c = rbrace := (List.cons.inj he).1
    exact notMem_ident (by decide) l.key hc
  cases ls with
  | nil =>
    cases ms with
    | nil => exact ⟨rfl, (List.cons.inj h).2⟩
    | cons m ms =>
      rw [labelsText, labelsText, List.append_assoc] at h
      exact absurd h.symm (hkey m _ _)
  | cons l ls =>
    cases ms with
    | nil =>
      rw [labelsText, labelsText, List.append_assoc] at h
      exact absurd h (hkey l _ _)
    | cons m ms =>
      rw [labelsText, labelsText, List.append_assoc, List.append_assoc] at h
      obtain ⟨rfl, hrest⟩ := labelText_append_inj h
      obtain ⟨rfl, hst⟩ := htail ls ms hrest
      exact ⟨rfl, hst⟩

/-- Two label maps never have the same text. -/
theorem labelsText_injective {ls ms : List Label} (h : labelsText ls = labelsText ms) :
    ls = ms :=
  (labelsText_append_inj (s := []) (t := []) (by rw [h])).1

theorem labeledLine_append_inj {a b : Ident} {ls ms : List Label} {s t : List UInt8}
    (h : labeledLine a ls ++ s = labeledLine b ms ++ t) : a = b ∧ ls = ms ∧ s = t := by
  have hbrace : identByte lbrace = false := by decide
  have hblank : identByte 0x20 = false := by decide
  unfold labeledLine at h
  split at h <;> split at h <;>
    simp only [List.append_assoc, List.cons_append, List.nil_append] at h
  · rename_i hl hm
    obtain ⟨hab, -, hst⟩ := ident_append_inj hblank hblank h
    exact ⟨hab, hl.trans hm.symm, hst⟩
  · obtain ⟨-, hne, -⟩ := ident_append_inj hblank hbrace h
    exact absurd hne (by decide)
  · obtain ⟨-, hne, -⟩ := ident_append_inj hbrace hblank h
    exact absurd hne (by decide)
  · obtain ⟨hab, -, hrest⟩ := ident_append_inj hbrace hbrace h
    obtain ⟨hls, hst⟩ := labelsText_append_inj hrest
    exact ⟨hab, hls, (List.cons.inj hst).2⟩

/-! ## Values -/

/-- The digits `std::to_chars` writes for an integer. -/
def decimal (n : Int) : List UInt8 := utf8 (intText n)

def numByte (c : UInt8) : Bool :=
  isAlnum c || c = plus || c = dash || c = dot || c = lparen || c = rparen || c = 0x5f

/-- Doubles as the standard library prints and reads them. `fmtDouble` is
`montauk_fmt_double`, that is `std::to_chars`, which gives the shortest text
that reads back as the same number, or the name of an infinity or of a NaN.
`strtod` takes the longest text of a number in front, and `ofInt` is the double
that is an integer, where there is one. -/
structure DoubleText (D : Type) where
  fmtDouble : D → List UInt8
  strtod : List UInt8 → Option (D × List UInt8)
  isFinite : D → Bool
  ofInt : Int → Option D
  fmt_ne_nil : ∀ v, fmtDouble v ≠ []
  fmt_bytes : ∀ v, ∀ c ∈ fmtDouble v, numByte c = true
  strtod_fmt : ∀ v, ∃ w, strtod (fmtDouble v) = some (w, []) ∧ isFinite w = isFinite v ∧
    (isFinite v = true → w = v)
  strtod_decimal : ∀ n v, ofInt n = some v → strtod (decimal n) = some (v, [])
  ofInt_finite : ∀ n v, ofInt n = some v → isFinite v = true

/-- What the sink is asked to write. -/
inductive MetricValue (D : Type) where
  | f64 (v : D)
  | u64 (v : UInt64)
  | i64 (v : Int64)

section

variable {D : Type} (lib : DoubleText D)

/-- `append_double`, `append_uint`, `append_int`. -/
def MetricValue.text : MetricValue D → List UInt8
  | .f64 v => lib.fmtDouble v
  | .u64 v => decimal v.toNat
  | .i64 v => decimal v.toInt

/-- A labelled sample as the sink writes it. -/
def sampleLine (name : Ident) (labels : List Label) (v : MetricValue D) : List UInt8 :=
  labeledLine name labels ++ (v.text lib ++ [newline])

def MetricValue.Is : MetricValue D → D → Prop
  | .f64 v, d => d = v
  | .u64 v, d => lib.ofInt v.toNat = some d
  | .i64 v, d => lib.ofInt v.toInt = some d

/-- The value is a finite double, or an integer that is a double. -/
def MetricValue.exact : MetricValue D → Bool
  | .f64 v => lib.isFinite v
  | .u64 v => (lib.ofInt v.toNat).isSome
  | .i64 v => (lib.ofInt v.toInt).isSome

end

theorem decimal_ne_nil (n : Int) : decimal n ≠ [] := by
  have hne : ∀ cs : List Char, cs ≠ [] → utf8 cs ≠ [] := by
    intro cs hcs hnil
    cases cs with
    | nil => exact hcs rfl
    | cons c cs =>
      rw [Json.utf8_cons] at hnil
      have hc := (List.append_eq_nil_iff.mp hnil).1
      have hlen := congrArg List.length hc
      rw [String.length_utf8EncodeChar] at hlen
      have hpos := c.utf8Size_pos
      simp at hlen
      omega
  refine hne _ ?_
  unfold intText
  split
  · exact List.cons_ne_nil _ _
  · exact Nat.toDigits_ne_nil

theorem forall_mem_decimal {P : UInt8 → Prop} (hdash : P dash) (hdigit : ∀ k < 58, 48 ≤ k → P (UInt8.ofNat k))
    (n : Int) : ∀ c ∈ decimal n, P c := by
  have hascii : ∀ cs : List Char, (∀ x ∈ cs, x.toNat < 0x80 ∧ P (UInt8.ofNat x.toNat)) → ∀ c ∈ utf8 cs, P c := by
    intro cs
    induction cs with
    | nil =>
      intro _ c hc
      cases hc
    | cons x cs ih =>
      intro h c hc
      obtain ⟨hx, hcs⟩ := List.forall_mem_cons.mp h
      rw [Sink.utf8_ascii hx.1] at hc
      rcases List.mem_cons.mp hc with rfl | hc
      · exact hx.2
      · exact ih hcs c hc
  have hdigit : ∀ x : Char, x.isDigit = true → x.toNat < 0x80 ∧ P (UInt8.ofNat x.toNat) := by
    intro x hx
    have hlo : 48 ≤ x.toNat ∧ x.toNat ≤ 57 := by
      simp only [Char.isDigit, Bool.and_eq_true, decide_eq_true_eq] at hx
      exact ⟨UInt32.le_iff_toNat_le.mp hx.1, UInt32.le_iff_toNat_le.mp hx.2⟩
    exact ⟨by omega, hdigit _ (by omega) hlo.1⟩
  have hdigits : ∀ m : Nat, ∀ x ∈ Nat.toDigits 10 m, x.isDigit = true := fun m x hx =>
    Nat.isDigit_of_mem_toDigits (by decide) (by decide) hx
  refine hascii _ ?_
  intro x hx
  unfold intText at hx
  split at hx
  · rcases List.mem_cons.mp hx with rfl | hx
    · exact ⟨by decide, hdash⟩
    · exact hdigit x (hdigits _ x hx)
  · exact hdigit x (hdigits _ x hx)

theorem numByte_decimal (n : Int) : ∀ c ∈ decimal n, numByte c = true :=
  forall_mem_decimal (by decide) (by decide) n

section

variable {D : Type} (lib : DoubleText D)

theorem value_ne_nil (v : MetricValue D) : v.text lib ≠ [] := by
  cases v with
  | f64 v => exact lib.fmt_ne_nil v
  | u64 v => exact decimal_ne_nil _
  | i64 v => exact decimal_ne_nil _

theorem numByte_value (v : MetricValue D) : ∀ c ∈ v.text lib, numByte c = true := by
  cases v with
  | f64 v => exact lib.fmt_bytes v
  | u64 v => exact numByte_decimal _
  | i64 v => exact numByte_decimal _

theorem strtod_value {v : MetricValue D} (h : v.exact lib = true) :
    ∃ d, lib.strtod (v.text lib) = some (d, []) ∧ lib.isFinite d = true ∧ v.Is lib d := by
  cases v with
  | f64 v =>
    obtain ⟨w, hw, hfin, hsame⟩ := lib.strtod_fmt v
    exact ⟨w, hw, hfin.trans h, hsame h⟩
  | u64 v =>
    obtain ⟨d, hd⟩ := Option.isSome_iff_exists.mp h
    exact ⟨d, lib.strtod_decimal _ d hd, lib.ofInt_finite _ d hd, hd⟩
  | i64 v =>
    obtain ⟨d, hd⟩ := Option.isSome_iff_exists.mp h
    exact ⟨d, lib.strtod_decimal _ d hd, lib.ofInt_finite _ d hd, hd⟩

theorem exact_of_is {v : MetricValue D} {d : D} (h : v.Is lib d) (hfin : lib.isFinite d = true) :
    v.exact lib = true := by
  cases v with
  | f64 v =>
    cases h
    exact hfin
  | u64 v => exact Option.isSome_iff_exists.mpr ⟨d, h⟩
  | i64 v => exact Option.isSome_iff_exists.mpr ⟨d, h⟩

end

def oneText : DoubleText Unit where
  fmtDouble _ := [0x31]
  strtod s := if s.head? = some 0x31 then some ((), s.tail) else none
  isFinite _ := true
  ofInt n := if n = 1 then some () else none
  fmt_ne_nil _ := List.cons_ne_nil _ _
  fmt_bytes _ := by decide +kernel
  strtod_fmt _ := ⟨(), rfl, rfl, fun _ => rfl⟩
  strtod_decimal := by
    intro n v h
    split at h
    · rename_i hn
      cases hn
      rfl
    · cases h
  ofInt_finite _ _ _ := rfl

end Montauk.Emit
