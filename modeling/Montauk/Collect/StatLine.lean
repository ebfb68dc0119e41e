import Mathlib.Algebra.Order.Ring.Int
import Montauk.Machine.Fields
import Montauk.Machine.Numerals
import Montauk.Machine.Scan
import Montauk.Text.Bytes

/-!
# The stat line of a process

`parse_stat_line`: the name of a process stands between the first `(` and the
last `)` of its `/proc/PID/stat`, and may hold any bytes itself. Behind it a
position goes over the fields one at a time; some are skipped, and from some a
number is taken, by `std::from_chars`, which leaves what it would write to as
it is where it finds no number of the type.

What is found is what the kernel has written, for every name and every spacing,
and on any bytes nothing is read that is not in the string
(`parseStatLine_exact`).
-/

namespace Montauk.Collect

open Fields Numerals Scan Ch

/-! ## The standard library's part -/

def find (c : UInt8) (s : List UInt8) : Option Nat := s.idxOf? c

def rfind (c : UInt8) (s : List UInt8) : Option Nat := (s.reverse.idxOf? c).map fun i => s.length - 1 - i

/-- `std::string::assign` of a part of another string; `none` where it throws. -/
def assign (s : List UInt8) (pos n : Nat) : Option (List UInt8) :=
  if s.length < pos then none else some ((s.drop pos).take n)

/-- `std::from_chars` for an integer type with the values from `lo` to `hi`: a
minus is read for the signed types only, and `none` leaves the number as it was. -/
def fromChars (signed : Bool) (lo hi : Int) (t : List UInt8) : Option Int :=
  (if signed then leadingInt t else (leading t).map Int.ofNat).filter fun n => lo ≤ n && n ≤ hi

def fromCharsU64 (t : List UInt8) : Option UInt64 :=
  (fromChars false 0 (2 ^ 64 - 1) t).map fun n => UInt64.ofNat n.toNat

def fromCharsI64 (t : List UInt8) : Option Int64 :=
  (fromChars true (-2 ^ 63) (2 ^ 63 - 1) t).map Int64.ofInt

def fromCharsI32 (t : List UInt8) : Option Int32 :=
  (fromChars true (-2 ^ 31) (2 ^ 31 - 1) t).map Int32.ofInt

/-! ## The line -/

structure StatOut where
  comm : List UInt8
  state : UInt8
  utime : UInt64
  stime : UInt64
  rssPages : Int64
  minflt : UInt64
  majflt : UInt64
  numThreads : Int32
deriving DecidableEq

/-- A blank, a tab or the end of the line. -/
def isSeparator (c : UInt8) : Bool := c = 0x20 || c = 0x09 || c = 0x0a

/-- `(void)next_field()`, `n` times. -/
def skipFields (content : List UInt8) : Nat → Nat → Option Nat
  | 0, p => some p
  | n + 1, p => (nextField isSeparator content p).bind fun be => skipFields content n be.2

/-- The first byte of the next field, if it has one. -/
def readState (content : List UInt8) (p : Nat) (state : UInt8) : Option (UInt8 × Nat) :=
  (nextField isSeparator content p).bind fun be =>
    if be.1 < be.2 then (content[be.1]?).map fun c => (c, be.2) else some (state, be.2)

/-- `auto [b, e] = next_field(); std::from_chars(b, e, x)`. -/
def readNumber {β : Type} (from_chars : List UInt8 → Option β) (content : List UInt8) (p : Nat) (x : β) :
    Option (β × Nat) :=
  (nextField isSeparator content p).bind fun be =>
    (slice content be.1 be.2).map fun t => ((from_chars t).getD x, be.2)

/-- `parse_stat_line`; `none` if it reads outside of `content`, or does not end. -/
def parseStatLine (content : List UInt8) (o : StatOut) : Option (Bool × StatOut) :=
  match find lparen content, rfind rparen content with
  | some lp, some rp =>
      if rp < lp then some (false, o)
      else do
        let comm ← assign content (lp + 1) (rp - lp - 1)
        let (state, p) ← readState content (rp + 1) o.state
        let p ← skipFields content 1 p
        let p ← skipFields content 5 p
        let (minflt, p) ← readNumber fromCharsU64 content p o.minflt
        let p ← skipFields content 1 p
        let (majflt, p) ← readNumber fromCharsU64 content p o.majflt
        let p ← skipFields content 1 p
        let (utime, p) ← readNumber fromCharsU64 content p o.utime
        let (stime, p) ← readNumber fromCharsU64 content p o.stime
        let p ← skipFields content 4 p
        let (numThreads, p) ← readNumber fromCharsI32 content p o.numThreads
        let p ← skipFields content 3 p
        let (rssPages, _) ← readNumber fromCharsI64 content p o.rssPages
        some (true, { comm, state, utime, stime, rssPages, minflt, majflt, numThreads })
  | _, _ => some (false, o)

/-! ## What the kernel writes -/

/-- A number with the blanks in front of it. -/
structure StatField where
  blanks : List UInt8
  number : Int
  separated : blanks ≠ [] ∧ ∀ c ∈ blanks, isSeparator c = true

def StatField.text (f : StatField) : List UInt8 := f.blanks ++ ofInt f.number

/-- A line of `/proc/PID/stat`: any name at all, and at least the fields up to
the 24th. -/
structure StatLine where
  pid : Nat
  comm : List UInt8
  gap : List UInt8
  state : UInt8
  rest : List StatField
  tail : List UInt8
  gap_blank : gap ≠ [] ∧ ∀ c ∈ gap, isSeparator c = true
  state_letter : isSeparator state = false ∧ state ≠ rparen
  long : 21 ≤ rest.length
  tail_blank : ∀ c ∈ tail, isSeparator c = true

namespace StatLine

def behind (l : StatLine) : List UInt8 := l.gap ++ l.state :: (l.rest.flatMap StatField.text ++ l.tail)

def text (l : StatLine) : List UInt8 := ofNat l.pid ++ 0x20 :: lparen :: (l.comm ++ rparen :: l.behind)

/-- The number that is field `k`, from the fourth on. -/
def field (l : StatLine) (k : Nat) : Int := ((l.rest.map StatField.number)[k - 4]?).getD 0

/-- The fields that are read are numbers of their types. -/
structure InRange (l : StatLine) : Prop where
  minflt : 0 ≤ l.field 10 ∧ l.field 10 < 2 ^ 64
  majflt : 0 ≤ l.field 12 ∧ l.field 12 < 2 ^ 64
  utime : 0 ≤ l.field 14 ∧ l.field 14 < 2 ^ 64
  stime : 0 ≤ l.field 15 ∧ l.field 15 < 2 ^ 64
  numThreads : -2 ^ 31 ≤ l.field 20 ∧ l.field 20 < 2 ^ 31
  rssPages : -2 ^ 63 ≤ l.field 24 ∧ l.field 24 < 2 ^ 63

/-- The out-parameters hold what the line says. -/
structure IsRead (l : StatLine) (r : StatOut) : Prop where
  comm : r.comm = l.comm
  state : r.state = l.state
  utime : (r.utime.toNat : Int) = l.field 14
  stime : (r.stime.toNat : Int) = l.field 15
  rssPages : r.rssPages.toInt = l.field 24
  minflt : (r.minflt.toNat : Int) = l.field 10
  majflt : (r.majflt.toNat : Int) = l.field 12
  numThreads : r.numThreads.toInt = l.field 20

end StatLine

/-! ## Any bytes -/

/-- What stands behind the last `)`. -/
def behindName (content : List UInt8) : List UInt8 :=
  match cutAt rparen content.reverse with
  | some (b, _) => b.reverse
  | none => []

/-- Field `k` of a text, from the third on, if it is there. -/
def statField (content : List UInt8) (k : Nat) : Option (List UInt8) :=
  (fields isSeparator (behindName content))[k - 3]?

/-- Field `k` is there and begins with a number from `lo` to `hi`. -/
def HasNumber (content : List UInt8) (k : Nat) (lo hi : Int) : Prop :=
  ∃ t n, statField content k = some t ∧ leadingInt t = some n ∧ lo ≤ n ∧ n ≤ hi

/-- An out-parameter without a number of its type is what it was. -/
structure Untouched (content : List UInt8) (o r : StatOut) : Prop where
  utime : ¬ HasNumber content 14 0 (2 ^ 64 - 1) → r.utime = o.utime
  stime : ¬ HasNumber content 15 0 (2 ^ 64 - 1) → r.stime = o.stime
  rssPages : ¬ HasNumber content 24 (-2 ^ 63) (2 ^ 63 - 1) → r.rssPages = o.rssPages
  minflt : ¬ HasNumber content 10 0 (2 ^ 64 - 1) → r.minflt = o.minflt
  majflt : ¬ HasNumber content 12 0 (2 ^ 64 - 1) → r.majflt = o.majflt
  numThreads : ¬ HasNumber content 20 (-2 ^ 31) (2 ^ 31 - 1) → r.numThreads = o.numThreads

/-! ## Reading a field -/

section

variable {content : List UInt8} {fs : List (List UInt8)} {p k : Nat}

/-- From `p` on come the fields `fs`. -/
structure Stands (content : List UInt8) (fs : List (List UInt8)) (p : Nat) : Prop where
  le : p ≤ content.length
  ahead : fields isSeparator (content.drop p) = fs

theorem Stands.next (h : Stands content (fs.drop k) p) :
    ∃ b e, nextField isSeparator content p = some (b, e) ∧ b ≤ e ∧ slice content b e = some (fs[k]?.getD [])
      ∧ Stands content (fs.drop (k + 1)) e := by
  obtain ⟨b, e, hnext⟩ := nextField_spec isSeparator h.le
  refine ⟨b, e, hnext.run, hnext.le, ?_, hnext.le_length, ?_⟩
  · rw [hnext.field, h.ahead, List.headD_eq_head?_getD, List.head?_drop]
  · rw [hnext.rest, h.ahead, List.tail_drop]

theorem skipFields_spec (n : Nat) (h : Stands content (fs.drop k) p) :
    ∃ e, skipFields content n p = some e ∧ Stands content (fs.drop (k + n)) e := by
  induction n generalizing k p with
  | zero => exact ⟨p, rfl, h⟩
  | succ n ih =>
      obtain ⟨b, e, hrun, _, _, hstands⟩ := h.next
      obtain ⟨e', hskip, hstands'⟩ := ih hstands
      refine ⟨e', ?_, ?_⟩
      · rw [skipFields, hrun]
        exact hskip
      · rwa [Nat.add_right_comm] at hstands'

theorem readNumber_spec {β : Type} (from_chars : List UInt8 → Option β) (x : β) (h : Stands content (fs.drop k) p) :
    ∃ e, readNumber from_chars content p x = some ((from_chars (fs[k]?.getD [])).getD x, e)
      ∧ Stands content (fs.drop (k + 1)) e := by
  obtain ⟨b, e, hrun, _, hslice, hstands⟩ := h.next
  refine ⟨e, ?_, hstands⟩
  rw [readNumber, hrun, Option.bind_some, hslice]
  rfl

theorem readState_spec (x : UInt8) (h : Stands content (fs.drop k) p) :
    ∃ e, readState content p x = some ((fs[k]?.getD []).headD x, e) ∧ Stands content (fs.drop (k + 1)) e := by
  obtain ⟨b, e, hrun, hle, hslice, hstands⟩ := h.next
  refine ⟨e, ?_, hstands⟩
  have hbound := hstands.le
  rw [slice, if_pos ⟨hle, hbound⟩] at hslice
  rw [readState, hrun, Option.bind_some, ← Option.some.inj hslice, List.headD_eq_head?_getD]
  dsimp only
  by_cases hlt : b < e
  · have hb : b < content.length := by omega
    rw [if_pos hlt, List.head?_take, if_neg (by omega), List.head?_drop, List.getElem?_eq_getElem hb]
    rfl
  · rw [if_neg hlt, Nat.sub_eq_zero_of_le (Nat.not_lt.mp hlt), List.take_zero]
    rfl

/-- What is stored when the fields behind the name are `fs`; the first of them
is field 3. -/
def stored (comm : List UInt8) (fs : List (List UInt8)) (o : StatOut) : StatOut where
  comm := comm
  state := (fs[0]?.getD []).headD o.state
  minflt := (fromCharsU64 (fs[7]?.getD [])).getD o.minflt
  majflt := (fromCharsU64 (fs[9]?.getD [])).getD o.majflt
  utime := (fromCharsU64 (fs[11]?.getD [])).getD o.utime
  stime := (fromCharsU64 (fs[12]?.getD [])).getD o.stime
  numThreads := (fromCharsI32 (fs[17]?.getD [])).getD o.numThreads
  rssPages := (fromCharsI64 (fs[21]?.getD [])).getD o.rssPages

theorem parseStatLine_eq {lp rp : Nat} {comm : List UInt8} (o : StatOut) (hlp : find lparen content = some lp)
    (hrp : rfind rparen content = some rp) (hle : lp ≤ rp) (hcomm : assign content (lp + 1) (rp - lp - 1) = some comm)
    (hbehind : Stands content fs (rp + 1)) : parseStatLine content o = some (true, stored comm fs o) := by
  obtain ⟨p0, hstate, h0⟩ := readState_spec (k := 0) o.state hbehind
  obtain ⟨p1, hppid, h1⟩ := skipFields_spec 1 h0
  obtain ⟨p2, hfive, h2⟩ := skipFields_spec 5 h1
  obtain ⟨p3, hminflt, h3⟩ := readNumber_spec fromCharsU64 o.minflt h2
  obtain ⟨p4, hcminflt, h4⟩ := skipFields_spec 1 h3
  obtain ⟨p5, hmajflt, h5⟩ := readNumber_spec fromCharsU64 o.majflt h4
  obtain ⟨p6, hcmajflt, h6⟩ := skipFields_spec 1 h5
  obtain ⟨p7, hutime, h7⟩ := readNumber_spec fromCharsU64 o.utime h6
  obtain ⟨p8, hstime, h8⟩ := readNumber_spec fromCharsU64 o.stime h7
  obtain ⟨p9, hfour, h9⟩ := skipFields_spec 4 h8
  obtain ⟨p10, hthreads, h10⟩ := readNumber_spec fromCharsI32 o.numThreads h9
  obtain ⟨p11, hthree, h11⟩ := skipFields_spec 3 h10
  obtain ⟨p12, hrss, _⟩ := readNumber_spec fromCharsI64 o.rssPages h11
  rw [parseStatLine, hlp, hrp]
  dsimp only
  rw [if_neg (Nat.not_lt.mpr hle), hcomm]
  simp only [Option.bind_eq_bind, Option.bind_some, hstate, hppid, hfive, hminflt, hcminflt, hmajflt, hcmajflt,
    hutime, hstime, hfour, hthreads, hthree, hrss]
  rfl

end

/-! ## Where the name ends -/

section

variable {content a b : List UInt8} {c : UInt8} {i : Nat}

theorem find_append (h : c ∉ a) (b : List UInt8) : find c (a ++ c :: b) = some a.length := by
  refine List.idxOf?_eq_some_iff.mpr ⟨by simp, by simp, fun j hj hc => h ?_⟩
  rw [List.getElem_append_left hj] at hc
  exact hc ▸ List.getElem_mem hj

theorem lt_of_find (h : find c content = some i) : ∃ hi : i < content.length, content[i] = c :=
  let ⟨hi, hc, _⟩ := List.idxOf?_eq_some_iff.mp h
  ⟨hi, hc⟩

theorem rfind_append (h : c ∉ b) (a : List UInt8) : rfind c (a ++ c :: b) = some a.length := by
  have hreverse : (a ++ c :: b).reverse = b.reverse ++ c :: a.reverse := by simp
  have hfind : (b.reverse ++ c :: a.reverse).idxOf? c = some b.reverse.length := find_append (by simpa using h) _
  rw [rfind, hreverse, hfind, Option.map_some, List.length_append, List.length_cons, List.length_reverse]
  exact congrArg some (by omega)

theorem rfind_cases (c : UInt8) (content : List UInt8) :
    c ∉ content ∧ rfind c content = none
      ∨ ∃ a b, content = a ++ c :: b ∧ c ∉ b ∧ rfind c content = some a.length := by
  by_cases hc : c ∈ content
  · obtain ⟨b, a, hsplit, hb⟩ := List.eq_append_cons_of_mem (List.mem_reverse.mpr hc)
    have hcontent : content = a.reverse ++ c :: b.reverse := by
      rw [← List.reverse_reverse content, hsplit]
      simp
    have hb' : c ∉ b.reverse := by simpa using hb
    exact .inr ⟨a.reverse, b.reverse, hcontent, hb', hcontent ▸ rfind_append hb' _⟩
  · have hnone : content.reverse.idxOf? c = none := List.idxOf?_eq_none_iff.mpr (by simpa using hc)
    exact .inl ⟨hc, by rw [rfind, hnone]; rfl⟩

theorem behindName_append (h : rparen ∉ b) (a : List UInt8) : behindName (a ++ rparen :: b) = b := by
  have hreverse : (a ++ rparen :: b).reverse = b.reverse ++ rparen :: a.reverse := by simp
  rw [behindName, hreverse, cutAt_append (by simpa using h)]
  exact List.reverse_reverse b

theorem drop_length_succ (a b : List UInt8) (c : UInt8) : (a ++ c :: b).drop (a.length + 1) = b := by
  rw [← List.drop_drop, List.drop_left]
  rfl

theorem stands_behind (h : content = a ++ rparen :: b) :
    Stands content (fields isSeparator b) (a.length + 1) := by
  subst h
  exact ⟨by simp, congrArg (fields isSeparator) (drop_length_succ a b rparen)⟩

end

/-! ## Numbers -/

section

variable {signed : Bool} {lo hi i : Int} {t : List UInt8} {content : List UInt8} {k : Nat}

theorem leadingInt_of_leading {n : Nat} (h : leading t = some n) : leadingInt t = some (n : Int) := by
  have hhead : t.head? ≠ some minus := by
    intro hminus
    obtain ⟨rest, rfl⟩ := List.head?_eq_some_iff.mp hminus
    cases (h : (none : Option Nat) = some n)
  rw [leadingInt, if_neg hhead, h]
  rfl

theorem fromChars_eq_some (h : fromChars signed lo hi t = some i) : leadingInt t = some i ∧ lo ≤ i ∧ i ≤ hi := by
  obtain ⟨hread, hrange⟩ := Option.filter_eq_some_iff.mp h
  simp only [Bool.and_eq_true, decide_eq_true_eq] at hrange
  refine ⟨?_, hrange⟩
  cases signed with
  | true => exact hread
  | false =>
      obtain ⟨n, hn, rfl⟩ := Option.map_eq_some_iff.mp hread
      exact leadingInt_of_leading hn

theorem fromChars_none (signed : Bool) (h : ¬ HasNumber content k lo hi) :
    fromChars signed lo hi ((statField content k).getD []) = none := by
  cases hread : fromChars signed lo hi ((statField content k).getD []) with
  | none => rfl
  | some i =>
      obtain ⟨hlead, hrange⟩ := fromChars_eq_some hread
      cases hfield : statField content k with
      | none =>
          rw [hfield] at hlead
          cases (hlead : (none : Option Int) = some i)
      | some t =>
          rw [hfield] at hlead
          exact absurd ⟨t, i, hfield, hlead, hrange⟩ h

theorem fromCharsU64_none (h : ¬ HasNumber content k 0 (2 ^ 64 - 1)) :
    fromCharsU64 ((statField content k).getD []) = none := by
  rw [fromCharsU64, fromChars_none false h]
  rfl

theorem fromCharsI64_none (h : ¬ HasNumber content k (-2 ^ 63) (2 ^ 63 - 1)) :
    fromCharsI64 ((statField content k).getD []) = none := by
  rw [fromCharsI64, fromChars_none true h]
  rfl

theorem fromCharsI32_none (h : ¬ HasNumber content k (-2 ^ 31) (2 ^ 31 - 1)) :
    fromCharsI32 ((statField content k).getD []) = none := by
  rw [fromCharsI32, fromChars_none true h]
  rfl

theorem fromChars_ofInt (hlo : lo ≤ i) (hhi : i ≤ hi) (hsigned : signed = false → 0 ≤ i) :
    fromChars signed lo hi (ofInt i) = some i := by
  have hread : (if signed then leadingInt (ofInt i) else (leading (ofInt i)).map Int.ofNat) = some i := by
    cases signed with
    | true => exact leadingInt_ofInt_self i
    | false =>
        have hpos := hsigned rfl
        rw [if_neg Bool.false_ne_true, ofInt, if_neg (Int.not_lt.mpr hpos), leading_ofNat_self]
        exact congrArg some (Int.natAbs_of_nonneg hpos)
  rw [fromChars, hread, Option.filter_some, if_pos (by simp [hlo, hhi])]

theorem fromCharsU64_ofInt (h : 0 ≤ i ∧ i < 2 ^ 64) : fromCharsU64 (ofInt i) = some (UInt64.ofNat i.toNat)
    ∧ ((UInt64.ofNat i.toNat).toNat : Int) = i := by
  refine ⟨?_, ?_⟩
  · rw [fromCharsU64, fromChars_ofInt h.1 (Int.le_sub_one_of_lt h.2) fun _ => h.1]
    rfl
  · have hlt : i.toNat < UInt64.size := by
      rw [UInt64.size]
      omega
    rw [UInt64.toNat_ofNat_of_lt' hlt]
    exact Int.toNat_of_nonneg h.1

theorem fromCharsI64_ofInt (h : -2 ^ 63 ≤ i ∧ i < 2 ^ 63) : fromCharsI64 (ofInt i) = some (Int64.ofInt i)
    ∧ (Int64.ofInt i).toInt = i := by
  refine ⟨?_, Int64.toInt_ofInt_of_le h.1 h.2⟩
  rw [fromCharsI64, fromChars_ofInt h.1 (Int.le_sub_one_of_lt h.2) fun h => Bool.noConfusion h]
  rfl

theorem fromCharsI32_ofInt (h : -2 ^ 31 ≤ i ∧ i < 2 ^ 31) : fromCharsI32 (ofInt i) = some (Int32.ofInt i)
    ∧ (Int32.ofInt i).toInt = i := by
  refine ⟨?_, Int32.toInt_ofInt_of_le h.1 h.2⟩
  rw [fromCharsI32, fromChars_ofInt h.1 (Int.le_sub_one_of_lt h.2) fun h => Bool.noConfusion h]
  rfl

end

/-! ## The kernel's lines -/

namespace StatLine

variable {l : StatLine}

theorem notMem_of_separator {c : UInt8} {s : List UInt8} (hc : isSeparator c = false)
    (h : ∀ d ∈ s, isSeparator d = true) : c ∉ s := by
  intro hmem
  rw [h c hmem] at hc
  exact Bool.noConfusion hc

theorem ofInt_bytes {P : UInt8 → Prop} (hminus : P minus) (hdigit : ∀ c, Numerals.isDigit c = true → P c) (n : Int) :
    ∀ c ∈ ofInt n, P c := by
  intro c hc
  rw [ofInt] at hc
  split at hc
  · rcases List.mem_cons.mp hc with rfl | hc
    · exact hminus
    · exact hdigit c (isDigit_ofNat _ c hc)
  · exact hdigit c (isDigit_ofNat _ c hc)

theorem digit_plain {c : UInt8} (h : Numerals.isDigit c = true) :
    isSeparator c = false ∧ c ≠ rparen ∧ c ≠ lparen := by
  simp only [Numerals.isDigit, Bool.and_eq_true, decide_eq_true_eq, UInt8.le_iff_toNat_le] at h
  have hne : ∀ k : UInt8, k.toNat < 0x30 → c ≠ k := by
    rintro k hk rfl
    exact absurd h.1 (Nat.not_le.mpr hk)
  refine ⟨?_, hne _ (by decide), hne _ (by decide)⟩
  simp only [isSeparator, Bool.or_eq_false_iff, decide_eq_false_iff_not]
  exact ⟨⟨hne _ (by decide), hne _ (by decide)⟩, hne _ (by decide)⟩

theorem ofInt_separate (n : Int) : ∀ c ∈ ofInt n, isSeparator c = false :=
  ofInt_bytes (by decide) (fun _ h => (digit_plain h).1) n

theorem ofInt_ne_nil (n : Int) : ofInt n ≠ [] := by
  rw [ofInt]
  split
  · exact List.cons_ne_nil _ _
  · exact ofNat_ne_nil _

theorem rparen_notMem_field (f : StatField) : rparen ∉ f.text := by
  rw [StatField.text, List.mem_append, not_or]
  exact ⟨notMem_of_separator (by decide) f.separated.2,
    fun h => ofInt_bytes (by decide) (fun _ h => (digit_plain h).2.1) f.number _ h rfl⟩

theorem rparen_notMem_behind (l : StatLine) : rparen ∉ l.behind := by
  have hrest : rparen ∉ l.rest.flatMap StatField.text := fun h => by
    obtain ⟨f, _, hf⟩ := List.mem_flatMap.mp h
    exact rparen_notMem_field f hf
  have hgap : rparen ∉ l.gap := notMem_of_separator (by decide) l.gap_blank.2
  have htail : rparen ∉ l.tail := notMem_of_separator (by decide) l.tail_blank
  have hstate : rparen ≠ l.state := l.state_letter.2.symm
  simp only [behind, List.mem_append, List.mem_cons, not_or]
  exact ⟨hgap, hstate, hrest, htail⟩

/-- In front of each number, and behind the last one, a separator stands. -/
theorem head_rest (fs : List StatField) {tail : List UInt8} (htail : ∀ c ∈ tail, isSeparator c = true) :
    ∀ c ∈ (fs.flatMap StatField.text ++ tail).head?, isSeparator c = true := by
  intro c hc
  cases fs with
  | nil => exact htail c (List.mem_of_mem_head? hc)
  | cons f fs =>
      obtain ⟨d, w, hd⟩ := List.exists_cons_of_ne_nil f.separated.1
      rw [List.flatMap_cons, StatField.text, hd] at hc
      have hcd : d = c := Option.some.inj hc
      exact hcd ▸ f.separated.2 d (hd ▸ List.mem_cons_self)

theorem fields_rest (fs : List StatField) {tail : List UInt8} (htail : ∀ c ∈ tail, isSeparator c = true) :
    fields isSeparator (fs.flatMap StatField.text ++ tail) = fs.map fun f => ofInt f.number := by
  induction fs with
  | nil =>
      have hblanks := fields_blanks (s := []) htail
      rwa [List.append_nil] at hblanks
  | cons f fs ih =>
      rw [List.flatMap_cons, StatField.text, List.append_assoc, List.append_assoc, fields_blanks f.separated.2,
        fields_field (ofInt_ne_nil _) (ofInt_separate _) (head_rest fs htail), ih, List.map_cons]

theorem fields_behind (l : StatLine) :
    fields isSeparator l.behind = [l.state] :: l.rest.map fun f => ofInt f.number := by
  have hstate : ∀ c ∈ [l.state], isSeparator c = false := by
    intro c hc
    rw [List.mem_singleton.mp hc]
    exact l.state_letter.1
  have hfield := fields_field (List.cons_ne_nil l.state []) hstate (head_rest l.rest l.tail_blank)
  rw [behind, fields_blanks l.gap_blank.2, ← fields_rest l.rest l.tail_blank]
  exact hfield

theorem field_behind {k : Nat} (hk : 4 ≤ k) (hlt : k ≤ 24) :
    (fields isSeparator l.behind)[k - 3]?.getD [] = ofInt (l.field k) := by
  obtain ⟨j, rfl⟩ := Nat.exists_eq_add_of_le hk
  have hj : j < l.rest.length := by
    have hlong := l.long
    omega
  have hidx : 4 + j - 3 = j + 1 := by omega
  rw [fields_behind, hidx, List.getElem?_cons_succ, field, Nat.add_sub_cancel_left, List.getElem?_map,
    List.getElem?_map, List.getElem?_eq_getElem hj]
  rfl

/-- The name is found whatever it holds. -/
theorem parse_text (l : StatLine) (o : StatOut) :
    parseStatLine l.text o = some (true, stored l.comm (fields isSeparator l.behind) o) := by
  have hfirst : lparen ∉ ofNat l.pid ++ [0x20] := by
    rw [List.mem_append, not_or]
    exact ⟨fun h => (digit_plain (isDigit_ofNat _ _ h)).2.2 rfl, by decide⟩
  have hopen : l.text = (ofNat l.pid ++ [0x20]) ++ lparen :: (l.comm ++ rparen :: l.behind) := by
    rw [text, List.append_assoc, List.singleton_append]
  have hclose : l.text = ((ofNat l.pid ++ [0x20]) ++ lparen :: l.comm) ++ rparen :: l.behind := by
    rw [hopen, List.append_assoc (ofNat l.pid ++ [0x20]), List.cons_append]
  have hlp : find lparen l.text = some (ofNat l.pid ++ [0x20]).length := hopen ▸ find_append hfirst _
  have hrp : rfind rparen l.text = some ((ofNat l.pid ++ [0x20]) ++ lparen :: l.comm).length :=
    hclose ▸ rfind_append (rparen_notMem_behind l) _
  refine parseStatLine_eq o hlp hrp (by simp) ?_ (stands_behind hclose)
  have hlen : ((ofNat l.pid ++ [0x20]) ++ lparen :: l.comm).length - (ofNat l.pid ++ [0x20]).length - 1
      = l.comm.length := by
    rw [List.length_append, List.length_cons]
    omega
  have hdrop : l.text.drop ((ofNat l.pid ++ [0x20]).length + 1) = l.comm ++ rparen :: l.behind := by
    rw [hopen, drop_length_succ]
  have hbound : ¬ l.text.length < (ofNat l.pid ++ [0x20]).length + 1 := by
    rw [hopen]
    simp only [List.length_append, List.length_cons, List.length_nil]
    omega
  rw [assign, if_neg hbound, hlen, hdrop, List.take_left]

theorem isRead_stored (h : l.InRange) (o : StatOut) :
    l.IsRead (stored l.comm (fields isSeparator l.behind) o) := by
  have h10 := field_behind (l := l) (k := 10) (by decide) (by decide)
  have h12 := field_behind (l := l) (k := 12) (by decide) (by decide)
  have h14 := field_behind (l := l) (k := 14) (by decide) (by decide)
  have h15 := field_behind (l := l) (k := 15) (by decide) (by decide)
  have h20 := field_behind (l := l) (k := 20) (by decide) (by decide)
  have h24 := field_behind (l := l) (k := 24) (by decide) (by decide)
  obtain ⟨hminflt, hminflt'⟩ := fromCharsU64_ofInt h.minflt
  obtain ⟨hmajflt, hmajflt'⟩ := fromCharsU64_ofInt h.majflt
  obtain ⟨hutime, hutime'⟩ := fromCharsU64_ofInt h.utime
  obtain ⟨hstime, hstime'⟩ := fromCharsU64_ofInt h.stime
  obtain ⟨hthreads, hthreads'⟩ := fromCharsI32_ofInt h.numThreads
  obtain ⟨hrss, hrss'⟩ := fromCharsI64_ofInt h.rssPages
  have hstate : ((fields isSeparator l.behind)[0]?.getD []).headD o.state = l.state := by
    rw [fields_behind]
    rfl
  constructor
  · rfl
  · exact hstate
  · rw [stored, h14, hutime]
    exact hutime'
  · rw [stored, h15, hstime]
    exact hstime'
  · rw [stored, h24, hrss]
    exact hrss'
  · rw [stored, h10, hminflt]
    exact hminflt'
  · rw [stored, h12, hmajflt]
    exact hmajflt'
  · rw [stored, h20, hthreads]
    exact hthreads'

end StatLine

/-! ## Any bytes -/

/-- The string is read to its end at most, and what is found is stored. -/
theorem parseStatLine_total (content : List UInt8) (o : StatOut) :
    parseStatLine content o = some (false, o)
      ∨ ∃ comm, parseStatLine content o = some (true, stored comm (fields isSeparator (behindName content)) o) := by
  rcases rfind_cases rparen content with ⟨_, hrp⟩ | ⟨a, b, hcontent, hb, hrp⟩
  · left
    rw [parseStatLine, hrp]
    cases find lparen content <;> rfl
  · cases hlp : find lparen content with
    | none =>
        left
        rw [parseStatLine, hlp]
    | some lp =>
        by_cases hlt : a.length < lp
        · left
          rw [parseStatLine, hlp, hrp]
          exact if_pos hlt
        · obtain ⟨hlt', _⟩ := lt_of_find hlp
          have hname : assign content (lp + 1) (a.length - lp - 1)
              = some ((content.drop (lp + 1)).take (a.length - lp - 1)) := if_neg (by omega)
          refine .inr ⟨(content.drop (lp + 1)).take (a.length - lp - 1), ?_⟩
          have hbehind : behindName content = b := hcontent ▸ behindName_append hb a
          rw [hbehind]
          exact parseStatLine_eq o hlp hrp (Nat.not_lt.mp hlt) hname (stands_behind hcontent)

theorem untouched_stored (content comm : List UInt8) (o : StatOut) :
    Untouched content o (stored comm (fields isSeparator (behindName content)) o) where
  utime h := congrArg (Option.getD · o.utime) (fromCharsU64_none h)
  stime h := congrArg (Option.getD · o.stime) (fromCharsU64_none h)
  rssPages h := congrArg (Option.getD · o.rssPages) (fromCharsI64_none h)
  minflt h := congrArg (Option.getD · o.minflt) (fromCharsU64_none h)
  majflt h := congrArg (Option.getD · o.majflt) (fromCharsU64_none h)
  numThreads h := congrArg (Option.getD · o.numThreads) (fromCharsI32_none h)

/-- A line of the kernel is read as it is, for every name and every spacing; any
other bytes are read to their end at most, and leave what is not found. -/
theorem parseStatLine_exact (content : List UInt8) (o : StatOut) :
    (∀ l : StatLine, l.InRange → ∃ r, parseStatLine l.text o = some (true, r) ∧ l.IsRead r)
      ∧ ∃ found r, parseStatLine content o = some (found, r) ∧ Untouched content o r := by
  refine ⟨fun l hl => ⟨_, l.parse_text o, l.isRead_stored hl o⟩, ?_⟩
  rcases parseStatLine_total content o with h | ⟨comm, h⟩
  · exact ⟨false, o, h, ⟨fun _ => rfl, fun _ => rfl, fun _ => rfl, fun _ => rfl, fun _ => rfl, fun _ => rfl⟩⟩
  · exact ⟨true, _, h, untouched_stored content comm o⟩

/-- `7 (a) 1 (\n) S 1 1 … 1`, with more blanks than the kernel writes. -/
def nestedLine : StatLine where
  pid := 7
  comm := [0x61, 0x29, 0x20, 0x31, 0x20, 0x28, 0x0a]
  gap := [0x20]
  state := 0x53
  rest := List.replicate 21 ⟨[0x20, 0x20], 1, List.cons_ne_nil _ _, List.all_eq_true.mp rfl⟩
  tail := [0x0a]
  gap_blank := ⟨List.cons_ne_nil _ _, List.all_eq_true.mp rfl⟩
  state_letter := by decide
  long := Nat.le_refl 21
  tail_blank := List.all_eq_true.mp rfl

theorem nestedLine_inRange : nestedLine.InRange := by
  constructor <;> decide

theorem parseStatLine_exact_nested :
    ∃ r, parseStatLine nestedLine.text ⟨[], 0x3f, 0, 0, 0, 0, 0, 0⟩ = some (true, r) ∧ nestedLine.IsRead r :=
  (parseStatLine_exact [] ⟨[], 0x3f, 0, 0, 0, 0, 0, 0⟩).1 nestedLine nestedLine_inRange

end Montauk.Collect
