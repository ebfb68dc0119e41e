import Mathlib.Computability.Language
import Mathlib.Order.CompletePartialOrder
import Montauk.Text.Field

/-!
# The pattern grammar

The abstract side of the regex face: syntax trees, the grammar that
`g_alt`/`g_concat`/`g_repeat`/`g_atom` read (`parseRe`, the same descent
without positions), and what a tree denotes.

There are two denotations. `Re.lang` is the textbook one: `a{m,n}` is the
union of the `i`-fold powers for `m <= i <= n`. `Re.fieldLang` is what the
one-pass construction builds: a bounded repeat copies the *byte set* of
the atom's single position, not the atom, as often as an `int` says
(`kept`). They agree on trees whose
braces are applied as the construction expects (`Re.braceOk`,
`Re.fieldLang_eq_lang`).

`Re.stacked` marks a quantified atom with the text of another quantifier
right behind it, which this grammar reads as literal bytes; it denotes
what its operand denotes.
-/

open scoped Computability

namespace Montauk

/-! ## Counts -/

/-- The number that the digits at the front of a text write, behind `v`. -/
def readNumber : List UInt8 → Nat → Nat × List UInt8
  | c :: rest, v =>
      if isDigit c then readNumber rest (v * 10 + (c - 0x30).toNat) else (v, c :: rest)
  | [], v => (v, [])

/-- The inside of a brace quantifier as it is written; `hi` is `none` for
`{m,}`. -/
structure Bounds where
  haslo : Bool
  lo : Nat
  hi : Option Nat
  rest : List UInt8

def readBounds (p : List UInt8) : Bounds :=
  let (lo, r) := readNumber p 0
  let haslo := isDigit (p.headD 0)
  if r.headD 0 = Ch.comma then
    let r := r.tail
    if isDigit (r.headD 0) then
      let (hi, r) := readNumber r 0
      ⟨haslo, lo, some hi, r⟩
    else ⟨haslo, lo, none, r⟩
  else ⟨haslo, lo, some lo, r⟩

theorem readDigits_eq : ∀ (p : List UInt8) (v : Nat),
    readDigits p (Int32.ofNat v) = (Int32.ofNat (readNumber p v).1, (readNumber p v).2)
  | [], _ => rfl
  | c :: rest, v => by
      rw [readDigits, readNumber]
      split
      · rw [← readDigits_eq rest, Int32.ofNat_add, Int32.ofNat_mul]
        rfl
      · rfl

theorem readBrace_eq (p : List UInt8) :
    readBrace p = ⟨(readBounds p).haslo, Int32.ofNat (readBounds p).lo,
      (readBounds p).hi.elim (-1) Int32.ofNat, (readBounds p).rest⟩ := by
  have hread := fun q => readDigits_eq q 0
  rw [show Int32.ofNat 0 = 0 from rfl] at hread
  unfold readBrace readBounds
  simp only [hread]
  split
  · split <;> rfl
  · rfl

/-- What `hi == -1 || hi > 60` refuses. -/
def refused (n : Nat) : Bool := Int32.ofNat n == -1 || decide (60 < Int32.ofNat n)

/-- The count that the field goes by: what an `int` keeps of the number. A
negative one, as a bound on either side, does what 1 does. -/
def kept (n : Nat) : Nat :=
  if n % 4294967296 < 2147483648 then n % 4294967296 else 1

theorem toInt_count (n : Nat) : (Int32.ofNat n).toInt =
    if n % 4294967296 < 2147483648 then ((n % 4294967296 : Nat) : Int)
    else ((n % 4294967296 : Nat) : Int) - 4294967296 := by
  rw [Int32.toInt_ofNat', Int.bmod_def]
  split <;> split <;> simp only [Int32.size] at * <;> omega

theorem kept_of_lt {n : Nat} (h : n < 2147483648) : kept n = n := by
  rw [kept, Nat.mod_eq_of_lt (by omega), if_pos h]

theorem kept_eq_zero_iff {n : Nat} : Int32.ofNat n = 0 ↔ kept n = 0 := by
  rw [← Int32.toInt_inj, toInt_count, kept]
  split <;> simp <;> omega

theorem ofNat_kept {n : Nat} (h : ¬ Int32.ofNat n < 0) : Int32.ofNat (kept n) = Int32.ofNat n := by
  rw [Int32.lt_iff_toInt_lt, toInt_count, show (0 : Int32).toInt = 0 from rfl] at h
  rw [← Int32.toInt_inj, toInt_count, toInt_count, kept]
  split <;> split <;> omega

theorem beq_zero_count (n : Nat) : (Int32.ofNat n == 0) = (kept n == 0) := by
  rw [Bool.eq_iff_iff, beq_iff_eq, beq_iff_eq, kept_eq_zero_iff]

theorem rounds_count (n : Nat) : ((Int32.ofNat n).toInt - 1).toNat = kept n - 1 := by
  rw [toInt_count, kept]
  split <;> omega

theorem count_le_iff {n ci : Nat} (hci : 1 ≤ ci) : (Int32.ofNat n).toInt ≤ ci ↔ kept n ≤ ci := by
  rw [toInt_count, kept]
  split <;> omega

theorem kept_le_of_not_refused {n : Nat} (h : refused n = false) : kept n ≤ 60 := by
  have hle := of_decide_eq_false (Bool.or_eq_false_iff.mp h).2
  rw [Int32.lt_iff_toInt_lt, toInt_count, show (60 : Int32).toInt = 60 from rfl] at hle
  rw [kept]
  split <;> split at hle <;> omega

theorem gBrace_eq {w : Nat} (posBefore : Nat) (a : GAttr w) (x : GPar w) :
    gBrace posBefore a x =
      if x.g.npos ≠ posBefore + 1 then (a, x.fail)
      else
        let b := readBounds x.adv.p
        let x := { x with p := b.rest }
        match b.hi with
        | none => (a, x.fail)
        | some hi =>
            if !b.haslo || x.cur != Ch.rbrace || refused hi then (a, x.fail)
            else
              let x := x.adv
              if kept hi = 0 then (GAttr.eps w, { x with g := { x.g with npos := posBefore } })
              else
                repCopies (x.g.setb posBefore) (Int32.ofNat b.lo) (kept hi - 1) 1
                  { a with nullable := a.nullable || kept b.lo == 0 } x := by
  rw [gBrace]
  split
  · rfl
  rw [readBrace_eq]
  dsimp only
  cases (readBounds x.adv.p).hi with
  | none => simp
  | some hi =>
      have hzero : ∀ r r' : GAttr w × GPar w, (if Int32.ofNat hi = 0 then r else r') = if kept hi = 0 then r else r' :=
        fun _ _ => if_congr kept_eq_zero_iff rfl rfl
      simp only [Option.elim_some, refused, Bool.or_assoc, rounds_count, beq_zero_count, hzero]
      rfl

/-! ## Trees -/

/-- How a one-position atom was written. -/
inductive Leaf where
  | lit (c : UInt8)
  | esc (c : UInt8)
  | any
  | cls
deriving DecidableEq

/-- Syntax trees of the pattern grammar. -/
inductive Re where
  | pos (k : Leaf) (S : ByteSet)
  | folds (ws : List (List UInt8))
  | empty
  | group (a : Re)
  | cat (a b : Re)
  | alt (a b : Re)
  | star (a : Re)
  | plus (a : Re)
  | opt (a : Re)
  | rep (lo hi : Nat) (a : Re)
  | stacked (a : Re)
deriving DecidableEq

namespace Re

/-- The byte sets of the positions a tree keeps, in allocation order. An
atom under `{0}` hands its position back. -/
def sets : Re → List ByteSet
  | pos _ S => [S]
  | folds ws => ws.flatten.map fun c => gsetByte 0 c false
  | empty => []
  | group a => a.sets
  | cat a b => a.sets ++ b.sets
  | alt a b => a.sets ++ b.sets
  | star a => a.sets
  | plus a => a.sets
  | opt a => a.sets
  | rep _ hi a =>
      if kept hi = 0 then [] else a.sets ++ List.replicate (kept hi - 1) (a.sets.headD 0)
  | stacked a => a.sets

/-- The most positions a tree holds at once while it is being built. -/
def peak : Re → Nat
  | pos _ _ => 1
  | folds ws => ws.flatten.length
  | empty => 0
  | group a => a.peak
  | cat a b => max a.peak (a.sets.length + b.peak)
  | alt a b => max a.peak (a.sets.length + b.peak)
  | star a => a.peak
  | plus a => a.peak
  | opt a => a.peak
  | rep lo hi a => max a.peak (rep lo hi a).sets.length
  | stacked a => a.peak

/-- Some position of the tree may follow itself. -/
def looped : Re → Bool
  | pos _ _ => false
  | folds _ => false
  | empty => false
  | group a => a.looped
  | cat a b => a.looped || b.looped
  | alt a b => a.looped || b.looped
  | star a => !a.sets.isEmpty || a.looped
  | plus a => !a.sets.isEmpty || a.looped
  | opt a => a.looped
  | rep _ hi a => if kept hi = 0 then false else a.looped
  | stacked a => a.looped

def nullable : Re → Bool
  | pos _ _ => false
  | folds ws => ws.any List.isEmpty
  | empty => true
  | group a => a.nullable
  | cat a b => a.nullable && b.nullable
  | alt a b => a.nullable || b.nullable
  | star _ => true
  | plus a => a.nullable
  | opt _ => true
  | rep lo _ a => kept lo == 0 || a.nullable
  | stacked a => a.nullable

/-- No position is handed back with an edge on itself: `{0}` stands
behind atoms without a loop only. -/
def clean : Re → Bool
  | pos _ _ => true
  | folds _ => true
  | empty => true
  | group a => a.clean
  | cat a b => a.clean && b.clean
  | alt a b => a.clean && b.clean
  | star a => a.clean
  | plus a => a.clean
  | opt a => a.clean
  | rep _ hi a => a.clean && (kept hi != 0 || !a.looped)
  | stacked a => a.clean

/-- Every brace has its bounds in order and within an `int`, and a lower
bound of two or more stands behind atoms only that do not match the empty
word. -/
def braceOk : Re → Bool
  | pos _ _ => true
  | folds _ => true
  | empty => true
  | group a => a.braceOk
  | cat a b => a.braceOk && b.braceOk
  | alt a b => a.braceOk && b.braceOk
  | star a => a.braceOk
  | plus a => a.braceOk
  | opt a => a.braceOk
  | rep lo hi a =>
      a.braceOk && decide (lo ≤ hi ∧ hi < 2147483648) && (decide (lo ≤ 1) || !a.nullable)
  | stacked a => a.braceOk

def setLang (S : ByteSet) : Language UInt8 := {w | ∃ c, S.has c = true ∧ w = [c]}

def lang : Re → Language UInt8
  | pos _ S => setLang S
  | folds ws => {w | w ∈ ws}
  | empty => 1
  | group a => a.lang
  | cat a b => a.lang * b.lang
  | alt a b => a.lang + b.lang
  | star a => a.lang∗
  | plus a => a.lang * a.lang∗
  | opt a => 1 + a.lang
  | rep lo hi a => {w | ∃ i, lo ≤ i ∧ i ≤ hi ∧ w ∈ a.lang ^ i}
  | stacked a => a.lang

/-- The copies of a bounded repeat behind its first atom, from the `ci`-th
on: optional once `lo` rounds are complete. -/
def copiesLang (S : ByteSet) (lo : Nat) : Nat → Nat → Language UInt8
  | 0, _ => 1
  | n + 1, ci => (if lo ≤ ci then 1 + setLang S else setLang S) * copiesLang S lo n (ci + 1)

/-- The language the one-pass construction builds. -/
def fieldLang : Re → Language UInt8
  | pos _ S => setLang S
  | folds ws => {w | w ∈ ws}
  | empty => 1
  | group a => a.fieldLang
  | cat a b => a.fieldLang * b.fieldLang
  | alt a b => a.fieldLang + b.fieldLang
  | star a => a.fieldLang∗
  | plus a => a.fieldLang * a.fieldLang∗
  | opt a => 1 + a.fieldLang
  | rep lo hi a =>
      if kept hi = 0 then 1
      else (if kept lo = 0 then 1 + a.fieldLang else a.fieldLang)
        * copiesLang (a.sets.headD 0) (kept lo) (kept hi - 1) 1
  | stacked a => a.fieldLang

end Re

/-! ## The grammar -/

/-- A cursor into the pattern, with the pending byte of a case fold. -/
structure PPos where
  p : List UInt8
  foldLeft : Nat
  foldByte : UInt8

namespace PPos

def cur (s : PPos) : UInt8 := s.p.headD 0

def adv (s : PPos) : PPos := { s with p := s.p.tail }

end PPos

/-- The text of a quantifier: `*`, `+`, `?`, `{m}`, `{m,}` or `{m,n}`. -/
def quantAhead (p : List UInt8) : Bool :=
  let c := p.headD 0
  c == Ch.star || c == Ch.plus || c == Ch.quest
    || (c == Ch.lbrace && (readBounds p.tail).haslo
        && (readBounds p.tail).rest.headD 0 == Ch.rbrace)

/-- Mark a quantified atom that more quantifier text follows. -/
def markStacked (a : Re) (s : PPos) : Re × PPos :=
  (if quantAhead s.p then .stacked a else a, s)

variable (icase : Bool)

def pLiteral (k : UInt8 → Leaf) (s : PPos) : Re × PPos :=
  let (S, left, byte) := literalSet icase s.p s.foldLeft s.foldByte
  (.pos (k s.cur) S, ⟨s.p.tail, left, byte⟩)

def pPosAtom (s : PPos) : Option (Re × PPos) :=
  if s.cur = Ch.dot then some (.pos .any (BitVec.allOnes 256), s.adv)
  else if s.cur = Ch.lbrack then
    (classSpan s.p icase).map fun r => (.pos .cls r.1, { s with p := r.2 })
  else if s.cur = Ch.backslash ∧ s.adv.cur ≠ 0 then
    match shorthandSet s.adv.cur with
    | some S => some (.pos (.esc s.adv.cur) S, s.adv.adv)
    | none => some (pLiteral icase .esc s.adv)
  else some (pLiteral icase .lit s)

/-- The branches of a case-fold alternation: the written form, then every
other member of the class that can be encoded. -/
def foldBranches (p : List UInt8) (n : Nat) (members : List Nat) : List (List UInt8) :=
  p.take n :: (members.map u8Encode).filter (· != [])

def pAtom (alt : PPos → Option (Re × PPos)) (s : PPos) : Option (Re × PPos) :=
  if s.cur = Ch.lparen then
    (alt s.adv).bind fun r =>
      if r.2.cur = Ch.rparen then some (.group r.1, r.2.adv) else none
  else
    match foldClass? icase s.p s.foldLeft with
    | some (n, members) =>
        some (.folds (foldBranches s.p n members), { s with p := s.p.drop n })
    | none => pPosAtom icase s

def pBrace (a : Re) (s : PPos) : Option (Re × PPos) :=
  if a.sets.length ≠ 1 then none
  else
    let b := readBounds s.adv.p
    match b.hi with
    | none => none
    | some hi =>
        if !b.haslo || b.rest.headD 0 != Ch.rbrace || refused hi then none
        else some (markStacked (.rep b.lo hi a) { s with p := b.rest.tail })

def pRepeat (alt : PPos → Option (Re × PPos)) (s : PPos) : Option (Re × PPos) :=
  (pAtom icase alt s).bind fun r =>
    if r.2.cur = Ch.star then some (markStacked (.star r.1) r.2.adv)
    else if r.2.cur = Ch.plus then some (markStacked (.plus r.1) r.2.adv)
    else if r.2.cur = Ch.quest then some (markStacked (.opt r.1) r.2.adv)
    else if r.2.cur = Ch.lbrace then pBrace r.1 r.2
    else some r

/-- Append an item to the concatenation read so far. -/
def catItem (acc : Option Re) (b : Re) : Re :=
  match acc with
  | none => b
  | some a => .cat a b

def pConcatLoop (alt : PPos → Option (Re × PPos)) :
    Nat → Option Re → PPos → Option (Re × PPos)
  | 0, acc, s => some (acc.getD .empty, s)
  | n + 1, acc, s =>
      if concatGoes s.cur then
        (pRepeat icase alt s).bind fun r => pConcatLoop alt n (some (catItem acc r.1)) r.2
      else some (acc.getD .empty, s)

def pConcat (alt : PPos → Option (Re × PPos)) (s : PPos) : Option (Re × PPos) :=
  pConcatLoop icase alt (s.p.length + 1) none s

def pAltLoop (alt : PPos → Option (Re × PPos)) : Nat → Re → PPos → Option (Re × PPos)
  | 0, a, s => some (a, s)
  | n + 1, a, s =>
      if s.cur = Ch.bar then
        (pConcat icase alt s.adv).bind fun r => pAltLoop alt n (.alt a r.1) r.2
      else some (a, s)

def pAltWith (alt : PPos → Option (Re × PPos)) (s : PPos) : Option (Re × PPos) :=
  (pConcat icase alt s).bind fun r => pAltLoop icase alt (r.2.p.length + 1) r.1 r.2

def pAlt : Nat → PPos → Option (Re × PPos)
  | 0, _ => none
  | d + 1, s => pAltWith icase (pAlt d) s

/-- The tree of a pattern body, when the grammar covers all of it. -/
def parseRe (body : List UInt8) : Option Re :=
  (pAlt icase (body.length + 1) ⟨body, 0, 0⟩).bind fun r =>
    if r.2.p = [] then some r.1 else none

/-! ## Properties of every tree the grammar reads -/

/-- A property of trees that each rule of the grammar keeps. -/
structure Re.Closed (icase : Bool) (P : Re → Prop) : Prop where
  pos : ∀ k S, P (.pos k S)
  folds : ∀ p left n ms, foldClass? icase p left = some (n, ms) →
    P (.folds (foldBranches p n ms))
  empty : P .empty
  group : ∀ a, P a → P (.group a)
  cat : ∀ a b, P a → P b → P (.cat a b)
  alt : ∀ a b, P a → P b → P (.alt a b)
  star : ∀ a, P a → P (.star a)
  plus : ∀ a, P a → P (.plus a)
  opt : ∀ a, P a → P (.opt a)
  rep : ∀ lo hi a, a.sets.length = 1 → P a → P (.rep lo hi a)
  stacked : ∀ a, P a → P (.stacked a)

section Closed

variable {icase : Bool} {P : Re → Prop} {alt : PPos → Option (Re × PPos)}

/-- Every tree a parser returns has the property. -/
def Reads (P : Re → Prop) (alt : PPos → Option (Re × PPos)) : Prop :=
  ∀ s t s', alt s = some (t, s') → P t

theorem reads_pPosAtom (hP : Re.Closed icase P) : Reads P (pPosAtom icase) := by
  intro s t s' h
  have hpos : ∀ k S s₁, some (Re.pos k S, s₁) = some (t, s') → P t := by
    intro k S s₁ h
    obtain ⟨rfl, -⟩ := Prod.mk.inj (Option.some.inj h)
    exact hP.pos k S
  rw [pPosAtom] at h
  split at h
  · exact hpos _ _ _ h
  split at h
  · obtain ⟨r, -, h⟩ := Option.map_eq_some_iff.mp h
    exact hpos _ _ _ (congrArg some h)
  split at h
  · split at h
    · exact hpos _ _ _ h
    · exact hpos _ _ _ h
  · exact hpos _ _ _ h

theorem reads_pAtom (hP : Re.Closed icase P) (halt : Reads P alt) :
    Reads P (pAtom icase alt) := by
  intro s t s' h
  rw [pAtom] at h
  split at h
  · obtain ⟨⟨u, s₁⟩, hu, h⟩ := Option.bind_eq_some_iff.mp h
    dsimp only at h
    split at h
    · obtain ⟨rfl, -⟩ := Prod.mk.inj (Option.some.inj h)
      exact hP.group u (halt _ _ _ hu)
    · exact absurd h (by simp)
  · split at h
    · rename_i hcls
      obtain ⟨rfl, -⟩ := Prod.mk.inj (Option.some.inj h)
      exact hP.folds _ _ _ _ hcls
    · exact reads_pPosAtom hP _ _ _ h

theorem closed_markStacked (hP : Re.Closed icase P) {a t : Re} {s s' : PPos} (ha : P a)
    (h : some (markStacked a s) = some (t, s')) : P t := by
  have ht : t = (markStacked a s).1 := (congrArg Prod.fst (Option.some.inj h)).symm
  rw [ht, markStacked]
  dsimp only
  split
  · exact hP.stacked a ha
  · exact ha

theorem reads_pRepeat (hP : Re.Closed icase P) (halt : Reads P alt) :
    Reads P (pRepeat icase alt) := by
  intro s t s' h
  rw [pRepeat] at h
  obtain ⟨⟨u, s₁⟩, hu, h⟩ := Option.bind_eq_some_iff.mp h
  have ha := reads_pAtom hP halt _ _ _ hu
  dsimp only at h
  split at h
  · exact closed_markStacked hP (hP.star u ha) h
  split at h
  · exact closed_markStacked hP (hP.plus u ha) h
  split at h
  · exact closed_markStacked hP (hP.opt u ha) h
  split at h
  · rw [pBrace] at h
    split at h
    · exact absurd h (by simp)
    · rename_i hone
      dsimp only at h
      split at h
      · exact absurd h (by simp)
      · split at h
        · exact absurd h (by simp)
        · exact closed_markStacked hP (hP.rep _ _ u (not_not.mp hone) ha) h
  · obtain ⟨rfl, -⟩ := Prod.mk.inj (Option.some.inj h)
    exact ha

theorem reads_pConcatLoop (hP : Re.Closed icase P) (halt : Reads P alt) :
    ∀ (n : Nat) (acc : Option Re), (∀ a, acc = some a → P a) →
      Reads P (pConcatLoop icase alt n acc)
  | 0, acc, hacc, s, t, s', h => by
      obtain ⟨rfl, -⟩ := Prod.mk.inj (Option.some.inj h)
      cases acc with
      | none => exact hP.empty
      | some a => exact hacc a rfl
  | n + 1, acc, hacc, s, t, s', h => by
      rw [pConcatLoop] at h
      split at h
      · obtain ⟨⟨u, s₁⟩, hu, h⟩ := Option.bind_eq_some_iff.mp h
        have hb := reads_pRepeat hP halt _ _ _ hu
        refine reads_pConcatLoop hP halt n _ (fun a ha => ?_) _ _ _ h
        obtain rfl := Option.some.inj ha
        cases acc with
        | none => exact hb
        | some a => exact hP.cat a u (hacc a rfl) hb
      · obtain ⟨rfl, -⟩ := Prod.mk.inj (Option.some.inj h)
        cases acc with
        | none => exact hP.empty
        | some a => exact hacc a rfl

theorem reads_pAltLoop (hP : Re.Closed icase P) (halt : Reads P alt) :
    ∀ (n : Nat) (a : Re), P a → Reads P (pAltLoop icase alt n a)
  | 0, a, ha, s, t, s', h => by
      obtain ⟨rfl, -⟩ := Prod.mk.inj (Option.some.inj h)
      exact ha
  | n + 1, a, ha, s, t, s', h => by
      rw [pAltLoop] at h
      split at h
      · obtain ⟨⟨u, s₁⟩, hu, h⟩ := Option.bind_eq_some_iff.mp h
        have hb := reads_pConcatLoop hP halt _ none (fun a ha => absurd ha (by simp)) _ _ _ hu
        exact reads_pAltLoop hP halt n _ (hP.alt a u ha hb) _ _ _ h
      · obtain ⟨rfl, -⟩ := Prod.mk.inj (Option.some.inj h)
        exact ha

theorem reads_pAlt (hP : Re.Closed icase P) : ∀ d, Reads P (pAlt icase d)
  | 0, _, _, _, h => absurd h (by simp [pAlt])
  | d + 1, s, t, s', h => by
      obtain ⟨⟨u, s₁⟩, hu, h⟩ := Option.bind_eq_some_iff.mp h
      have halt := reads_pAlt hP d
      have ha := reads_pConcatLoop hP halt _ none (fun a ha => absurd ha (by simp)) _ _ _ hu
      exact reads_pAltLoop hP halt _ u ha _ _ _ h

/-- **Induction over the grammar**: what every rule keeps holds of every
tree read from a pattern. -/
theorem parseRe_closed (hP : Re.Closed icase P) {body : List UInt8} {t : Re}
    (h : parseRe icase body = some t) : P t := by
  obtain ⟨⟨u, s⟩, hu, h⟩ := Option.bind_eq_some_iff.mp h
  have h : (if s.p = [] then some u else none) = some t := h
  split at h
  · obtain rfl := Option.some.inj h
    exact reads_pAlt hP _ _ _ _ hu
  · exact absurd h (by simp)

end Closed

end Montauk
