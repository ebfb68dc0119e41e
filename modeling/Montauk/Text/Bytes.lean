import Mathlib.Data.Nat.Notation

/-!
# Bytes, byte sets and bracket expressions

The character level of the matcher: ASCII case folding, the 32-byte
position sets, the `\w \W \s \S` shorthands and the one definition of a
bracket expression (`classSpan`), which the parser, the fast paths and
the alternation splitter all share.

A pattern is the list of its bytes up to the terminating NUL, and a
cursor into it is the list of bytes still ahead. `classSpan` therefore
returns the set together with the text behind the closing bracket,
where the source returns the index just past it.
-/

namespace Montauk

/-! ## Characters -/

namespace Ch

abbrev dollar : UInt8 := 0x24
abbrev lparen : UInt8 := 0x28
abbrev rparen : UInt8 := 0x29
abbrev star : UInt8 := 0x2a
abbrev plus : UInt8 := 0x2b
abbrev comma : UInt8 := 0x2c
abbrev dash : UInt8 := 0x2d
abbrev dot : UInt8 := 0x2e
abbrev colon : UInt8 := 0x3a
abbrev quest : UInt8 := 0x3f
abbrev lbrack : UInt8 := 0x5b
abbrev backslash : UInt8 := 0x5c
abbrev rbrack : UInt8 := 0x5d
abbrev caret : UInt8 := 0x5e
abbrev lbrace : UInt8 := 0x7b
abbrev bar : UInt8 := 0x7c
abbrev rbrace : UInt8 := 0x7d
abbrev newline : UInt8 := 0x0a

end Ch

def isDigit (c : UInt8) : Bool := 0x30 ≤ c && c ≤ 0x39

def isUpper (c : UInt8) : Bool := 0x41 ≤ c && c ≤ 0x5a

def isLower (c : UInt8) : Bool := 0x61 ≤ c && c ≤ 0x7a

def isAlnum (c : UInt8) : Bool := isDigit c || isUpper c || isLower c

/-- `[[:space:]]`: blank, `\t`, `\n`, `\v`, `\f`, `\r`. -/
def isSpace (c : UInt8) : Bool := c = 0x20 || (0x09 ≤ c && c ≤ 0x0d)

/-- ASCII case fold (`A`-`Z` to `a`-`z`), everything else passes through. -/
def fold (c : UInt8) (icase : Bool) : UInt8 :=
  if icase && isUpper c then c + 32 else c

/-- The other case of an ASCII letter, or the byte itself. -/
def swapCase (b : UInt8) : UInt8 :=
  if isLower b then b - 32 else if isUpper b then b + 32 else b

/-! ## Byte sets -/

/-- A position set over bytes, the source's `uint8_t[32]`. -/
abbrev ByteSet := BitVec 256

def ByteSet.has (S : ByteSet) (b : UInt8) : Bool := S.getLsbD b.toNat

/-- `S[b>>3] |= 1u << (b&7)`. -/
def ByteSet.put (S : ByteSet) (b : UInt8) : ByteSet := S ||| (1#256 <<< b.toNat)

/-- Set byte `b`, plus its ASCII case swap under `icase`. -/
def gsetByte (S : ByteSet) (b : UInt8) (icase : Bool) : ByteSet :=
  let S := S.put b
  if icase && swapCase b != b then S.put (swapCase b) else S

/-- `for (v = lo; v <= hi; v++) gset_byte(S, v, icase)`. -/
def gsetRange (S : ByteSet) (lo hi : UInt8) (icase : Bool) : ByteSet :=
  (List.range' lo.toNat (hi.toNat + 1 - lo.toNat)).foldl
    (fun S v => gsetByte S (UInt8.ofNat v) icase) S

/-- The bytes a predicate selects, in one set. -/
def ByteSet.ofPred (p : UInt8 → Bool) : ByteSet :=
  (List.range 256).foldl
    (fun S v => if p (UInt8.ofNat v) then S.put (UInt8.ofNat v) else S) 0

/-- `\w \W \s \S`; every other letter names no shorthand. -/
def shorthandSet (c : UInt8) : Option ByteSet :=
  if c = 0x57 then some (~~~ ByteSet.ofPred fun b => isAlnum b || b == 0x5f)
  else if c = 0x77 then some (ByteSet.ofPred fun b => isAlnum b || b == 0x5f)
  else if c = 0x53 then some (~~~ ByteSet.ofPred isSpace)
  else if c = 0x73 then some (ByteSet.ofPred isSpace)
  else none

theorem forall_byte {P : UInt8 → Prop} (h : ∀ n < 256, P (UInt8.ofNat n)) (c : UInt8) : P c := by
  have hc := h c.toNat c.toNat_lt
  rwa [UInt8.ofNat_toNat] at hc

@[simp] theorem ByteSet.has_put (S : ByteSet) (b c : UInt8) :
    (S.put b).has c = (S.has c || c == b) := by
  have hc := c.toNat_lt
  simp only [has, put, BitVec.getLsbD_or, BitVec.getLsbD_shiftLeft, BitVec.getLsbD_one]
  by_cases h : c = b
  · subst h; simp [hc]
  · have hne : c.toNat ≠ b.toNat := fun hh => h (UInt8.toNat_inj.mp hh)
    simp only [beq_eq_false_iff_ne.mpr h, Bool.or_false]
    by_cases hlt : c.toNat < b.toNat
    · simp [hlt]
    · have : c.toNat - b.toNat ≠ 0 := by omega
      simp [hlt, this]

@[simp] theorem ByteSet.has_zero (c : UInt8) : ByteSet.has 0#256 c = false := by
  simp [has]

theorem has_gsetByte (S : ByteSet) (b c : UInt8) (icase : Bool) :
    (gsetByte S b icase).has c
      = (S.has c || c == b || (icase && c == swapCase b)) := by
  unfold gsetByte
  by_cases h : swapCase b = b
  · cases icase <;> simp [h]
  · cases icase <;> simp [h, Bool.or_assoc]

/-- Folding compares letters up to case: `c` folds to what `b` folds to
exactly when it is `b` or `b` in the other case. -/
theorem fold_eq_iff (b c : UInt8) :
    fold c true = fold b true ↔ c = b ∨ c = swapCase b := by
  simp only [fold, swapCase, isUpper, isLower, Bool.true_and, Bool.and_eq_true,
    decide_eq_true_eq, UInt8.le_iff_toNat_le, ← UInt8.toNat_inj]
  have hb := b.toNat_lt
  have hc := c.toNat_lt
  split <;> split <;> (try split) <;>
    simp_all [UInt8.toNat_add, UInt8.toNat_sub] <;> omega

/-- Membership in the position set of one literal byte is the folded
comparison the exact face makes. -/
theorem has_gsetByte_zero (b c : UInt8) (icase : Bool) :
    (gsetByte 0 b icase).has c = decide (fold c icase = fold b icase) := by
  rw [has_gsetByte, Bool.eq_iff_iff]
  cases icase with
  | false => simp [fold]
  | true => simp [fold_eq_iff]

/-! ## Bracket expressions -/

/-- The POSIX class names, in the order the source compares them. -/
def posixClasses : List (List UInt8 × (UInt8 → Bool)) :=
  [ ([0x61, 0x6c, 0x70, 0x68, 0x61], fun b => isUpper b || isLower b),      -- alpha
    ([0x64, 0x69, 0x67, 0x69, 0x74], isDigit),                              -- digit
    ([0x61, 0x6c, 0x6e, 0x75, 0x6d], isAlnum),                              -- alnum
    ([0x75, 0x70, 0x70, 0x65, 0x72], isUpper),                              -- upper
    ([0x6c, 0x6f, 0x77, 0x65, 0x72], isLower),                              -- lower
    ([0x73, 0x70, 0x61, 0x63, 0x65], isSpace),                              -- space
    ([0x62, 0x6c, 0x61, 0x6e, 0x6b], fun b => b == 0x20 || b == 0x09),      -- blank
    ([0x70, 0x72, 0x69, 0x6e, 0x74], fun b => 0x20 ≤ b && b ≤ 0x7e),        -- print
    ([0x67, 0x72, 0x61, 0x70, 0x68], fun b => 0x21 ≤ b && b ≤ 0x7e),        -- graph
    ([0x63, 0x6e, 0x74, 0x72, 0x6c], fun b => b ≤ 0x1f || b == 0x7f),       -- cntrl
    ([0x70, 0x75, 0x6e, 0x63, 0x74],
      fun b => (0x21 ≤ b && b ≤ 0x7e) && !isAlnum b),                       -- punct
    ([0x78, 0x64, 0x69, 0x67, 0x69, 0x74],
      fun b => isDigit b || (0x41 ≤ b && b ≤ 0x46) || (0x61 ≤ b && b ≤ 0x66)) ] -- xdigit

def posixClass? (name : List UInt8) : Option (UInt8 → Bool) :=
  (posixClasses.find? fun e => e.1 == name).map (·.2)

/-- The text up to the first `:]`, and the text behind it. -/
def posixName : List UInt8 → Option (List UInt8 × List UInt8)
  | c :: d :: rest =>
      if c = Ch.colon ∧ d = Ch.rbrack then some ([], rest)
      else (posixName (d :: rest)).map fun r => (c :: r.1, r.2)
  | _ => none

/-- What `posix_class_span` finds at a cursor: no class at all, a class
with an unknown name (the whole pattern is rejected), or a class whose
members are added to the set. -/
inductive PosixSpan where
  | literal
  | bad
  | span (S : ByteSet) (rest : List UInt8)

def posixClassSpan (p : List UInt8) (S : ByteSet) (icase : Bool) : PosixSpan :=
  match p with
  | c :: d :: rest =>
      if c = Ch.lbrack ∧ d = Ch.colon then
        match posixName rest with
        | none => .literal
        | some (name, after) =>
            match posixClass? name with
            | none => .bad
            | some mem =>
                .span ((List.range 256).foldl (fun S v =>
                  if mem (UInt8.ofNat v) then gsetByte S (UInt8.ofNat v) icase else S) S)
                  after
      else .literal
  | _ => .literal

/-- The member loop of a bracket expression, on the text behind the
opening bracket and an optional `^`. `first` is the source's flag of the
first content position, where a `]` is a member. -/
def classLoop (icase : Bool) : Nat → Bool → ByteSet → List UInt8 →
    Option (ByteSet × List UInt8)
  | 0, _, _, _ => none
  | _ + 1, _, _, [] => none
  | n + 1, first, S, c :: rest =>
      if !first && c == Ch.rbrack then some (S, rest)
      else
        match posixClassSpan (c :: rest) S icase with
        | .bad => none
        | .span S after => classLoop icase n false S after
        | .literal =>
            match rest with
            | d :: hi :: rest' =>
                if d = Ch.dash ∧ hi ≠ Ch.rbrack then
                  classLoop icase n false (gsetRange S c hi icase) rest'
                else classLoop icase n false (gsetByte S c icase) rest
            | _ => classLoop icase n false (gsetByte S c icase) rest

/-- A bracket expression at the cursor `p` (which stands on the `[`):
its member set and the text behind the closing `]`, or `none` when it is
unterminated or names an unknown class. -/
def classSpan (p : List UInt8) (icase : Bool) : Option (ByteSet × List UInt8) :=
  let t := p.tail
  let neg := t.head? == some Ch.caret
  let t := if neg then t.tail else t
  (classLoop icase (t.length + 1) true 0 t).map fun r =>
    (if neg then ~~~r.1 else r.1, r.2)

example : (classSpan [0x5b, 0x61, 0x2d, 0x63, 0x5d, 0x78] false).map (·.2) = some [0x78] := by
  decide

end Montauk
