import Montauk.Text.CaseFold

/-!
# The position field and its parser

The Glushkov field of `field.inc`: one pass over the pattern text that
allocates positions, fills their byte sets and adds follow edges as it
goes, keeping no syntax tree. The engine is written once for a width of
`w` positions (`w = 64 * PW` in the source) and instantiated at 64 and
128 by `buildGnfa`.

The parser state carries the text still ahead of the cursor, the field
under construction and the pending byte of a case fold. The recursion
through parentheses is cut open: `gAtom`, `gRepeat`, `gConcat` and
`gAltWith` take the parser of a nested alternation as an argument, and
`gAlt d` ties the knot for nesting up to depth `d`. A pattern cannot nest
deeper than it is long, so `buildGnfaAt` never reaches the bottom.
-/

namespace Montauk

/-- A compiled field over `w` positions (`sublimation_search_gnfa`). -/
structure Gnfa (w : Nat) where
  setb : Nat → ByteSet
  follow : Nat → BitVec w
  first : BitVec w
  last : BitVec w
  npos : Nat
  nullableAll : Bool
  ok : Bool
  anchoredStart : Bool
  anchoredEnd : Bool
  icase : Bool

/-- What the parser knows about the piece just parsed (`gattr_t`). -/
structure GAttr (w : Nat) where
  nullable : Bool
  first : BitVec w
  last : BitVec w

/-- The parser state (`gpar_t`). -/
structure GPar (w : Nat) where
  p : List UInt8
  g : Gnfa w
  foldLeft : Nat
  foldByte : UInt8

variable {w : Nat}

/-- The one-position set `{p}`. -/
def psSingle (w p : Nat) : BitVec w := 1#w <<< p

/-- The field after `memset(g, 0, sizeof *g)`. -/
def Gnfa.zero (w : Nat) : Gnfa w where
  setb _ := 0
  follow _ := 0
  first := 0
  last := 0
  npos := 0
  nullableAll := false
  ok := false
  anchoredStart := false
  anchoredEnd := false
  icase := false

def GAttr.none (w : Nat) : GAttr w := ⟨false, 0, 0⟩

def GAttr.eps (w : Nat) : GAttr w := ⟨true, 0, 0⟩

def GAttr.pos (w p : Nat) : GAttr w := ⟨false, psSingle w p, psSingle w p⟩

def GAttr.cat (a b : GAttr w) : GAttr w where
  nullable := a.nullable && b.nullable
  first := if a.nullable then a.first ||| b.first else a.first
  last := if b.nullable then b.last ||| a.last else b.last

def GAttr.alt (a b : GAttr w) : GAttr w where
  nullable := a.nullable || b.nullable
  first := a.first ||| b.first
  last := a.last ||| b.last

namespace GPar

/-- `*x->p`: the byte at the cursor, NUL at the end of the pattern. -/
def cur (x : GPar w) : UInt8 := x.p.headD 0

/-- `x->p++`. -/
def adv (x : GPar w) : GPar w := { x with p := x.p.tail }

/-- `x->g->ok = 0`. -/
def fail (x : GPar w) : GPar w := { x with g := { x.g with ok := false } }

/-- Allocate the next position with byte set `S`. -/
def newPos (x : GPar w) (S : ByteSet) : GPar w :=
  { x with g := { x.g with
      npos := x.g.npos + 1
      setb := fun i => if i = x.g.npos then S else x.g.setb i } }

/-- `PS_FOREACH(src, i, { ps_or(follow[i], dst); })`. -/
def link (x : GPar w) (src dst : BitVec w) : GPar w :=
  { x with g := { x.g with
      follow := fun i => if src.getLsbD i then x.g.follow i ||| dst else x.g.follow i } }

end GPar

/-! ## Atoms -/

/-- The position loop of `g_bytes`; `fl` is the pair of the first and the
previous position, once there is one. -/
def gBytesLoop : List UInt8 → Option (Nat × Nat) → GPar w → GAttr w × GPar w
  | [], none, x => (GAttr.eps w, x)
  | [], some (f, l), x => (⟨false, psSingle w f, psSingle w l⟩, x)
  | b :: bs, fl, x =>
      if w ≤ x.g.npos then (GAttr.none w, x.fail)
      else
        let p := x.g.npos
        let x := x.newPos (gsetByte 0 b false)
        match fl with
        | none => gBytesLoop bs (some (p, p)) x
        | some (f, prev) =>
            gBytesLoop bs (some (f, p)) (x.link (psSingle w prev) (psSingle w p))

/-- A literal byte sequence as a chain of positions, one atom. -/
def gBytes (x : GPar w) (bytes : List UInt8) : GAttr w × GPar w :=
  gBytesLoop bytes none x

/-- The branches of a case-fold alternation after the written form. -/
def gFoldMembers : List Nat → GAttr w → GPar w → GAttr w × GPar w
  | [], a, x => (a, x)
  | m :: ms, a, x =>
      if x.g.ok then
        if u8Encode m = [] then gFoldMembers ms a x
        else
          let (b, x) := gBytes x (u8Encode m)
          gFoldMembers ms { a with first := a.first ||| b.first, last := a.last ||| b.last } x
      else (a, x)

/-- The character at `p` and its class, when its fold is matched as an
alternation: the encoded length and the other members. -/
def foldClass? (icase : Bool) (p : List UInt8) (foldLeft : Nat) :
    Option (Nat × List Nat) :=
  if icase && 0xc0 ≤ p.headD 0 && foldLeft == 0 then
    match u8Decode p with
    | some (n, cp) =>
        if 2 ≤ n ∧ foldAltMembers cp ≠ [] then some (n, foldAltMembers cp) else none
    | none => none
  else none

/-- The byte set of a literal byte at `p` and the pending fold after it.
A character folded at its lead admits its partner's last byte in the set
of the last of its bytes. -/
def literalSet (icase : Bool) (p : List UInt8) (foldLeft : Nat) (foldByte : UInt8) :
    ByteSet × Nat × UInt8 :=
  let b := p.headD 0
  let S := gsetByte 0 b icase
  if icase then
    if 0 < foldLeft then
      if foldLeft - 1 = 0 then (gsetByte S foldByte false, 0, foldByte)
      else (S, foldLeft - 1, foldByte)
    else if 0xc0 ≤ b then
      match u8Decode p with
      | some (n, cp) =>
          if 2 ≤ n ∧ foldAltLast cp ≠ 0 then (S, n - 1, foldAltLast cp)
          else (S, foldLeft, foldByte)
      | none => (S, foldLeft, foldByte)
    else (S, foldLeft, foldByte)
  else (S, foldLeft, foldByte)

def gLiteral (x : GPar w) : GAttr w × GPar w :=
  let (S, left, byte) := literalSet x.g.icase x.p x.foldLeft x.foldByte
  (GAttr.pos w x.g.npos, { (x.newPos S).adv with foldLeft := left, foldByte := byte })

/-- The one-position atoms: `.`, a bracket expression, an escape or a
literal byte. -/
def gPosAtom (x : GPar w) : GAttr w × GPar w :=
  if w ≤ x.g.npos then (GAttr.none w, x.fail)
  else if x.cur = Ch.dot then
    (GAttr.pos w x.g.npos, (x.newPos (BitVec.allOnes 256)).adv)
  else if x.cur = Ch.lbrack then
    match classSpan x.p x.g.icase with
    | some (S, rest) => (GAttr.pos w x.g.npos, { x.newPos S with p := rest })
    | none => (GAttr.pos w x.g.npos, { x.newPos 0 with p := [] }.fail)
  else if x.cur = Ch.backslash ∧ x.adv.cur ≠ 0 then
    match shorthandSet x.adv.cur with
    | some S => (GAttr.pos w x.g.npos, (x.newPos S).adv.adv)
    | none => gLiteral x.adv
  else gLiteral x

def gAtom (alt : GPar w → GAttr w × GPar w) (x : GPar w) : GAttr w × GPar w :=
  if x.cur = Ch.lparen then
    let (a, x) := alt x.adv
    if x.cur = Ch.rparen then (a, x.adv) else (a, x.fail)
  else
    match foldClass? x.g.icase x.p x.foldLeft with
    | some (n, members) =>
        let (br, x) := gBytes x (x.p.take n)
        let (a, x) := gFoldMembers members ⟨false, br.first, br.last⟩ x
        if x.g.ok then (a, { x with p := x.p.drop n }) else (a, x)
    | none => gPosAtom x

/-! ## Repetition -/

/-- `while (*p >= '0' && *p <= '9') v = v*10 + (*p++ - '0')`. The count is an
`int`, which wraps. -/
def readDigits : List UInt8 → Int32 → Int32 × List UInt8
  | c :: rest, v =>
      if isDigit c then readDigits rest (v * 10 + Int32.ofNat (c - 0x30).toNat) else (v, c :: rest)
  | [], v => (v, [])

/-- The inside of a brace quantifier, as far as it could be read: `hi` is -1
for `{m,}`. -/
structure Brace where
  haslo : Bool
  lo : Int32
  hi : Int32
  rest : List UInt8

/-- Read `m`, `m,` or `m,n` from the text behind a `{`. -/
def readBrace (p : List UInt8) : Brace :=
  let (lo, r) := readDigits p 0
  let haslo := isDigit (p.headD 0)
  if r.headD 0 = Ch.comma then
    let r := r.tail
    if isDigit (r.headD 0) then
      let (hi, r) := readDigits r 0
      ⟨haslo, lo, hi, r⟩
    else ⟨haslo, lo, -1, r⟩
  else ⟨haslo, lo, lo, r⟩

/-- The `ci`-th and later copies of a bounded repeat, `n` of them: each is
a fresh position with the atom's byte set, optional from the `lo`-th on. -/
def repCopies (setcopy : ByteSet) (lo : Int32) : Nat → Nat → GAttr w → GPar w →
    GAttr w × GPar w
  | 0, _, a, x => (a, x)
  | n + 1, ci, a, x =>
      if w ≤ x.g.npos then (a, x.fail)
      else
        let p := x.g.npos
        let b : GAttr w := { GAttr.pos w p with nullable := decide (lo.toInt ≤ ci) }
        let x := (x.newPos setcopy).link a.last b.first
        repCopies setcopy lo n (ci + 1) (a.cat b) x

/-- A brace quantifier behind an atom that was allocated from position
`posBefore` on. The cursor stands on the `{`. -/
def gBrace (posBefore : Nat) (a : GAttr w) (x : GPar w) : GAttr w × GPar w :=
  if x.g.npos ≠ posBefore + 1 then (a, x.fail)
  else
    let b := readBrace x.adv.p
    let x := { x with p := b.rest }
    if !b.haslo || x.cur != Ch.rbrace || b.hi == -1 || 60 < b.hi then (a, x.fail)
    else
      let x := x.adv
      if b.hi = 0 then
        -- `{0}`: the atom's single position is handed back
        (GAttr.eps w, { x with g := { x.g with npos := posBefore } })
      else
        -- the copies from 1 to `hi - 1`, none for a negative bound
        repCopies (x.g.setb posBefore) b.lo (b.hi.toInt - 1).toNat 1
          { a with nullable := a.nullable || b.lo == 0 } x

def gRepeat (alt : GPar w → GAttr w × GPar w) (x : GPar w) : GAttr w × GPar w :=
  let posBefore := x.g.npos
  let (a, x) := gAtom alt x
  if x.cur = Ch.star then ({ a with nullable := true }, x.adv.link a.last a.first)
  else if x.cur = Ch.plus then (a, x.adv.link a.last a.first)
  else if x.cur = Ch.quest then ({ a with nullable := true }, x.adv)
  else if x.cur = Ch.lbrace then gBrace posBefore a x
  else (a, x)

/-! ## Juxtaposition and alternation -/

/-- `*x->p && *x->p != '|' && *x->p != ')'`. -/
def concatGoes (c : UInt8) : Bool := c != 0 && c != Ch.bar && c != Ch.rparen

/-- The loop of `g_concat`; `any` tells whether an item was parsed. Every
round consumes text or clears `ok`, so the text's length bounds it. -/
def gConcatLoop (alt : GPar w → GAttr w × GPar w) :
    Nat → Bool → GAttr w → GPar w → GAttr w × GPar w
  | 0, _, a, x => (a, x)
  | n + 1, any, a, x =>
      if concatGoes x.cur && x.g.ok then
        let (b, x) := gRepeat alt x
        if any then gConcatLoop alt n true (a.cat b) (x.link a.last b.first)
        else gConcatLoop alt n true b x
      else (a, x)

def gConcat (alt : GPar w → GAttr w × GPar w) (x : GPar w) : GAttr w × GPar w :=
  gConcatLoop alt (x.p.length + 1) false (GAttr.eps w) x

/-- The loop of `g_alt`. -/
def gAltLoop (alt : GPar w → GAttr w × GPar w) :
    Nat → GAttr w → GPar w → GAttr w × GPar w
  | 0, a, x => (a, x)
  | n + 1, a, x =>
      if x.cur == Ch.bar && x.g.ok then
        let (b, x) := gConcat alt x.adv
        gAltLoop alt n (a.alt b) x
      else (a, x)

def gAltWith (alt : GPar w → GAttr w × GPar w) (x : GPar w) : GAttr w × GPar w :=
  let (a, x) := gConcat alt x
  gAltLoop alt (x.p.length + 1) a x

/-- `g_alt`, for parentheses nested up to `d - 1` deep. -/
def gAlt : Nat → GPar w → GAttr w × GPar w
  | 0, x => (GAttr.none w, x.fail)
  | d + 1, x => gAltWith (gAlt d) x

/-! ## Compilation -/

/-- The anchors peeled off the raw pattern text, and the body between
them. -/
def peelAnchors (pat : List UInt8) : Bool × Bool × List UInt8 :=
  let anchoredStart := pat.head? == some Ch.caret
  let body := if anchoredStart then pat.tail else pat
  let anchoredEnd := body.getLast? == some Ch.dollar
  (anchoredStart, anchoredEnd, if anchoredEnd then body.dropLast else body)

/-- `build_gnfa` at one width: whether the pattern was accepted, and the
field as the parser left it. -/
def buildGnfaAt (w : Nat) (pat : List UInt8) (icase : Bool) : Bool × Gnfa w :=
  let (anchoredStart, anchoredEnd, body) := peelAnchors pat
  let g : Gnfa w := { Gnfa.zero w with ok := true, icase, anchoredStart, anchoredEnd }
  if 1024 ≤ body.length then (false, g)
  else if body = [] then (true, { g with nullableAll := true })
  else
    let (a, x) := gAlt (body.length + 1) ⟨body, g, 0, 0⟩
    if !x.g.ok || x.p != [] || x.g.npos == 0 then (false, x.g)
    else (true, { x.g with first := a.first, last := a.last, nullableAll := a.nullable })

/-- `build_gnfa`: the narrow field, or the wide one for a pattern that
outgrew 64 positions. The result is the width in words and the field. -/
def buildGnfa (pat : List UInt8) (icase : Bool) : Option (Σ nwords : Nat, Gnfa (64 * nwords)) :=
  let r := buildGnfaAt (64 * 1) pat icase
  if r.1 then some ⟨1, r.2⟩
  else if r.2.npos < 64 then none
  else
    let r := buildGnfaAt (64 * 2) pat icase
    if r.1 then some ⟨2, r.2⟩ else none

end Montauk
