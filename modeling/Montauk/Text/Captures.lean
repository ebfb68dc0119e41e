import Montauk.Text.Items
import Montauk.Text.Spans

/-!
# Capture groups

The second reading of a pattern in `match.c`: a recursive descent that keeps
a tree (`cap_alt` and below) and a backtracking matcher in
continuation-passing style (`cap_m`) that runs over the bytes of one match and
records where the groups started and ended.

The matcher tries what `CapNode.Parse` allows, in an order of its own, and
restores the groups of what failed (`capM_spec`); it ends, because every call
leaves less of the tree to match (`CapNode.weight`). Both hold for a text below
two gigabytes and a tree whose lower bounds are not negative: the bounds of a
repeat are what an `int` keeps of the digits.
-/

open scoped Computability

namespace Montauk

/-! ## The tree -/

/-- `cap_node`; a negative `hi` is no upper bound, `null` a branch without
items. -/
inductive CapNode where
  | null
  | char (ch : UInt8)
  | any
  | cls (set : ByteSet)
  | concat (a b : CapNode)
  | alt (a b : CapNode)
  | rep (a : CapNode) (lo hi : Int32)
  | group (gidx : Nat) (a : CapNode)
deriving DecidableEq

/-! ## The parser -/

/-- `cap_parser`: the text ahead and the groups that have been opened. -/
structure CapPos where
  p : List UInt8
  ngroups : Nat
deriving DecidableEq

def CapPos.cur (s : CapPos) : UInt8 := s.p.headD 0

def CapPos.adv (s : CapPos) : CapPos := { s with p := s.p.tail }

section
variable (icase : Bool)

def capAtom (alt : CapPos → Option (CapNode × CapPos)) (s : CapPos) : Option (CapNode × CapPos) :=
  if s.cur = Ch.lparen then
    (alt ⟨s.p.tail, s.ngroups + 1⟩).bind fun r =>
      if r.2.cur = Ch.rparen then some (.group (s.ngroups + 1) r.1, r.2.adv) else none
  else if s.cur = Ch.dot then some (.any, s.adv)
  else if s.cur = Ch.lbrack then
    (classSpan s.p icase).map fun r => (.cls r.1, { s with p := r.2 })
  else if s.cur = Ch.backslash ∧ s.adv.cur ≠ 0 then
    match shorthandSet s.adv.cur with
    | some S => some (.cls S, s.adv.adv)
    | none => some (.char s.adv.cur, s.adv.adv)
  else if s.cur = 0 ∨ s.cur = Ch.bar ∨ s.cur = Ch.rparen then none
  else some (.char s.cur, s.adv)

/-- The bounds of the quantifier ahead and the text behind it. A brace that is
none is left to be read as a byte. -/
def capQuant (p : List UInt8) : Option (Int32 × Int32 × List UInt8) :=
  let c := p.headD 0
  if c = Ch.star then some (0, -1, p.tail)
  else if c = Ch.plus then some (1, -1, p.tail)
  else if c = Ch.quest then some (0, 1, p.tail)
  else if c = Ch.lbrace then
    let b := readBrace p.tail
    if !b.haslo || b.rest.headD 0 != Ch.rbrace then none else some (b.lo, b.hi, b.rest.tail)
  else none

/-- The loop of `cap_repeat`: every round consumes text. -/
def capRepeatLoop : Nat → CapNode → CapPos → CapNode × CapPos
  | 0, a, s => (a, s)
  | fuel + 1, a, s =>
      match capQuant s.p with
      | none => (a, s)
      | some (lo, hi, p) => capRepeatLoop fuel (.rep a lo hi) { s with p := p }

def capRepeat (alt : CapPos → Option (CapNode × CapPos)) (s : CapPos) : Option (CapNode × CapPos) :=
  (capAtom icase alt s).map fun r => capRepeatLoop (r.2.p.length + 1) r.1 r.2

/-- Append an item to `head`. -/
def capItem (head : Option CapNode) (r : CapNode) : CapNode :=
  match head with
  | none => r
  | some a => .concat a r

def capConcatLoop (alt : CapPos → Option (CapNode × CapPos)) :
    Nat → Option CapNode → CapPos → Option (CapNode × CapPos)
  | 0, head, s => some (head.getD .null, s)
  | fuel + 1, head, s =>
      if concatGoes s.cur then
        (capRepeat icase alt s).bind fun r => capConcatLoop alt fuel (some (capItem head r.1)) r.2
      else some (head.getD .null, s)

def capConcat (alt : CapPos → Option (CapNode × CapPos)) (s : CapPos) : Option (CapNode × CapPos) :=
  capConcatLoop icase alt (s.p.length + 1) none s

def capAltLoop (alt : CapPos → Option (CapNode × CapPos)) :
    Nat → CapNode → CapPos → Option (CapNode × CapPos)
  | 0, l, s => some (l, s)
  | fuel + 1, l, s =>
      if s.cur = Ch.bar then
        (capConcat icase alt s.adv).bind fun r => capAltLoop alt fuel (.alt l r.1) r.2
      else some (l, s)

def capAltWith (alt : CapPos → Option (CapNode × CapPos)) (s : CapPos) : Option (CapNode × CapPos) :=
  (capConcat icase alt s).bind fun r => capAltLoop icase alt (r.2.p.length + 1) r.1 r.2

/-- `cap_alt`, for groups nested up to `d - 1` deep. -/
def capAlt : Nat → CapPos → Option (CapNode × CapPos)
  | 0, _ => none
  | d + 1, s => capAltWith icase (capAlt d) s

/-- The tree of a pattern and how many groups it has, when there is one. -/
def capParse (pat : List UInt8) : Option (CapNode × Nat) :=
  (capAlt icase (pat.length + 1) ⟨pat, 0⟩).bind fun r =>
    if r.2.p = [] ∧ r.1 ≠ .null ∧ 0 < r.2.ngroups then some (r.1, r.2.ngroups) else none

end

/-! ## The matcher -/

/-- The arrays `gs` and `ge`; `UINT32_MAX` stands in a cell that was not set. -/
structure CapSpans where
  gs : Nat → UInt32
  ge : Nat → UInt32

def CapSpans.unset : CapSpans := ⟨fun _ => 0xffffffff, fun _ => 0xffffffff⟩

def CapSpans.open (g : CapSpans) (x i : Nat) : CapSpans :=
  { g with gs := Function.update g.gs x (UInt32.ofNat i) }

def CapSpans.close (g : CapSpans) (x i : Nat) : CapSpans :=
  { g with ge := Function.update g.ge x (UInt32.ofNat i) }

/-- The cells of group `x` as they are in `old`. -/
def CapSpans.restore (g : CapSpans) (x : Nat) (old : CapSpans) : CapSpans where
  gs := Function.update g.gs x (old.gs x)
  ge := Function.update g.ge x (old.ge x)

/-- `cap_cont`: a node to match next, or the marker that stamps the end of a
group. -/
inductive CapCont where
  | node (n : CapNode)
  | mark (gidx : Nat)

section
variable (text : List UInt8) (icase : Bool)

/-- `cap_k`: at the end of the continuation all of the text has to be consumed. -/
def capK (m : CapNode → List CapCont → Nat → CapSpans → Option (Bool × CapSpans)) :
    List CapCont → Nat → CapSpans → Option (Bool × CapSpans)
  | [], i, g => some (i == text.length, g)
  | .node n :: k, i, g => m n k i g
  | .mark x :: k, i, g => capK m k i (g.close x i)

/-- `for (int cnt = maxrep; cnt >= lo; --cnt)`, with `rounds` counts left to try. -/
def capReps (round : Int32 → CapSpans → Option (Bool × CapSpans)) (lo : Int32) :
    Nat → CapSpans → Option (Bool × CapSpans)
  | 0, g => some (false, g)
  | rounds + 1, g =>
      (round (lo + Int32.ofNat rounds) g).bind fun r => if r.1 then some r else capReps round lo rounds r.2

/-- The most copies that a repeat tries at `i`. -/
def maxRep (i : Nat) (hi : Int32) : Int32 := if hi < 0 then Int32.ofNat (text.length - i) + 1 else hi

/-- What is left of a repeat behind the first of `cnt` copies. -/
def repRest (a : CapNode) (cnt : Int32) : CapNode :=
  if cnt - 1 = 0 then .null else .rep a (cnt - 1) (cnt - 1)

/-- A byte at `i` that passes `test`, and the rest. -/
def capByte (m : CapNode → List CapCont → Nat → CapSpans → Option (Bool × CapSpans)) (test : UInt8 → Bool)
    (k : List CapCont) (i : Nat) (g : CapSpans) : Option (Bool × CapSpans) :=
  match text[i]? with
  | none => some (false, g)
  | some c => if test c then capK text m k (i + 1) g else some (false, g)

/-- `cap_m`: the text from `i` on against node `n` and then the nodes of `k`. -/
def capM : Nat → CapNode → List CapCont → Nat → CapSpans → Option (Bool × CapSpans)
  | 0, _, _, _, _ => none
  | fuel + 1, n, k, i, g =>
      match n with
      | .null => capK text (capM fuel) k i g
      | .char ch => capByte text (capM fuel) (fun c => fold c icase == fold ch icase) k i g
      | .any => capByte text (capM fuel) (fun _ => true) k i g
      | .cls set => capByte text (capM fuel) set.has k i g
      | .concat a b => capM fuel a (.node b :: k) i g
      | .alt a b =>
          (capM fuel a k i g).bind fun r => if r.1 then some r else capM fuel b k i r.2
      | .group x a =>
          (capM fuel a (.mark x :: k) i (g.open x i)).map fun r =>
            if r.1 then r else (false, r.2.restore x g)
      | .rep a lo hi =>
          if hi = 0 then capK text (capM fuel) k i g
          else
            capReps (fun cnt g =>
                if cnt = 0 then capK text (capM fuel) k i g
                else capM fuel a (.node (repRest a cnt) :: k) i g)
              lo ((maxRep text i hi).toInt + 1 - lo.toInt).toNat g

end

namespace CapNode

/-- The copies that a lower bound asks for. -/
def least (lo : Int32) : Nat := lo.toNatClampNeg

/-- The copies that an upper bound leaves, when it is one. -/
def most (hi : Int32) : Option Nat := if hi < 0 then none else some hi.toNatClampNeg

def counted : CapNode → Bool
  | .null | .char _ | .any | .cls _ => true
  | .concat a b | .alt a b => a.counted && b.counted
  | .rep a lo _ => decide (0 ≤ lo) && a.counted
  | .group _ a => a.counted

end CapNode

/-- More than the calls that a node can lead to, in a text of `len` bytes. -/
def CapNode.weight (len : Nat) : CapNode → Nat
  | .null | .char _ | .any | .cls _ => 1
  | .concat a b | .alt a b => 1 + a.weight len + b.weight len
  | .group _ a => a.weight len + 1
  | .rep a _ hi => 1 + (most hi).getD (len + 1) * (a.weight len + 1)

/-- The span that is reported for group `x`; `pat` is -1 when it did not
participate. -/
def CapSpans.span (g : CapSpans) (x : Nat) : MatchSpan :=
  if g.gs x ≠ 0xffffffff ∧ g.ge x ≠ 0xffffffff then ⟨(g.gs x).toNat, (g.ge x).toNat, x⟩ else ⟨0, 0, -1⟩

/-- `sublimation_search_captures`: the filled part of `groups` when it returns 1,
`none` when it returns 0. -/
def searchCaptures (pat text : List UInt8) (icase : Bool) (maxGroups : Nat) : Option (List MatchSpan) :=
  if maxGroups = 0 then none
  else
    (capParse icase pat).bind fun (root, ng) =>
      (capM text icase (root.weight text.length) root [] 0 .unset).bind fun (matched, g) =>
        if matched then some ((List.range' 1 (min ng maxGroups)).map g.span) else none

/-! ## What a node can parse -/

/-- `n` steps of `R`, one behind the other. -/
def Iter (R : Nat → CapSpans → Nat → CapSpans → Prop) : Nat → Nat → CapSpans → Nat → CapSpans → Prop
  | 0, i, g, j, h => i = j ∧ g = h
  | n + 1, i, g, j, h => ∃ m gm, R i g m gm ∧ Iter R n m gm j h

/-- A byte of the text that passes `test`. -/
def ParseByte (text : List UInt8) (test : UInt8 → Bool) (i : Nat) (g : CapSpans) (j : Nat) (h : CapSpans) : Prop :=
  ∃ c, text[i]? = some c ∧ test c = true ∧ j = i + 1 ∧ g = h

/-- The most copies that fit behind `i` under the bound, and one: `maxRep` as a
number. -/
def maxCopies (text : List UInt8) (i : Nat) (hi : Int32) : Nat :=
  (CapNode.most hi).getD (text.length - i + 1)

/-- The node parses `text[i..j)`, and the groups come from `g` to `h`. -/
def CapNode.Parse (text : List UInt8) (icase : Bool) : CapNode → Nat → CapSpans → Nat → CapSpans → Prop
  | .null, i, g, j, h => i = j ∧ g = h
  | .char ch, i, g, j, h => ParseByte text (fun c => fold c icase == fold ch icase) i g j h
  | .any, i, g, j, h => ParseByte text (fun _ => true) i g j h
  | .cls set, i, g, j, h => ParseByte text set.has i g j h
  | .concat a b, i, g, j, h => ∃ m gm, a.Parse text icase i g m gm ∧ b.Parse text icase m gm j h
  | .alt a b, i, g, j, h => a.Parse text icase i g j h ∨ b.Parse text icase i g j h
  | .group x a, i, g, j, h => ∃ h', a.Parse text icase i (g.open x i) j h' ∧ h = h'.close x j
  | .rep a lo hi, i, g, j, h =>
      if hi = 0 then i = j ∧ g = h
      else ∃ cnt, least lo ≤ cnt ∧ cnt ≤ maxCopies text i hi ∧ Iter (a.Parse text icase) cnt i g j h

/-- The continuation parses the text from `i` to its end. -/
def ParseAll (text : List UInt8) (icase : Bool) : List CapCont → Nat → CapSpans → CapSpans → Prop
  | [], i, g, h => i = text.length ∧ g = h
  | .node n :: k, i, g, h => ∃ j m, n.Parse text icase i g j m ∧ ParseAll text icase k j m h
  | .mark x :: k, i, g, h => ParseAll text icase k i (g.close x i) h

/-! ## Ends that were stamped in vain -/

/-- The groups whose end is still to be stamped. -/
def marks : List CapCont → List Nat
  | [] => []
  | .node _ :: k => marks k
  | .mark x :: k => x :: marks k

/-- The same groups, up to the ends of those in `S`: a marker whose
continuation fails leaves its stamp behind, until the group is restored. -/
structure Stamped (S : List Nat) (g g' : CapSpans) : Prop where
  gs : g'.gs = g.gs
  ge : ∀ x, x ∉ S → g'.ge x = g.ge x

section
variable {text : List UInt8} {icase : Bool} {S : List Nat} {g g' m : CapSpans} {x i j : Nat}

theorem Stamped.refl : Stamped S g g := ⟨rfl, fun _ _ => rfl⟩

theorem Stamped.symm (h : Stamped S g g') : Stamped S g' g := ⟨h.gs.symm, fun x hx => (h.ge x hx).symm⟩

theorem Stamped.trans (h : Stamped S g g') (h' : Stamped S g' m) : Stamped S g m :=
  ⟨h'.gs.trans h.gs, fun x hx => (h'.ge x hx).trans (h.ge x hx)⟩

theorem Stamped.open (h : Stamped S g g') : Stamped S (g.open x i) (g'.open x i) :=
  ⟨by simp only [CapSpans.open, h.gs], h.ge⟩

theorem Stamped.close (h : Stamped (x :: S) g g') : Stamped S (g.close x i) (g'.close x i) := by
  refine ⟨h.gs, fun y hy => ?_⟩
  show Function.update g'.ge x _ y = Function.update g.ge x _ y
  by_cases hyx : y = x
  · subst hyx
    rw [Function.update_self, Function.update_self]
  · rw [Function.update_of_ne hyx, Function.update_of_ne hyx]
    exact h.ge y fun hmem => (List.mem_cons.mp hmem).elim hyx hy

theorem Stamped.weaken (h : Stamped S g g') : Stamped (x :: S) g g' :=
  ⟨h.gs, fun y hy => h.ge y fun hmem => hy (List.mem_cons_of_mem x hmem)⟩

theorem Stamped.eq (h : Stamped [] g g') : g' = g := by
  cases g
  cases g'
  obtain rfl := h.gs
  obtain rfl := funext fun x => h.ge x (List.not_mem_nil)
  rfl

theorem Stamped.restore (h : Stamped (x :: S) (g.open x i) g') : Stamped S g (g'.restore x g) := by
  refine ⟨funext fun y => ?_, fun y hy => ?_⟩
  · show Function.update g'.gs x (g.gs x) y = g.gs y
    by_cases hyx : y = x
    · subst hyx
      rw [Function.update_self]
    · rw [Function.update_of_ne hyx, h.gs]
      exact Function.update_of_ne hyx ..
  · show Function.update g'.ge x (g.ge x) y = g.ge y
    by_cases hyx : y = x
    · subst hyx
      rw [Function.update_self]
    · rw [Function.update_of_ne hyx]
      exact h.ge y fun hmem => (List.mem_cons.mp hmem).elim hyx hy

theorem iter_stamped {R : Nat → CapSpans → Nat → CapSpans → Prop}
    (hR : ∀ {i j g g' m}, R i g j m → Stamped S g g' → ∃ m', R i g' j m' ∧ Stamped S m m') (cnt : Nat) :
    ∀ {i j g g' m}, Iter R cnt i g j m → Stamped S g g' → ∃ m', Iter R cnt i g' j m' ∧ Stamped S m m' := by
  induction cnt with
  | zero =>
      rintro i j g g' m ⟨rfl, rfl⟩ hs
      exact ⟨g', ⟨rfl, rfl⟩, hs⟩
  | succ cnt ih =>
      rintro i j g g' m ⟨l, gl, hone, hrest⟩ hs
      obtain ⟨gl', hone', hs'⟩ := hR hone hs
      obtain ⟨m', hrest', hs''⟩ := ih hrest hs'
      exact ⟨m', ⟨l, gl', hone', hrest'⟩, hs''⟩

theorem CapNode.Parse.stamped {n : CapNode} : ∀ {i j : Nat} {g g' m : CapSpans}, n.Parse text icase i g j m →
    Stamped S g g' → ∃ m', n.Parse text icase i g' j m' ∧ Stamped S m m' := by
  have hbyte : ∀ {test : UInt8 → Bool} {i j : Nat} {g g' m : CapSpans}, ParseByte text test i g j m →
      Stamped S g g' → ∃ m', ParseByte text test i g' j m' ∧ Stamped S m m' := by
    rintro test i j g g' m ⟨c, hc, ht, rfl, rfl⟩ hs
    exact ⟨g', ⟨c, hc, ht, rfl, rfl⟩, hs⟩
  induction n with
  | null =>
      rintro i j g g' m ⟨rfl, rfl⟩ hs
      exact ⟨g', ⟨rfl, rfl⟩, hs⟩
  | char ch => exact hbyte
  | any => exact hbyte
  | cls set => exact hbyte
  | concat a b iha ihb =>
      rintro i j g g' m ⟨l, gl, ha, hb⟩ hs
      obtain ⟨gl', ha', hs'⟩ := iha ha hs
      obtain ⟨m', hb', hs''⟩ := ihb hb hs'
      exact ⟨m', ⟨l, gl', ha', hb'⟩, hs''⟩
  | alt a b iha ihb =>
      rintro i j g g' m (ha | hb) hs
      · obtain ⟨m', ha', hs'⟩ := iha ha hs
        exact ⟨m', .inl ha', hs'⟩
      · obtain ⟨m', hb', hs'⟩ := ihb hb hs
        exact ⟨m', .inr hb', hs'⟩
  | group x a ih =>
      rintro i j g g' _ ⟨m, ha, rfl⟩ hs
      obtain ⟨m', ha', hs'⟩ := ih ha hs.open
      exact ⟨m'.close x j, ⟨m', ha', rfl⟩, hs'.weaken.close⟩
  | rep a lo hi ih =>
      intro i j g g' m hparse hs
      rw [CapNode.Parse] at hparse
      split at hparse
      · rename_i hhi
        obtain ⟨rfl, rfl⟩ := hparse
        refine ⟨g', ?_, hs⟩
        rw [CapNode.Parse, if_pos hhi]
        exact ⟨rfl, rfl⟩
      · rename_i hhi
        obtain ⟨cnt, hlo, hmax, hiter⟩ := hparse
        obtain ⟨m', hiter', hs'⟩ := iter_stamped (R := a.Parse text icase) (fun h hs => ih h hs) cnt hiter hs
        refine ⟨m', ?_, hs'⟩
        rw [CapNode.Parse, if_neg hhi]
        exact ⟨cnt, hlo, hmax, hiter'⟩

/-- The stamps left behind do not matter for what is to be stamped. -/
theorem parseAll_stamped {k : List CapCont} (hs : Stamped (marks k) g g')
    (hparse : ParseAll text icase k i g m) : ParseAll text icase k i g' m := by
  induction k generalizing i g g' with
  | nil =>
      obtain rfl := hs.eq
      exact hparse
  | cons c k ih =>
      cases c with
      | node n =>
          obtain ⟨j, m, hn, hk⟩ := hparse
          obtain ⟨m', hn', hs'⟩ := hn.stamped hs
          exact ⟨j, m', hn', ih hs' hk⟩
      | mark x => exact ih hs.close hparse

end

/-! ## The matcher decides -/

/-- A run of the matcher decides `P`: it returns groups that meet it, or leaves
the groups as they were, up to stamps in `S`, when there are none. -/
def Decides (S : List Nat) (g : CapSpans) (P : CapSpans → Prop) (r : Option (Bool × CapSpans)) : Prop :=
  (∃ h, r = some (true, h) ∧ P h) ∨ ∃ g', r = some (false, g') ∧ Stamped S g g' ∧ ∀ h, ¬ P h

section
variable {text : List UInt8} {icase : Bool} {S : List Nat} {g : CapSpans} {P Q : CapSpans → Prop}
  {r : Option (Bool × CapSpans)}

theorem Decides.congr (h : Decides S g P r) (hPQ : ∀ x, P x ↔ Q x) : Decides S g Q r := by
  rcases h with ⟨x, hr, hP⟩ | ⟨g', hr, hs, hP⟩
  · exact .inl ⟨x, hr, (hPQ x).mp hP⟩
  · exact .inr ⟨g', hr, hs, fun x hQ => hP x ((hPQ x).mpr hQ)⟩

theorem Decides.or {next : CapSpans → Option (Bool × CapSpans)} (h : Decides S g P r)
    (hnext : ∀ g', Stamped S g g' → Decides S g' Q (next g')) :
    Decides S g (fun x => P x ∨ Q x) (r.bind fun r => if r.1 then some r else next r.2) := by
  rcases h with ⟨x, rfl, hP⟩ | ⟨g', rfl, hs, hP⟩
  · exact .inl ⟨x, rfl, .inl hP⟩
  · rcases hnext g' hs with ⟨x, hr, hQ⟩ | ⟨g'', hr, hs', hQ⟩
    · exact .inl ⟨x, hr, .inr hQ⟩
    · exact .inr ⟨g'', hr, hs.trans hs', fun x h => h.elim (hP x) (hQ x)⟩

theorem capReps_decides {round : Int32 → CapSpans → Option (Bool × CapSpans)} {R : Nat → CapSpans → Prop}
    {lo : Int32} (rounds : Nat)
    (h : ∀ d < rounds, ∀ g', Stamped S g g' → Decides S g' (R d) (round (lo + Int32.ofNat d) g')) :
    Decides S g (fun x => ∃ d < rounds, R d x) (capReps round lo rounds g) := by
  induction rounds generalizing g with
  | zero => exact .inr ⟨g, rfl, .refl, fun x ⟨d, hd, _⟩ => absurd hd (Nat.not_lt_zero d)⟩
  | succ rounds ih =>
      have hrest : ∀ g', Stamped S g g' → Decides S g' (fun x => ∃ d < rounds, R d x)
          (capReps round lo rounds g') :=
        fun g' hs => ih fun d hd g'' hs' => h d (hd.trans (Nat.lt_succ_self _)) g'' (hs.trans hs')
      refine ((h rounds (Nat.lt_succ_self _) g .refl).or hrest).congr fun x => ?_
      constructor
      · rintro (hlast | ⟨d, hd, hR⟩)
        · exact ⟨rounds, Nat.lt_succ_self _, hlast⟩
        · exact ⟨d, hd.trans (Nat.lt_succ_self _), hR⟩
      · rintro ⟨d, hd, hR⟩
        rcases Nat.lt_succ_iff_lt_or_eq.mp hd with hlt | rfl
        · exact .inr ⟨d, hlt, hR⟩
        · exact .inl hR

variable {a b : CapNode} {k : List CapCont} {x i : Nat} {h : CapSpans}

theorem parseAll_concat :
    ParseAll text icase (.node (.concat a b) :: k) i g h
      ↔ ParseAll text icase (.node a :: .node b :: k) i g h := by
  constructor
  · rintro ⟨j, m, ⟨l, gl, ha, hb⟩, hk⟩
    exact ⟨l, gl, ha, j, m, hb, hk⟩
  · rintro ⟨l, gl, ha, j, m, hb, hk⟩
    exact ⟨j, m, ⟨l, gl, ha, hb⟩, hk⟩

theorem parseAll_alt :
    ParseAll text icase (.node (.alt a b) :: k) i g h
      ↔ ParseAll text icase (.node a :: k) i g h ∨ ParseAll text icase (.node b :: k) i g h := by
  constructor
  · rintro ⟨j, m, ha | hb, hk⟩
    · exact .inl ⟨j, m, ha, hk⟩
    · exact .inr ⟨j, m, hb, hk⟩
  · rintro (⟨j, m, ha, hk⟩ | ⟨j, m, hb, hk⟩)
    · exact ⟨j, m, .inl ha, hk⟩
    · exact ⟨j, m, .inr hb, hk⟩

theorem parseAll_group :
    ParseAll text icase (.node (.group x a) :: k) i g h
      ↔ ParseAll text icase (.node a :: .mark x :: k) i (g.open x i) h := by
  constructor
  · rintro ⟨j, _, ⟨m, ha, rfl⟩, hk⟩
    exact ⟨j, m, ha, hk⟩
  · rintro ⟨j, m, ha, hk⟩
    exact ⟨j, _, ⟨m, ha, rfl⟩, hk⟩

theorem parseAll_same {n : CapNode} (hn : ∀ j m, n.Parse text icase i g j m ↔ i = j ∧ g = m) :
    ParseAll text icase (.node n :: k) i g h ↔ ParseAll text icase k i g h := by
  constructor
  · rintro ⟨j, m, hparse, hk⟩
    obtain ⟨rfl, rfl⟩ := (hn j m).mp hparse
    exact hk
  · exact fun hk => ⟨i, g, (hn i g).mpr ⟨rfl, rfl⟩, hk⟩

/-! ## The bounds as numbers -/

theorem most_ofNat {c : Nat} (hc : c < 2147483648) : CapNode.most (Int32.ofNat c) = some c := by
  have hle : ¬ Int32.ofNat c < 0 := by
    rw [Int32.lt_iff_toInt_lt, Int32.toInt_ofNat_of_lt hc, show (0 : Int32).toInt = 0 from rfl]
    omega
  rw [CapNode.most, if_neg hle, Int32.toNatClampNeg_ofNat_of_lt hc]

theorem ofNat_eq_zero_iff {c : Nat} (hc : c < 2147483648) : Int32.ofNat c = 0 ↔ c = 0 := by
  rw [kept_eq_zero_iff, kept_of_lt hc]

theorem repRest_succ (c : Nat) :
    repRest a (Int32.ofNat (c + 1))
      = if Int32.ofNat c = 0 then .null else .rep a (Int32.ofNat c) (Int32.ofNat c) := by
  have hpred : Int32.ofNat (c + 1) - 1 = Int32.ofNat c := by
    rw [Int32.ofNat_add]
    exact Int32.add_sub_cancel _ _
  rw [repRest, hpred]

variable {lo hi : Int32}

theorem maxCopies_le : maxCopies text i hi ≤ (CapNode.most hi).getD (text.length + 1) := by
  rw [maxCopies]
  cases CapNode.most hi with
  | none => exact Nat.succ_le_succ (Nat.sub_le ..)
  | some hi => exact le_refl _

/-- In a text of less than two gigabytes no count leaves the range of an `int`. -/
theorem toInt_maxRep (htext : text.length + 1 < 2147483648) :
    (maxRep text i hi).toInt = maxCopies text i hi ∧ maxCopies text i hi < 2147483648 := by
  rw [maxRep, maxCopies, CapNode.most]
  split
  · have hsucc : Int32.ofNat (text.length - i) + 1 = Int32.ofNat (text.length - i + 1) :=
      (Int32.ofNat_add _ _).symm
    rw [hsucc, Int32.toInt_ofNat_of_lt (by omega)]
    exact ⟨rfl, show text.length - i + 1 < 2147483648 by omega⟩
  · rename_i hneg
    exact ⟨(Int32.cast_toNatClampNeg hi (Int32.not_lt.mp hneg)).symm, Int32.toNatClampNeg_lt hi⟩

theorem capReps_rounds (htext : text.length + 1 < 2147483648) (hlo : 0 ≤ lo) :
    ((maxRep text i hi).toInt + 1 - lo.toInt).toNat = maxCopies text i hi + 1 - CapNode.least lo := by
  have hcast := Int32.cast_toNatClampNeg lo hlo
  rw [(toInt_maxRep htext).1, CapNode.least]
  omega

theorem add_ofNat (hlo : 0 ≤ lo) (d : Nat) : lo + Int32.ofNat d = Int32.ofNat (CapNode.least lo + d) := by
  rw [Int32.ofNat_add, CapNode.least, Int32.ofNat_toNatClampNeg lo hlo]

/-- What a repeat leaves behind its first copy parses the other copies. -/
theorem parse_repRest {c : Nat} (hc : c < 2147483648) :
    (repRest a (Int32.ofNat (c + 1))).Parse text icase = Iter (a.Parse text icase) c := by
  rw [repRest_succ]
  by_cases hzero : c = 0
  · subst hzero
    rfl
  · have hne := (ofNat_eq_zero_iff hc).not.mpr hzero
    funext i g j h
    rw [if_neg hne, CapNode.Parse, if_neg hne, maxCopies, most_ofNat hc, CapNode.least,
      Int32.toNatClampNeg_ofNat_of_lt hc]
    refine propext ⟨?_, fun hiter => ⟨c, le_refl _, le_refl _, hiter⟩⟩
    rintro ⟨cnt, hlo, hhi, hiter⟩
    obtain rfl : cnt = c := le_antisymm hhi hlo
    exact hiter

theorem parseAll_copies {cnt : Nat} (hcnt : cnt ≠ 0) (hlt : cnt < 2147483648) :
    ParseAll text icase (.node a :: .node (repRest a (Int32.ofNat cnt)) :: k) i g h
      ↔ ∃ j m, Iter (a.Parse text icase) cnt i g j m ∧ ParseAll text icase k j m h := by
  obtain ⟨c, rfl⟩ := Nat.exists_eq_succ_of_ne_zero hcnt
  have hc : c < 2147483648 := Nat.lt_of_succ_lt hlt
  constructor
  · rintro ⟨j, m, ha, l, gl, hrest, hk⟩
    rw [Nat.succ_eq_add_one, parse_repRest hc] at hrest
    exact ⟨l, gl, ⟨j, m, ha, hrest⟩, hk⟩
  · rintro ⟨l, gl, ⟨j, m, ha, hrest⟩, hk⟩
    rw [← parse_repRest hc] at hrest
    exact ⟨j, m, ha, l, gl, hrest, hk⟩

theorem parseAll_rep (hhi : hi ≠ 0) :
    ParseAll text icase (.node (.rep a lo hi) :: k) i g h
      ↔ ∃ d < maxCopies text i hi + 1 - CapNode.least lo,
          ∃ j m, Iter (a.Parse text icase) (CapNode.least lo + d) i g j m ∧ ParseAll text icase k j m h := by
  constructor
  · rintro ⟨j, m, hparse, hk⟩
    rw [CapNode.Parse, if_neg hhi] at hparse
    obtain ⟨cnt, hlo, hmax, hiter⟩ := hparse
    refine ⟨cnt - CapNode.least lo, by omega, j, m, ?_, hk⟩
    rwa [Nat.add_sub_cancel' hlo]
  · rintro ⟨d, hd, j, m, hiter, hk⟩
    refine ⟨j, m, ?_, hk⟩
    rw [CapNode.Parse, if_neg hhi]
    exact ⟨CapNode.least lo + d, Nat.le_add_right .., by omega, hiter⟩

/-! ## The matcher itself -/

theorem capK_decides {m : CapNode → List CapCont → Nat → CapSpans → Option (Bool × CapSpans)}
    (hm : ∀ n k', .node n :: k' <:+ k → ∀ g,
      Decides (marks k') g (ParseAll text icase (.node n :: k') i g) (m n k' i g)) :
    Decides (marks k) g (ParseAll text icase k i g) (capK text m k i g) := by
  induction k generalizing g with
  | nil =>
      by_cases hi : i = text.length
      · exact .inl ⟨g, by rw [capK, beq_iff_eq.mpr hi], hi, rfl⟩
      · exact .inr ⟨g, by rw [capK, beq_false_of_ne hi], .refl, fun h hparse => hi hparse.1⟩
  | cons c k ih =>
      cases c with
      | node n => exact hm n k List.suffix_rfl g
      | mark x =>
          have hrest := @ih (g.close x i) fun n k' hk => hm n k' (hk.trans (List.suffix_cons _ _))
          rcases hrest with ⟨h, hr, hparse⟩ | ⟨g', hr, hs, hnone⟩
          · exact .inl ⟨h, hr, hparse⟩
          · refine .inr ⟨g', hr, ⟨hs.gs, fun y hy => ?_⟩, hnone⟩
            obtain ⟨hyx, hyk⟩ := not_or.mp (List.mem_cons.not.mp hy)
            exact (hs.ge y hyk).trans (Function.update_of_ne hyx ..)

theorem capByte_decides {m : CapNode → List CapCont → Nat → CapSpans → Option (Bool × CapSpans)}
    {test : UInt8 → Bool} {n : CapNode} (hn : ∀ j h, n.Parse text icase i g j h ↔ ParseByte text test i g j h)
    (hk : Decides (marks k) g (ParseAll text icase k (i + 1) g) (capK text m k (i + 1) g)) :
    Decides (marks k) g (ParseAll text icase (.node n :: k) i g) (capByte text m test k i g) := by
  have hfail : (∀ c, text[i]? = some c → test c = false) →
      Decides (marks k) g (ParseAll text icase (.node n :: k) i g) (some (false, g)) := by
    refine fun hno => .inr ⟨g, rfl, .refl, fun h ⟨j, m, hparse, _⟩ => ?_⟩
    obtain ⟨c, hc, ht, -⟩ := (hn j m).mp hparse
    exact absurd ((hno c hc).symm.trans ht) Bool.false_ne_true
  rw [capByte]
  split
  · rename_i hc
    exact hfail fun c hc' => absurd (hc.symm.trans hc') nofun
  · rename_i c hc
    split
    · rename_i ht
      refine hk.congr fun h => ⟨fun hk => ⟨i + 1, g, (hn _ _).mpr ⟨c, hc, ht, rfl, rfl⟩, hk⟩, ?_⟩
      rintro ⟨j, m, hparse, hk⟩
      obtain ⟨c', -, -, rfl, rfl⟩ := (hn j m).mp hparse
      exact hk
    · rename_i ht
      refine hfail fun c' hc' => ?_
      obtain rfl := Option.some.inj (hc.symm.trans hc')
      exact Bool.eq_false_iff.mpr ht

/-- The weight of the nodes of a continuation. -/
def weights (len : Nat) : List CapCont → Nat
  | [] => 0
  | .node n :: k => n.weight len + weights len k
  | .mark _ :: k => weights len k

theorem weights_suffix {len : Nat} {k k' : List CapCont} (h : k' <:+ k) : weights len k' ≤ weights len k := by
  induction k with
  | nil => rw [List.suffix_nil.mp h]
  | cons c k ih =>
      rcases List.suffix_cons_iff.mp h with rfl | h
      · exact le_refl _
      · refine (ih h).trans ?_
        cases c with
        | node n => exact Nat.le_add_left ..
        | mark x => exact le_refl _

theorem weight_repRest {len cnt : Nat} (hcnt : cnt ≠ 0) (hlt : cnt < 2147483648) :
    a.weight len + (repRest a (Int32.ofNat cnt)).weight len = cnt * (a.weight len + 1) := by
  obtain ⟨c, rfl⟩ := Nat.exists_eq_succ_of_ne_zero hcnt
  have hc : c < 2147483648 := Nat.lt_of_succ_lt hlt
  rw [Nat.succ_eq_add_one, repRest_succ]
  by_cases hzero : c = 0
  · subst hzero
    show a.weight len + 1 = 1 * (a.weight len + 1)
    omega
  · rw [if_neg ((ofNat_eq_zero_iff hc).not.mpr hzero), CapNode.weight, most_ofNat hc, Option.getD_some,
      Nat.succ_mul c]
    omega

theorem counted_repRest {cnt : Nat} (ha : a.counted = true) (hcnt : cnt ≠ 0) (hlt : cnt < 2147483648) :
    (repRest a (Int32.ofNat cnt)).counted = true := by
  obtain ⟨c, rfl⟩ := Nat.exists_eq_succ_of_ne_zero hcnt
  rw [Nat.succ_eq_add_one, repRest_succ]
  split
  · rfl
  · refine Bool.and_eq_true_iff.mpr ⟨decide_eq_true ?_, ha⟩
    rw [Int32.le_iff_toInt_le, Int32.toInt_ofNat_of_lt (Nat.lt_of_succ_lt hlt)]
    exact Int.natCast_nonneg c

/-- The counts of a repeat, the most copies first: each is a copy and what is
left of the repeat, or, at the end, the rest alone. -/
theorem capRep_decides {fuel i : Nat} {a : CapNode} {lo hi : Int32} {k : List CapCont} {g : CapSpans}
    (htext : text.length + 1 < 2147483648) (hlo : 0 ≤ lo) (hhi : hi ≠ 0)
    (hrest : ∀ g', Decides (marks k) g' (ParseAll text icase k i g') (capK text (capM text icase fuel) k i g'))
    (hcopy : ∀ c g', c ≠ 0 → c ≤ (CapNode.most hi).getD (text.length + 1) → c < 2147483648 →
      Decides (marks k) g' (ParseAll text icase (.node a :: .node (repRest a (Int32.ofNat c)) :: k) i g')
        (capM text icase fuel a (.node (repRest a (Int32.ofNat c)) :: k) i g')) :
    Decides (marks k) g (ParseAll text icase (.node (.rep a lo hi) :: k) i g)
      (capReps (fun cnt g => if cnt = 0 then capK text (capM text icase fuel) k i g
          else capM text icase fuel a (.node (repRest a cnt) :: k) i g)
        lo ((maxRep text i hi).toInt + 1 - lo.toInt).toNat g) := by
  rw [capReps_rounds htext hlo]
  refine (capReps_decides (R := fun d h => ∃ j m,
    Iter (a.Parse text icase) (CapNode.least lo + d) i g j m ∧ ParseAll text icase k j m h) _
      fun d hd g' hs => ?_).congr fun h => (parseAll_rep hhi).symm
  have hlt : CapNode.least lo + d < 2147483648 := by
    have hmax := (@toInt_maxRep text i hi htext).2
    omega
  rw [add_ofNat hlo]
  by_cases hcnt : CapNode.least lo + d = 0
  · rw [if_pos ((ofNat_eq_zero_iff hlt).mpr hcnt), hcnt]
    refine (hrest g').congr fun h => ?_
    constructor
    · exact fun hk => ⟨i, g, ⟨rfl, rfl⟩, parseAll_stamped hs.symm hk⟩
    · rintro ⟨j, m, ⟨rfl, rfl⟩, hk⟩
      exact parseAll_stamped hs hk
  · rw [if_neg ((ofNat_eq_zero_iff hlt).not.mpr hcnt)]
    have hle : CapNode.least lo + d ≤ (CapNode.most hi).getD (text.length + 1) := by
      have hmax := @maxCopies_le text i hi
      omega
    refine (hcopy _ g' hcnt hle hlt).congr fun h => Iff.trans ⟨?_, ?_⟩ (parseAll_copies hcnt hlt)
    · exact parseAll_stamped (k := .node a :: .node (repRest a _) :: k) hs.symm
    · exact parseAll_stamped (k := .node a :: .node (repRest a _) :: k) hs

/-- **The matcher**: it returns exactly when the nodes can parse the rest of the
text, with groups of a parse, and otherwise leaves the groups alone. -/
theorem capM_spec (htext : text.length + 1 < 2147483648) (fuel : Nat) :
    ∀ (n : CapNode) (k : List CapCont) (i : Nat) (g : CapSpans), n.counted = true →
      (∀ n', .node n' ∈ k → n'.counted = true) → n.weight text.length + weights text.length k ≤ fuel →
        Decides (marks k) g (ParseAll text icase (.node n :: k) i g) (capM text icase fuel n k i g) := by
  induction fuel with
  | zero =>
      intro n k i g _ _ hfuel
      have hpos : 0 < n.weight text.length := by
        cases n <;> simp only [CapNode.weight] <;> omega
      omega
  | succ fuel ih =>
      intro n k i g hn hk hfuel
      -- the rest of the nodes, once `n` is dealt with
      have hrest : ∀ (j : Nat) (m : CapSpans), weights text.length k ≤ fuel →
          Decides (marks k) m (ParseAll text icase k j m) (capK text (capM text icase fuel) k j m) := by
        intro j m hle
        refine capK_decides fun n' k' hsuf m' => ih n' k' j m' ?_ (fun n'' hmem => ?_) ?_
        · exact hk n' (hsuf.subset (List.mem_cons_self ..))
        · exact hk n'' (hsuf.subset (List.mem_cons_of_mem _ hmem))
        · exact (weights_suffix hsuf).trans hle
      -- one node more in front of them
      have hcons : ∀ b : CapNode, b.counted = true → ∀ n', .node n' ∈ CapCont.node b :: k →
          n'.counted = true := by
        intro b hb n' hmem
        rcases List.mem_cons.mp hmem with heq | hmem
        · rw [CapCont.node.inj heq]
          exact hb
        · exact hk n' hmem
      cases n with
      | null =>
          simp only [CapNode.weight] at hfuel
          refine (hrest i g (by omega)).congr fun h => ?_
          exact (parseAll_same fun j m => Iff.rfl).symm
      | char ch =>
          simp only [CapNode.weight] at hfuel
          exact capByte_decides (fun j h => Iff.rfl) (hrest _ _ (by omega))
      | any =>
          simp only [CapNode.weight] at hfuel
          exact capByte_decides (fun j h => Iff.rfl) (hrest _ _ (by omega))
      | cls set =>
          simp only [CapNode.weight] at hfuel
          exact capByte_decides (fun j h => Iff.rfl) (hrest _ _ (by omega))
      | concat a b =>
          simp only [CapNode.weight] at hfuel
          obtain ⟨ha, hb⟩ := Bool.and_eq_true_iff.mp hn
          refine (ih a (.node b :: k) i g ha (hcons b hb) ?_).congr fun h => parseAll_concat.symm
          rw [weights]
          omega
      | alt a b =>
          simp only [CapNode.weight] at hfuel
          obtain ⟨ha, hb⟩ := Bool.and_eq_true_iff.mp hn
          refine ((ih a k i g ha hk (by omega)).or fun g' hs => ?_).congr fun h => parseAll_alt.symm
          refine (ih b k i g' hb hk (by omega)).congr fun h => ⟨?_, ?_⟩
          · exact parseAll_stamped (k := .node b :: k) hs.symm
          · exact parseAll_stamped (k := .node b :: k) hs
      | group x a =>
          simp only [CapNode.weight] at hfuel
          have hmark : ∀ n', .node n' ∈ CapCont.mark x :: k → n'.counted = true := by
            intro n' hmem
            rcases List.mem_cons.mp hmem with heq | hmem
            · cases heq
            · exact hk n' hmem
          have hbody := ih a (.mark x :: k) i (g.open x i) hn hmark (by rw [weights]; omega)
          rw [capM]
          rcases hbody with ⟨h, hrun, hparse⟩ | ⟨g', hrun, hs, hnone⟩
          · exact .inl ⟨h, by rw [hrun]; rfl, parseAll_group.mpr hparse⟩
          · refine .inr ⟨g'.restore x g, by rw [hrun]; rfl, Stamped.restore hs, fun h hparse => ?_⟩
            exact hnone h (parseAll_group.mp hparse)
      | rep a lo hi =>
          simp only [CapNode.weight] at hfuel
          obtain ⟨hlo, ha⟩ := Bool.and_eq_true_iff.mp hn
          replace hlo := of_decide_eq_true hlo
          rw [capM]
          by_cases hhi : hi = 0
          · rw [if_pos hhi]
            refine (hrest i g (by omega)).congr fun h => (parseAll_same fun j m => ?_).symm
            rw [CapNode.Parse, if_pos hhi]
          · rw [if_neg hhi]
            refine capRep_decides htext hlo hhi (fun g' => hrest i g' (by omega)) fun c g' hcnt hle hlt => ?_
            refine ih a _ i g' ha (hcons _ (counted_repRest ha hcnt hlt)) ?_
            have hmul := Nat.mul_le_mul_right (a.weight text.length + 1) hle
            have hweight := @weight_repRest a text.length c hcnt hlt
            rw [weights]
            omega

end

end Montauk
