import Montauk.Text.Items
import Montauk.Text.Widen

/-!
# The width a pattern gets

`build_gnfa` builds the narrow field first and takes the wide one only when
the narrow build stopped at its cap. Whether it did is not a matter of the
positions alone: after a refused position every function the parser still
has open looks at the text once more, and a `{0}` there hands a position
back. `Walk` reads a pattern for its positions up to the first one that is
refused, and keeps what is open there; `unwind` is what the open functions
do to the count on the way out.
-/

namespace Montauk

/-! ## The walk -/

/-- What the parser has open around an atom: a group that waits for its
`)`, or an atom allocated from position `posBefore` on that waits for its
quantifier. -/
inductive Open where
  | paren
  | quant (posBefore : Nat)
deriving DecidableEq

/-- A pattern read for its positions: `ok` with the cursor and the count,
`bad` where the grammar has no tree, `stuck` where a position is refused,
with the text there and what is open, innermost first. -/
inductive Walk where
  | ok (s : PPos) (n : Nat)
  | bad
  | stuck (p : List UInt8) (opens : List Open)

namespace Walk

def bind : Walk → (PPos → Nat → Walk) → Walk
  | ok s n, f => f s n
  | bad, _ => bad
  | stuck p opens, _ => stuck p opens

/-- The walk of a part, inside of `o`. -/
def inside (o : Open) : Walk → Walk
  | ok s n => ok s n
  | bad => bad
  | stuck p opens => stuck p (opens ++ [o])

end Walk

variable (w : Nat) (icase : Bool)

def wPosAtom (s : PPos) (n : Nat) : Walk :=
  if w ≤ n then .stuck s.p []
  else
    match pPosAtom icase s with
    | some (_, s') => .ok s' (n + 1)
    | none => .bad

def wAtom (walt : PPos → Nat → Walk) (s : PPos) (n : Nat) : Walk :=
  if s.cur = Ch.lparen then
    ((walt s.adv n).inside .paren).bind fun s n =>
      if s.cur = Ch.rparen then .ok s.adv n else .bad
  else
    match foldClass? icase s.p s.foldLeft with
    | some (k, members) =>
        if w < n + (foldBranches s.p k members).flatten.length then .stuck s.p []
        else .ok { s with p := s.p.drop k } (n + (foldBranches s.p k members).flatten.length)
    | none => wPosAtom w icase s n

def wBrace (posBefore : Nat) (s : PPos) (n : Nat) : Walk :=
  if n ≠ posBefore + 1 then .bad
  else
    let b := readBounds s.adv.p
    match b.hi with
    | none => .bad
    | some hi =>
        if !b.haslo || b.rest.headD 0 != Ch.rbrace || refused hi then .bad
        else if kept hi = 0 then .ok { s with p := b.rest.tail } posBefore
        else if w < n + (kept hi - 1) then .stuck b.rest.tail []
        else .ok { s with p := b.rest.tail } (n + (kept hi - 1))

/-- The quantifier of an atom allocated from `posBefore` on. -/
def wTail (posBefore : Nat) (s : PPos) (n : Nat) : Walk :=
  if s.cur = Ch.star then .ok s.adv n
  else if s.cur = Ch.plus then .ok s.adv n
  else if s.cur = Ch.quest then .ok s.adv n
  else if s.cur = Ch.lbrace then wBrace w posBefore s n
  else .ok s n

def wRepeat (walt : PPos → Nat → Walk) (s : PPos) (n : Nat) : Walk :=
  ((wAtom w icase walt s n).inside (.quant n)).bind (wTail w n)

def wConcatLoop (walt : PPos → Nat → Walk) : Nat → PPos → Nat → Walk
  | 0, s, n => .ok s n
  | k + 1, s, n =>
      if concatGoes s.cur then (wRepeat w icase walt s n).bind (wConcatLoop walt k)
      else .ok s n

def wConcat (walt : PPos → Nat → Walk) (s : PPos) (n : Nat) : Walk :=
  wConcatLoop w icase walt (s.p.length + 1) s n

def wAltLoop (walt : PPos → Nat → Walk) : Nat → PPos → Nat → Walk
  | 0, s, n => .ok s n
  | k + 1, s, n =>
      if s.cur = Ch.bar then (wConcat w icase walt s.adv n).bind (wAltLoop walt k)
      else .ok s n

def wAltWith (walt : PPos → Nat → Walk) (s : PPos) (n : Nat) : Walk :=
  (wConcat w icase walt s n).bind fun s n => wAltLoop w icase walt (s.p.length + 1) s n

def wAlt : Nat → PPos → Nat → Walk
  | 0, _, _ => .bad
  | d + 1, s, n => wAltWith w icase (wAlt d) s n

def walkBody (body : List UInt8) : Walk := wAlt w icase (body.length + 1) ⟨body, 0, 0⟩ 0

/-! ## The way out -/

/-- What a brace quantifier does after a failure: the text behind it and the
count. -/
def closeBrace (posBefore : Nat) (p : List UInt8) (n : Nat) : List UInt8 × Nat :=
  if n ≠ posBefore + 1 then (p, n)
  else
    let b := readBounds p.tail
    match b.hi with
    | none => (b.rest, n)
    | some hi =>
        if !b.haslo || b.rest.headD 0 != Ch.rbrace || refused hi then (b.rest, n)
        else if kept hi = 0 then (b.rest.tail, posBefore)
        else (b.rest.tail, min w (n + (kept hi - 1)))

/-- What one open function does after a failure. -/
def closeOne (r : List UInt8 × Nat) : Open → List UInt8 × Nat
  | .paren => if r.1.headD 0 = Ch.rparen then (r.1.tail, r.2) else r
  | .quant posBefore =>
      if r.1.headD 0 = Ch.star then (r.1.tail, r.2)
      else if r.1.headD 0 = Ch.plus then (r.1.tail, r.2)
      else if r.1.headD 0 = Ch.quest then (r.1.tail, r.2)
      else if r.1.headD 0 = Ch.lbrace then closeBrace w posBefore r.1 r.2
      else r

/-- The text and the count after everything open has returned. -/
def unwind (opens : List Open) (r : List UInt8 × Nat) : List UInt8 × Nat :=
  opens.foldl (closeOne w) r

/-! ## The walk and the grammar -/

/-- A walk from count `n` against what the grammar reads there. -/
def Agrees (n : Nat) (o : Option (Re × PPos)) : Walk → Prop
  | .ok s n' => ∃ t, o = some (t, s) ∧ n' = n + t.sets.length
  | .bad => o = none
  | .stuck _ _ => True

section

variable {w : Nat} {icase : Bool} {palt : PPos → Option (Re × PPos)} {walt : PPos → Nat → Walk}

theorem Agrees.bind {m n : Nat} {o : Option (Re × PPos)} {k : Re × PPos → Option (Re × PPos)}
    {W : Walk} {f : PPos → Nat → Walk} (h : Agrees m o W)
    (hk : ∀ t s, Agrees n (k (t, s)) (f s (m + t.sets.length))) : Agrees n (o.bind k) (W.bind f) := by
  cases W with
  | ok s n' =>
      obtain ⟨t, rfl, rfl⟩ := h
      exact hk t s
  | bad =>
      have ho : o = none := h
      rw [ho]
      exact rfl
  | stuck p opens => exact trivial

theorem Agrees.inside {n : Nat} {o : Option (Re × PPos)} {W : Walk} (h : Agrees n o W) (q : Open) :
    Agrees n o (W.inside q) := by
  cases W with
  | ok s n' => exact h
  | bad => exact h
  | stuck p opens => exact trivial

theorem sets_markStacked (t : Re) (s : PPos) : (markStacked t s).1.sets = t.sets := by
  rw [markStacked]
  split <;> rfl

theorem Agrees.marked {n n' : Nat} {t : Re} {s : PPos} (hn : n' = n + t.sets.length) :
    Agrees n (some (markStacked t s)) (.ok s n') :=
  ⟨(markStacked t s).1, rfl, by rw [sets_markStacked, hn]⟩

theorem sets_pPosAtom {s s' : PPos} {t : Re} (h : pPosAtom icase s = some (t, s')) :
    t.sets.length = 1 := by
  rw [pPosAtom] at h
  split at h
  · obtain ⟨rfl, -⟩ := Prod.mk.inj (Option.some.inj h)
    rfl
  split at h
  · obtain ⟨r, -, hr⟩ := Option.map_eq_some_iff.mp h
    obtain ⟨rfl, -⟩ := Prod.mk.inj hr
    rfl
  split at h
  · split at h
    · obtain ⟨rfl, -⟩ := Prod.mk.inj (Option.some.inj h)
      rfl
    · obtain ⟨rfl, -⟩ := Prod.mk.inj (Option.some.inj h)
      rfl
  · obtain ⟨rfl, -⟩ := Prod.mk.inj (Option.some.inj h)
    rfl

theorem agrees_wPosAtom (s : PPos) (n : Nat) :
    Agrees n (pPosAtom icase s) (wPosAtom w icase s n) := by
  rw [wPosAtom]
  split
  · exact trivial
  · cases h : pPosAtom icase s with
    | none => exact rfl
    | some r =>
        obtain ⟨t, s'⟩ := r
        exact ⟨t, rfl, by rw [sets_pPosAtom h]⟩

theorem agrees_wAtom (halt : ∀ s n, Agrees n (palt s) (walt s n)) (s : PPos) (n : Nat) :
    Agrees n (pAtom icase palt s) (wAtom w icase walt s n) := by
  rw [pAtom, wAtom]
  by_cases hlp : s.cur = Ch.lparen
  · rw [if_pos hlp, if_pos hlp]
    refine ((halt s.adv n).inside .paren).bind fun t s' => ?_
    by_cases hrp : s'.cur = Ch.rparen
    · rw [if_pos hrp, if_pos hrp]
      exact ⟨.group t, rfl, rfl⟩
    · rw [if_neg hrp, if_neg hrp]
      exact rfl
  · rw [if_neg hlp, if_neg hlp]
    cases foldClass? icase s.p s.foldLeft with
    | none => exact agrees_wPosAtom s n
    | some r =>
        obtain ⟨k, members⟩ := r
        dsimp only
        split
        · exact trivial
        · exact ⟨_, rfl, by rw [Re.sets, List.length_map]⟩

theorem agrees_wBrace (t : Re) (s : PPos) (n : Nat) :
    Agrees n (pBrace t s) (wBrace w n s (n + t.sets.length)) := by
  rw [pBrace, wBrace]
  by_cases hone : t.sets.length = 1
  · have hone' : ¬ n + t.sets.length ≠ n + 1 := by omega
    rw [if_neg hone', if_neg (not_not.mpr hone)]
    dsimp only
    cases (readBounds s.adv.p).hi with
    | none => exact rfl
    | some hi =>
        dsimp only
        split
        · exact rfl
        by_cases hzero : kept hi = 0
        · rw [if_pos hzero]
          refine Agrees.marked ?_
          rw [Re.sets, if_pos hzero]
          rfl
        · rw [if_neg hzero]
          split
          · exact trivial
          · refine Agrees.marked ?_
            rw [Re.sets, if_neg hzero, List.length_append, List.length_replicate, Nat.add_assoc]
  · have hone' : n + t.sets.length ≠ n + 1 := by omega
    rw [if_pos hone', if_pos hone]
    exact rfl

theorem agrees_wRepeat (halt : ∀ s n, Agrees n (palt s) (walt s n)) (s : PPos) (n : Nat) :
    Agrees n (pRepeat icase palt s) (wRepeat w icase walt s n) := by
  refine ((agrees_wAtom halt s n).inside (.quant n)).bind fun t s' => ?_
  rw [wTail]
  dsimp only
  split
  · exact Agrees.marked rfl
  split
  · exact Agrees.marked rfl
  split
  · exact Agrees.marked rfl
  split
  · exact agrees_wBrace t s' n
  · exact ⟨t, rfl, rfl⟩

theorem length_sets_catItem (acc : Option Re) (b : Re) :
    (catItem acc b).sets.length = (acc.getD .empty).sets.length + b.sets.length := by
  cases acc with
  | none => rw [catItem, Option.getD_none, Re.sets, List.length_nil, Nat.zero_add]
  | some a => rw [catItem, Option.getD_some, Re.sets, List.length_append]

theorem agrees_wConcatLoop (halt : ∀ s n, Agrees n (palt s) (walt s n)) (n : Nat) :
    ∀ (k : Nat) (acc : Option Re) (s : PPos),
      Agrees n (pConcatLoop icase palt k acc s)
        (wConcatLoop w icase walt k s (n + (acc.getD .empty).sets.length))
  | 0, acc, s => ⟨_, rfl, rfl⟩
  | k + 1, acc, s => by
      rw [pConcatLoop, wConcatLoop]
      split
      · refine (agrees_wRepeat halt s _).bind fun t s' => ?_
        have ih := agrees_wConcatLoop halt n k (some (catItem acc t)) s'
        rw [Option.getD_some, length_sets_catItem, ← Nat.add_assoc] at ih
        exact ih
      · exact ⟨_, rfl, rfl⟩

theorem agrees_wConcat (halt : ∀ s n, Agrees n (palt s) (walt s n)) (s : PPos) (n : Nat) :
    Agrees n (pConcat icase palt s) (wConcat w icase walt s n) :=
  agrees_wConcatLoop halt n _ none s

theorem agrees_wAltLoop (halt : ∀ s n, Agrees n (palt s) (walt s n)) (n : Nat) :
    ∀ (k : Nat) (a : Re) (s : PPos),
      Agrees n (pAltLoop icase palt k a s) (wAltLoop w icase walt k s (n + a.sets.length))
  | 0, a, s => ⟨a, rfl, rfl⟩
  | k + 1, a, s => by
      rw [pAltLoop, wAltLoop]
      split
      · refine (agrees_wConcat halt s.adv _).bind fun t s' => ?_
        have ih := agrees_wAltLoop halt n k (.alt a t) s'
        rw [Re.sets, List.length_append, ← Nat.add_assoc] at ih
        exact ih
      · exact ⟨a, rfl, rfl⟩

theorem agrees_wAltWith (halt : ∀ s n, Agrees n (palt s) (walt s n)) (s : PPos) (n : Nat) :
    Agrees n (pAltWith icase palt s) (wAltWith w icase walt s n) :=
  (agrees_wConcat halt s n).bind fun t s' => agrees_wAltLoop halt n _ t s'

/-- Where the walk goes through it is at the grammar's end of the tree, and
where it finds no tree there is none. -/
theorem agrees_wAlt : ∀ (d : Nat) (s : PPos) (n : Nat),
    Agrees n (pAlt icase d s) (wAlt w icase d s n)
  | 0, _, _ => rfl
  | d + 1, s, n => agrees_wAltWith (agrees_wAlt d) s n

end

/-! ## The parser and the walk -/

section

variable {w : Nat} {ic : Bool}

/-- A parser state `n` positions after `x`, as far as there was room. -/
structure Grown (x y : GPar w) (n : Nat) : Prop where
  pos : y.pos = x.pos
  icase : y.g.icase = x.g.icase
  npos : y.g.npos = min w (x.g.npos + n)
  ok : y.g.ok = (x.g.ok && decide (x.g.npos + n ≤ w))

theorem Grown.refl {x : GPar w} (hle : x.g.npos ≤ w) : Grown x x 0 where
  pos := rfl
  icase := rfl
  npos := (Nat.min_eq_right hle).symm
  ok := by rw [Nat.add_zero, decide_eq_true hle, Bool.and_true]

theorem Grown.full {x : GPar w} (hle : x.g.npos ≤ w) (hfull : w ≤ x.g.npos) (n : Nat) :
    Grown x x.fail (n + 1) where
  pos := rfl
  icase := rfl
  npos := by
    show x.g.npos = _
    omega
  ok := by
    have hno : ¬ x.g.npos + (n + 1) ≤ w := by omega
    rw [decide_eq_false hno, Bool.and_false]
    rfl

theorem Grown.succ {x y z : GPar w} {n : Nat} (h : Grown y z n) (hpos : y.pos = x.pos)
    (hic : y.g.icase = x.g.icase) (hnpos : y.g.npos = x.g.npos + 1) (hok : y.g.ok = x.g.ok) :
    Grown x z (n + 1) where
  pos := h.pos.trans hpos
  icase := h.icase.trans hic
  npos := by rw [h.npos, hnpos, Nat.add_assoc, Nat.add_comm 1 n]
  ok := by rw [h.ok, hok, hnpos, Nat.add_assoc, Nat.add_comm 1 n]

theorem Grown.npos_le {x y : GPar w} {n : Nat} (h : Grown x y n) : y.g.npos ≤ w :=
  h.npos ▸ Nat.min_le_left _ _

theorem Grown.trans {x y z : GPar w} {m n : Nat} (h : Grown x y m) (h' : Grown y z n) :
    Grown x z (m + n) where
  pos := h'.pos.trans h.pos
  icase := h'.icase.trans h.icase
  npos := by
    rw [h'.npos, h.npos]
    omega
  ok := by
    rw [h'.ok, h.ok, h.npos, Bool.and_assoc, ← Bool.decide_and]
    refine congrArg _ (decide_eq_decide.mpr ?_)
    omega

theorem Grown.refused {x y : GPar w} {m : Nat} (h : Grown x y m) (hx : x.g.ok = true)
    (hy : y.g.ok = false) (n : Nat) : Grown x y (m + n) where
  pos := h.pos
  icase := h.icase
  npos := by
    have hno := h.ok.symm.trans hy
    rw [hx, Bool.true_and, decide_eq_false_iff_not] at hno
    rw [h.npos]
    omega
  ok := by
    have hno := h.ok.symm.trans hy
    rw [hx, Bool.true_and, decide_eq_false_iff_not] at hno
    have hno' : ¬ x.g.npos + (m + n) ≤ w := by omega
    rw [hy, decide_eq_false hno', Bool.and_false]

theorem gBytesLoop_grown :
    ∀ (bs : List UInt8) (fl : Option (Nat × Nat)) (x : GPar w), x.g.npos ≤ w →
      Grown x (gBytesLoop bs fl x).2 bs.length
  | [], none, x, hle => .refl hle
  | [], some (_, _), x, hle => .refl hle
  | b :: bs, fl, x, hle => by
      rw [gBytesLoop]
      split
      · rename_i hfull
        exact .full hle hfull _
      · rename_i hroom
        have hroom : x.g.npos + 1 ≤ w := Nat.not_le.mp hroom
        cases fl with
        | none => exact (gBytesLoop_grown bs _ (x.newPos _) hroom).succ rfl rfl rfl rfl
        | some q =>
            obtain ⟨f, l⟩ := q
            exact (gBytesLoop_grown bs _ ((x.newPos _).link _ _) hroom).succ rfl rfl rfl rfl

theorem repCopies_grown (S : ByteSet) (lo : Int32) :
    ∀ (n ci : Nat) (a : GAttr w) (x : GPar w), x.g.npos ≤ w →
      Grown x (repCopies S lo n ci a x).2 n
  | 0, _, _, x, hle => .refl hle
  | n + 1, ci, a, x, hle => by
      rw [repCopies]
      split
      · rename_i hfull
        exact .full hle hfull _
      · rename_i hroom
        have hroom : x.g.npos + 1 ≤ w := Nat.not_le.mp hroom
        exact (repCopies_grown S lo n _ _ ((x.newPos S).link _ _) hroom).succ rfl rfl rfl rfl

theorem gFoldMembers_grown :
    ∀ (ms : List Nat) (a : GAttr w) (x : GPar w), x.g.ok = true → x.g.npos ≤ w →
      Grown x (gFoldMembers ms a x).2 (encodedMembers ms).flatten.length
  | [], _, x, _, hle => .refl hle
  | m :: ms, a, x, hok, hle => by
      rw [gFoldMembers, if_pos hok, encodedMembers_cons]
      by_cases hm : u8Encode m = []
      · rw [if_pos hm, if_pos hm]
        exact gFoldMembers_grown ms a x hok hle
      · rw [if_neg hm, if_neg hm, List.flatten_cons, List.length_append]
        have h := gBytesLoop_grown (u8Encode m) none x hle
        show Grown x (gFoldMembers ms _ (gBytes x (u8Encode m)).2).2 _
        change Grown x (gBytes x (u8Encode m)).2 _ at h
        by_cases hy : (gBytes x (u8Encode m)).2.g.ok = true
        · exact h.trans (gFoldMembers_grown ms _ _ hy h.npos_le)
        · have hy := Bool.eq_false_iff.mpr hy
          rw [gFoldMembers_failed ms _ hy]
          exact h.refused hok hy _

/-- The parser's result `r` is where the walk says. -/
def Follows (ic : Bool) (r : GAttr w × GPar w) : Walk → Prop
  | .ok s n => r.2.g.ok = true ∧ r.2.pos = s ∧ r.2.g.npos = n ∧ n ≤ w ∧ r.2.g.icase = ic
  | .bad => r.2.g.ok = false
  | .stuck p opens => r.2.g.ok = false ∧ (r.2.p, r.2.g.npos) = unwind w opens (p, w)

theorem closeOne_le {r : List UInt8 × Nat} (h : r.2 ≤ w) (o : Open) : (closeOne w r o).2 ≤ w := by
  cases o with
  | paren =>
      rw [closeOne]
      split <;> exact h
  | quant posBefore =>
      rw [closeOne]
      split
      · exact h
      split
      · exact h
      split
      · exact h
      split
      · rw [closeBrace]
        split
        · exact h
        rename_i hone
        dsimp only
        split
        · exact h
        split
        · exact h
        split
        · show posBefore ≤ w
          omega
        · exact Nat.min_le_left _ _
      · exact h

theorem unwind_le (opens : List Open) {r : List UInt8 × Nat} (h : r.2 ≤ w) :
    (unwind w opens r).2 ≤ w := by
  induction opens generalizing r with
  | nil => exact h
  | cons o opens ih => exact ih (closeOne_le h o)

theorem Follows.bind {r r' : GAttr w × GPar w} {W : Walk} {f : PPos → Nat → Walk}
    (h : Follows ic r W)
    (hok : r.2.g.ok = true → r.2.g.icase = ic → r.2.g.npos ≤ w →
      Follows ic r' (f r.2.pos r.2.g.npos))
    (hfail : r.2.g.ok = false →
      r'.2.g.ok = false ∧ (r'.2.p, r'.2.g.npos) = (r.2.p, r.2.g.npos)) :
    Follows ic r' (W.bind f) := by
  cases W with
  | ok s n =>
      obtain ⟨h1, rfl, rfl, h2, h3⟩ := h
      exact hok h1 h3 h2
  | bad => exact (hfail h).1
  | stuck p opens => exact ⟨(hfail h.1).1, (hfail h.1).2.trans h.2⟩

theorem Follows.close {o : Open} {r r' : GAttr w × GPar w} {W : Walk} {f : PPos → Nat → Walk}
    (h : Follows ic r W)
    (hok : r.2.g.ok = true → r.2.g.icase = ic → r.2.g.npos ≤ w →
      Follows ic r' (f r.2.pos r.2.g.npos))
    (hfail : r.2.g.ok = false → r'.2.g.ok = false)
    (hclose : r.2.g.npos ≤ w → r.2.g.ok = false →
      (r'.2.p, r'.2.g.npos) = closeOne w (r.2.p, r.2.g.npos) o) :
    Follows ic r' ((W.inside o).bind f) := by
  cases W with
  | ok s n =>
      obtain ⟨h1, rfl, rfl, h2, h3⟩ := h
      exact hok h1 h3 h2
  | bad => exact hfail h
  | stuck p opens =>
      have hle : r.2.g.npos ≤ w := by
        have hn := unwind_le opens (r := (p, w)) le_rfl
        rwa [← h.2] at hn
      refine ⟨hfail h.1, ?_⟩
      rw [hclose hle h.1, h.2, unwind, unwind, List.foldl_append]
      rfl

theorem follows_gPosAtom {x : GPar w} (hok : x.g.ok = true) (hic : x.g.icase = ic)
    (hle : x.g.npos ≤ w) : Follows ic (gPosAtom x) (wPosAtom w ic x.pos x.g.npos) := by
  subst hic
  rw [gPosAtom, wPosAtom]
  by_cases hfull : w ≤ x.g.npos
  · rw [if_pos hfull, if_pos hfull]
    have hw : x.g.npos = w := Nat.le_antisymm hle hfull
    exact ⟨rfl, congrArg (Prod.mk x.p) hw⟩
  rw [if_neg hfull, if_neg hfull, pPosAtom]
  have hroom : x.g.npos + 1 ≤ w := Nat.not_le.mp hfull
  by_cases hdot : x.cur = Ch.dot
  · rw [if_pos hdot, if_pos (show x.pos.cur = Ch.dot from hdot)]
    exact ⟨hok, rfl, rfl, hroom, rfl⟩
  rw [if_neg hdot, if_neg (show ¬ x.pos.cur = Ch.dot from hdot)]
  by_cases hbrack : x.cur = Ch.lbrack
  · rw [if_pos hbrack, if_pos (show x.pos.cur = Ch.lbrack from hbrack)]
    have htext : x.pos.p = x.p := rfl
    rw [htext]
    cases classSpan x.p x.g.icase with
    | none => exact rfl
    | some r => exact ⟨hok, rfl, rfl, hroom, rfl⟩
  rw [if_neg hbrack, if_neg (show ¬ x.pos.cur = Ch.lbrack from hbrack)]
  by_cases hesc : x.cur = Ch.backslash ∧ x.adv.cur ≠ 0
  · rw [if_pos hesc, if_pos (show x.pos.cur = Ch.backslash ∧ x.pos.adv.cur ≠ 0 from hesc)]
    have hadv : x.pos.adv.cur = x.adv.cur := rfl
    rw [hadv]
    cases shorthandSet x.adv.cur with
    | none => exact ⟨hok, rfl, rfl, hroom, rfl⟩
    | some S => exact ⟨hok, rfl, rfl, hroom, rfl⟩
  · rw [if_neg hesc, if_neg (show ¬ (x.pos.cur = Ch.backslash ∧ x.pos.adv.cur ≠ 0) from hesc)]
    exact ⟨hok, rfl, rfl, hroom, rfl⟩

/-- What the functions below ask of the parser of a nested alternation. -/
def WalkSpec (ic : Bool) (alt : GPar w → GAttr w × GPar w) (walt : PPos → Nat → Walk) : Prop :=
  ∀ x : GPar w, x.g.ok = true → x.g.icase = ic → x.g.npos ≤ w →
    Follows ic (alt x) (walt x.pos x.g.npos)

variable {alt : GPar w → GAttr w × GPar w} {walt : PPos → Nat → Walk}

theorem gFolds_grown {x : GPar w} (hok : x.g.ok = true) (hle : x.g.npos ≤ w) (n : Nat)
    (ms : List Nat) :
    Grown x (gFoldMembers ms (gBytes x (x.p.take n)).1 (gBytes x (x.p.take n)).2).2
      (foldBranches x.p n ms).flatten.length := by
  have h : Grown x (gBytes x (x.p.take n)).2 (x.p.take n).length := gBytesLoop_grown _ none x hle
  have hlen : (foldBranches x.p n ms).flatten.length
      = (x.p.take n).length + (encodedMembers ms).flatten.length := by
    rw [foldBranches, List.flatten_cons, List.length_append]
    rfl
  rw [hlen]
  by_cases hy : (gBytes x (x.p.take n)).2.g.ok = true
  · exact h.trans (gFoldMembers_grown ms _ _ hy h.npos_le)
  · have hy := Bool.eq_false_iff.mpr hy
    rw [gFoldMembers_failed ms _ hy]
    exact h.refused hok hy _

theorem follows_gAtom (halt : WalkSpec ic alt walt) {x : GPar w} (hok : x.g.ok = true)
    (hic : x.g.icase = ic) (hle : x.g.npos ≤ w) :
    Follows ic (gAtom alt x) (wAtom w ic walt x.pos x.g.npos) := by
  rw [wAtom]
  by_cases hlp : x.cur = Ch.lparen
  · rw [if_pos (show x.pos.cur = Ch.lparen from hlp), gAtom, if_pos hlp]
    have h := halt x.adv hok hic hle
    rcases hr : alt x.adv with ⟨a, y⟩
    rw [hr] at h
    show Follows ic (if y.cur = Ch.rparen then (a, y.adv) else (a, y.fail)) _
    refine h.close (fun hy hyic hyle => ?_) (fun hy => ?_) (fun _ _ => ?_)
    · show Follows ic _ (if y.cur = Ch.rparen then .ok y.adv.pos y.g.npos else .bad)
      by_cases hrp : y.cur = Ch.rparen
      · rw [if_pos hrp, if_pos hrp]
        exact ⟨hy, rfl, rfl, hyle, hyic⟩
      · rw [if_neg hrp, if_neg hrp]
        exact rfl
    · split
      · exact hy
      · rfl
    · show _ = if y.cur = Ch.rparen then (y.p.tail, y.g.npos) else (y.p, y.g.npos)
      by_cases hrp : y.cur = Ch.rparen
      · rw [if_pos hrp, if_pos hrp]
        rfl
      · rw [if_neg hrp, if_neg hrp]
        rfl
  · rw [if_neg (show ¬ x.pos.cur = Ch.lparen from hlp)]
    have htext : x.pos.p = x.p := rfl
    have hleft : x.pos.foldLeft = x.foldLeft := rfl
    rw [htext, hleft, ← hic]
    cases hcls : foldClass? x.g.icase x.p x.foldLeft with
    | none =>
        have hatom : gAtom alt x = gPosAtom x := by rw [gAtom, if_neg hlp, hcls]
        rw [hatom]
        exact follows_gPosAtom hok rfl hle
    | some q =>
        obtain ⟨n, ms⟩ := q
        have h := gFolds_grown hok hle n ms
        rw [gAtom_folds_eq hlp hcls]
        generalize gFoldMembers ms (gBytes x (x.p.take n)).1 (gBytes x (x.p.take n)).2 = r at h ⊢
        dsimp only
        by_cases hfit : x.g.npos + (foldBranches x.p n ms).flatten.length ≤ w
        · have hr : r.2.g.ok = true := by rw [h.ok, hok, decide_eq_true hfit]; rfl
          rw [if_neg (Nat.not_lt.mpr hfit), foldsDone, if_pos hr]
          have hp : r.2.p = x.p := congrArg PPos.p h.pos
          refine ⟨hr, ?_, ?_, hfit, h.icase⟩
          · show (⟨r.2.p.drop n, r.2.foldLeft, r.2.foldByte⟩ : PPos) = _
            rw [hp]
            exact congrArg (fun s : PPos => { s with p := x.p.drop n }) h.pos
          · show r.2.g.npos = _
            rw [h.npos, Nat.min_eq_right hfit]
        · have hr : r.2.g.ok = false := by rw [h.ok, decide_eq_false hfit, Bool.and_false]
          rw [if_pos (Nat.not_le.mp hfit), foldsDone, if_neg (by rw [hr]; exact Bool.false_ne_true)]
          refine ⟨hr, ?_⟩
          have hp : r.2.p = x.p := congrArg PPos.p h.pos
          rw [hp, h.npos, Nat.min_eq_left (Nat.le_of_not_le hfit)]
          rfl

theorem follows_gBrace {posBefore : Nat} {a : GAttr w} {x : GPar w} (hok : x.g.ok = true)
    (hic : x.g.icase = ic) (hle : x.g.npos ≤ w) :
    Follows ic (gBrace posBefore a x) (wBrace w posBefore x.pos x.g.npos) := by
  rw [gBrace_eq, wBrace]
  by_cases hone : x.g.npos ≠ posBefore + 1
  · rw [if_pos hone, if_pos hone]
    exact rfl
  rw [if_neg hone, if_neg hone]
  have hadv : x.pos.adv.p = x.adv.p := rfl
  rw [hadv]
  generalize readBounds x.adv.p = b
  dsimp only
  cases b.hi with
  | none => exact rfl
  | some hi =>
      have hcur : ({ x with p := b.rest } : GPar w).cur = b.rest.headD 0 := rfl
      dsimp only
      rw [hcur]
      by_cases hbad : (!b.haslo || b.rest.headD 0 != Ch.rbrace || refused hi) = true
      · rw [if_pos hbad, if_pos hbad]
        exact rfl
      rw [if_neg hbad, if_neg hbad]
      by_cases hzero : kept hi = 0
      · rw [if_pos hzero, if_pos hzero]
        exact ⟨hok, rfl, rfl, by omega, hic⟩
      rw [if_neg hzero, if_neg hzero]
      have h := repCopies_grown (x.g.setb posBefore) (Int32.ofNat b.lo) (kept hi - 1) 1
        { a with nullable := a.nullable || kept b.lo == 0 } ({ x with p := b.rest } : GPar w).adv hle
      change Follows ic (repCopies (x.g.setb posBefore) (Int32.ofNat b.lo) (kept hi - 1) 1
        { a with nullable := a.nullable || kept b.lo == 0 } ({ x with p := b.rest } : GPar w).adv) _
      generalize repCopies (x.g.setb posBefore) (Int32.ofNat b.lo) (kept hi - 1) 1
        { a with nullable := a.nullable || kept b.lo == 0 } ({ x with p := b.rest } : GPar w).adv = r
        at h ⊢
      have hnpos : ({ x with p := b.rest } : GPar w).adv.g.npos = x.g.npos := rfl
      have hxok : ({ x with p := b.rest } : GPar w).adv.g.ok = true := hok
      by_cases hfit : x.g.npos + (kept hi - 1) ≤ w
      · rw [if_neg (Nat.not_lt.mpr hfit)]
        refine ⟨?_, h.pos, ?_, hfit, h.icase.trans hic⟩
        · rw [h.ok, hxok, hnpos, decide_eq_true hfit]
          rfl
        · rw [h.npos, hnpos, Nat.min_eq_right hfit]
      · rw [if_pos (Nat.not_le.mp hfit)]
        refine ⟨?_, ?_⟩
        · rw [h.ok, hnpos, decide_eq_false hfit, Bool.and_false]
        · have hp : r.2.p = b.rest.tail := congrArg PPos.p h.pos
          rw [hp, h.npos, hnpos, Nat.min_eq_left (Nat.le_of_not_le hfit)]
          rfl

theorem closeBrace_eq {posBefore : Nat} {a : GAttr w} {x : GPar w} (hle : x.g.npos ≤ w) :
    ((gBrace posBefore a x).2.p, (gBrace posBefore a x).2.g.npos)
      = closeBrace w posBefore x.p x.g.npos := by
  rw [gBrace_eq, closeBrace]
  by_cases hone : x.g.npos ≠ posBefore + 1
  · rw [if_pos hone, if_pos hone]
    rfl
  rw [if_neg hone, if_neg hone]
  have hadv : x.adv.p = x.p.tail := rfl
  rw [hadv]
  generalize readBounds x.p.tail = b
  dsimp only
  cases b.hi with
  | none => exact rfl
  | some hi =>
      have hcur : ({ x with p := b.rest } : GPar w).cur = b.rest.headD 0 := rfl
      dsimp only
      rw [hcur]
      by_cases hbad : (!b.haslo || b.rest.headD 0 != Ch.rbrace || refused hi) = true
      · rw [if_pos hbad, if_pos hbad]
        rfl
      rw [if_neg hbad, if_neg hbad]
      by_cases hzero : kept hi = 0
      · rw [if_pos hzero, if_pos hzero]
        rfl
      rw [if_neg hzero, if_neg hzero]
      have h := repCopies_grown (x.g.setb posBefore) (Int32.ofNat b.lo) (kept hi - 1) 1
        { a with nullable := a.nullable || kept b.lo == 0 } ({ x with p := b.rest } : GPar w).adv hle
      exact Prod.ext (congrArg PPos.p h.pos) h.npos

theorem follows_repTail {posBefore : Nat} {r : GAttr w × GPar w} (hok : r.2.g.ok = true)
    (hic : r.2.g.icase = ic) (hle : r.2.g.npos ≤ w) :
    Follows ic (repTail posBefore r) (wTail w posBefore r.2.pos r.2.g.npos) := by
  rw [repTail, wTail]
  have hcur : r.2.pos.cur = r.2.cur := rfl
  rw [hcur]
  by_cases hstar : r.2.cur = Ch.star
  · rw [if_pos hstar, if_pos hstar]
    exact ⟨hok, rfl, rfl, hle, hic⟩
  rw [if_neg hstar, if_neg hstar]
  by_cases hplus : r.2.cur = Ch.plus
  · rw [if_pos hplus, if_pos hplus]
    exact ⟨hok, rfl, rfl, hle, hic⟩
  rw [if_neg hplus, if_neg hplus]
  by_cases hquest : r.2.cur = Ch.quest
  · rw [if_pos hquest, if_pos hquest]
    exact ⟨hok, rfl, rfl, hle, hic⟩
  rw [if_neg hquest, if_neg hquest]
  by_cases hbrace : r.2.cur = Ch.lbrace
  · rw [if_pos hbrace, if_pos hbrace]
    exact follows_gBrace hok hic hle
  · rw [if_neg hbrace, if_neg hbrace]
    exact ⟨hok, rfl, rfl, hle, hic⟩

theorem repTail_closes {posBefore : Nat} {r : GAttr w × GPar w} (hle : r.2.g.npos ≤ w) :
    ((repTail posBefore r).2.p, (repTail posBefore r).2.g.npos)
      = closeOne w (r.2.p, r.2.g.npos) (.quant posBefore) := by
  rw [repTail, closeOne]
  have hcur : r.2.p.headD 0 = r.2.cur := rfl
  dsimp only
  rw [hcur]
  split
  · rfl
  split
  · rfl
  split
  · rfl
  split
  · exact closeBrace_eq hle
  · rfl

theorem follows_gRepeat (halt : WalkSpec ic alt walt) {x : GPar w} (hok : x.g.ok = true)
    (hic : x.g.icase = ic) (hle : x.g.npos ≤ w) :
    Follows ic (gRepeat alt x) (wRepeat w ic walt x.pos x.g.npos) := by
  rw [gRepeat_eq, wRepeat]
  exact (follows_gAtom halt hok hic hle).close follows_repTail repTail_failed
    fun hr _ => repTail_closes hr

theorem follows_gConcatLoop (halt : WalkSpec ic alt walt) :
    ∀ (k : Nat) (any : Bool) (a : GAttr w) (x : GPar w), x.g.ok = true → x.g.icase = ic →
      x.g.npos ≤ w →
      Follows ic (gConcatLoop alt k any a x) (wConcatLoop w ic walt k x.pos x.g.npos)
  | 0, _, _, _, hok, hic, hle => ⟨hok, rfl, rfl, hle, hic⟩
  | k + 1, any, a, x, hok, hic, hle => by
      rw [gConcatLoop, wConcatLoop, hok, Bool.and_true]
      have hcur : x.pos.cur = x.cur := rfl
      rw [hcur]
      by_cases hgoes : concatGoes x.cur = true
      · rw [if_pos hgoes, if_pos hgoes]
        have h := follows_gRepeat halt hok hic hle
        rcases hr : gRepeat alt x with ⟨b, y⟩
        rw [hr] at h
        dsimp only
        cases any with
        | true =>
            refine h.bind (fun hy hyic hyle => ?_) (fun hy => ?_)
            · exact follows_gConcatLoop halt k true _ (y.link a.last b.first) hy hyic hyle
            · have hlink : (y.link a.last b.first).g.ok = false := hy
              rw [if_pos rfl, gConcatLoop_failed k true _ hlink]
              exact ⟨hlink, rfl⟩
        | false =>
            refine h.bind (fun hy hyic hyle => ?_) (fun hy => ?_)
            · exact follows_gConcatLoop halt k true _ y hy hyic hyle
            · rw [if_neg Bool.false_ne_true, gConcatLoop_failed k true _ hy]
              exact ⟨hy, rfl⟩
      · rw [if_neg hgoes, if_neg hgoes]
        exact ⟨hok, rfl, rfl, hle, hic⟩

theorem follows_gConcat (halt : WalkSpec ic alt walt) : WalkSpec ic (gConcat alt) (wConcat w ic walt) :=
  fun x hok hic hle => follows_gConcatLoop halt _ false _ x hok hic hle

theorem follows_gAltLoop (halt : WalkSpec ic alt walt) :
    ∀ (k : Nat) (a : GAttr w) (x : GPar w), x.g.ok = true → x.g.icase = ic → x.g.npos ≤ w →
      Follows ic (gAltLoop alt k a x) (wAltLoop w ic walt k x.pos x.g.npos)
  | 0, _, _, hok, hic, hle => ⟨hok, rfl, rfl, hle, hic⟩
  | k + 1, a, x, hok, hic, hle => by
      rw [gAltLoop, wAltLoop, hok, Bool.and_true]
      have hcur : x.pos.cur = x.cur := rfl
      rw [hcur]
      by_cases hbar : x.cur = Ch.bar
      · rw [if_pos (beq_iff_eq.mpr hbar), if_pos hbar]
        have h := follows_gConcat halt x.adv hok hic hle
        rcases hr : gConcat alt x.adv with ⟨b, y⟩
        rw [hr] at h
        refine h.bind (fun hy hyic hyle => ?_) (fun hy => ?_)
        · exact follows_gAltLoop halt k (a.alt b) y hy hyic hyle
        · show (gAltLoop alt k (a.alt b) y).2.g.ok = false
            ∧ ((gAltLoop alt k (a.alt b) y).2.p, (gAltLoop alt k (a.alt b) y).2.g.npos) = _
          rw [gAltLoop_failed k _ hy]
          exact ⟨hy, rfl⟩
      · rw [if_neg (fun h => hbar (beq_iff_eq.mp h)), if_neg hbar]
        exact ⟨hok, rfl, rfl, hle, hic⟩

theorem follows_gAltWith (halt : WalkSpec ic alt walt) :
    WalkSpec ic (gAltWith alt) (wAltWith w ic walt) := by
  intro x hok hic hle
  have h := follows_gConcat halt x hok hic hle
  rw [gAltWith, wAltWith]
  rcases hr : gConcat alt x with ⟨a, y⟩
  rw [hr] at h
  refine h.bind (fun hy hyic hyle => ?_) (fun hy => ?_)
  · exact follows_gAltLoop halt _ a y hy hyic hyle
  · show (gAltLoop alt (y.p.length + 1) a y).2.g.ok = false
      ∧ ((gAltLoop alt (y.p.length + 1) a y).2.p, (gAltLoop alt (y.p.length + 1) a y).2.g.npos) = _
    rw [gAltLoop_failed _ _ hy]
    exact ⟨hy, rfl⟩

/-- The parser is where the walk says, in the text and in the count, also
after a position was refused. -/
theorem follows_gAlt : ∀ d, WalkSpec ic (gAlt (w := w) d) (wAlt w ic d)
  | 0 => fun _ _ _ _ => rfl
  | d + 1 => follows_gAltWith (follows_gAlt d)

end

/-! ## The two builds -/

/-- The body is refused a position at width `w`, and what is open there
hands positions back, so that the count ends below `w`. -/
def givesBack (w : Nat) (icase : Bool) (body : List UInt8) : Bool :=
  match walkBody w icase body with
  | .stuck p opens => decide ((unwind w opens (p, w)).2 < w)
  | _ => false

/-- What the choice of the width is to be. -/
structure WidthExact (pat : List UInt8) (icase : Bool) : Prop where
  succeeds : (buildGnfa pat icase).isSome = (buildGnfaAt 128 pat icase).1
  same : (buildGnfaAt 64 pat icase).1 = true →
    (buildGnfaAt 128 pat icase).1 = true
      ∧ (buildGnfaAt 128 pat icase).2.nullableAll = (buildGnfaAt 64 pat icase).2.nullableAll
      ∧ (buildGnfaAt 128 pat icase).2.anchoredStart = (buildGnfaAt 64 pat icase).2.anchoredStart
      ∧ (buildGnfaAt 128 pat icase).2.anchoredEnd = (buildGnfaAt 64 pat icase).2.anchoredEnd
      ∧ ∀ hay, gnfaFull (buildGnfaAt 128 pat icase).2 (buildImap (buildGnfaAt 128 pat icase).2) hay
        = gnfaFull (buildGnfaAt 64 pat icase).2 (buildImap (buildGnfaAt 64 pat icase).2) hay
  below : (buildGnfaAt 64 pat icase).1 = false → (buildGnfaAt 64 pat icase).2.npos < 64 →
    (buildGnfaAt 128 pat icase).1 = false

theorem npos_le_of_accepted {w : Nat} {pat : List UInt8} {icase : Bool}
    (h : (buildGnfaAt w pat icase).1 = true) : (buildGnfaAt w pat icase).2.npos ≤ w := by
  obtain ⟨t, ht⟩ := buildGnfaAt_spec h
  rw [ht.npos]
  exact t.length_sets_le_peak.trans ht.fits

/-- Only the patterns the narrow build gives up early tell the two apart. -/
theorem widthExact_iff (pat : List UInt8) (icase : Bool) :
    WidthExact pat icase ↔ ((buildGnfaAt 64 pat icase).1 = false →
      (buildGnfaAt 64 pat icase).2.npos < 64 → (buildGnfaAt 128 pat icase).1 = false) := by
  refine ⟨WidthExact.below, fun h => ⟨?_, fun hn => ?_, h⟩⟩
  · show (if (buildGnfaAt 64 pat icase).1 = true then _ else _ : Option _).isSome = _
    by_cases hn : (buildGnfaAt 64 pat icase).1 = true
    · rw [if_pos hn, buildGnfaAt_widen (v := 128) (by decide) hn]
      rfl
    · have hnf := Bool.eq_false_iff.mpr hn
      rw [if_neg hn]
      by_cases hlow : (buildGnfaAt 64 pat icase).2.npos < 64
      · rw [if_pos hlow, h hnf hlow]
        rfl
      · rw [if_neg hlow]
        dsimp only
        show (if (buildGnfaAt 128 pat icase).1 = true then _ else _ : Option _).isSome = _
        by_cases hw : (buildGnfaAt 128 pat icase).1 = true
        · rw [if_pos hw, hw]
          rfl
        · rw [if_neg hw, Bool.eq_false_iff.mpr hw]
          rfl
  · rw [buildGnfaAt_widen (v := 128) (by decide) hn]
    exact ⟨rfl, rfl, rfl, rfl, gnfaFull_widen (by decide) (npos_le_of_accepted hn)⟩

/-- The narrow build of a pattern in the grammar: it is refused with a count
below the cap when positions are handed back, and only then. -/
theorem givesBack_iff {pat : List UInt8} {icase : Bool} {t : Re}
    (hlen : (peelAnchors pat).2.2.length < 1024)
    (hparse : parseRe icase (peelAnchors pat).2.2 = some t) (hne : t.sets ≠ []) :
    ((buildGnfaAt 64 pat icase).1 = false ∧ (buildGnfaAt 64 pat icase).2.npos < 64)
      ↔ givesBack 64 icase (peelAnchors pat).2.2 = true := by
  have hnil : (peelAnchors pat).2.2 ≠ [] := by
    intro h0
    rw [h0, parseRe_nil] at hparse
    obtain rfl := Option.some.inj hparse
    exact hne rfl
  have hagree : Agrees 0 (pAlt icase ((peelAnchors pat).2.2.length + 1)
      ⟨(peelAnchors pat).2.2, 0, 0⟩) (walkBody 64 icase (peelAnchors pat).2.2) :=
    agrees_wAlt _ _ 0
  have hfollow : Follows icase (gAlt ((peelAnchors pat).2.2.length + 1) (startPar 64 pat icase))
      (walkBody 64 icase (peelAnchors pat).2.2) :=
    follows_gAlt _ (startPar 64 pat icase) rfl rfl (Nat.zero_le _)
  rw [buildGnfaAt_eq, if_neg (Nat.not_le.mpr hlen), if_neg hnil, givesBack]
  rw [parseRe] at hparse
  obtain ⟨⟨t', s'⟩, ho, hs⟩ := Option.bind_eq_some_iff.mp hparse
  generalize gAlt ((peelAnchors pat).2.2.length + 1) (startPar 64 pat icase) = r at hfollow ⊢
  dsimp only at hs ⊢
  cases hW : walkBody 64 icase (peelAnchors pat).2.2 with
  | ok s n =>
      rw [hW] at hagree hfollow
      obtain ⟨t₁, ho₁, hn⟩ := hagree
      obtain ⟨hok, hpos, hnpos, -, -⟩ := hfollow
      obtain ⟨rfl, rfl⟩ := Prod.mk.inj (Option.some.inj (ho.symm.trans ho₁))
      split at hs
      · rename_i hend
        obtain rfl := Option.some.inj hs
        have hp : r.2.p = [] := (congrArg PPos.p hpos).trans hend
        have hz : r.2.g.npos ≠ 0 := by
          rw [hnpos, hn, Nat.zero_add]
          exact fun h0 => hne (List.length_eq_zero_iff.mp h0)
        have hacc : ¬ (!r.2.g.ok || r.2.p != [] || r.2.g.npos == 0) = true := by
          simp [hok, hp, hz]
        rw [if_neg hacc]
        exact iff_of_false (fun h => Bool.false_ne_true h.1.symm) Bool.false_ne_true
      · exact absurd hs (by simp)
  | bad =>
      rw [hW] at hagree
      exact absurd (ho.symm.trans hagree) (by simp)
  | stuck p opens =>
      rw [hW] at hfollow
      obtain ⟨hok, hout⟩ := hfollow
      have hacc : (!r.2.g.ok || r.2.p != [] || r.2.g.npos == 0) = true := by
        rw [hok]
        rfl
      have hnpos : r.2.g.npos = (unwind 64 opens (p, 64)).2 := congrArg Prod.snd hout
      rw [if_pos hacc, decide_eq_true_eq, ← hnpos]
      exact and_iff_right rfl

/-! ## Patterns that hand nothing back -/

/-- The walk stands on what is left of `p`. -/
def Walk.Within (p : List UInt8) : Walk → Prop
  | .ok s _ => s.p <:+ p
  | .bad => True
  | .stuck r _ => r <:+ p

section

variable {w : Nat} {icase : Bool} {walt : PPos → Nat → Walk} {p : List UInt8} {s : PPos}

theorem Walk.Within.bind {W : Walk} {f : PPos → Nat → Walk} (h : W.Within p)
    (hf : ∀ s n, s.p <:+ p → (f s n).Within p) : (W.bind f).Within p := by
  cases W with
  | ok s n => exact hf s n h
  | bad => exact trivial
  | stuck r opens => exact h

theorem Walk.Within.inside {W : Walk} (h : W.Within p) (o : Open) : (W.inside o).Within p := by
  cases W <;> exact h

theorem within_wPosAtom (h : s.p <:+ p) (hne : s.p ≠ []) (n : Nat) : (wPosAtom w icase s n).Within p := by
  rw [wPosAtom]
  split
  · exact h
  · split
    · rename_i hs
      exact (pPosAtom_shorter hs hne).suffix.trans h
    · exact trivial

theorem within_wAtom (halt : ∀ s n, s.p <:+ p → (walt s n).Within p) (h : s.p <:+ p) (hne : s.p ≠ []) (n : Nat) :
    (wAtom w icase walt s n).Within p := by
  rw [wAtom]
  split
  · refine ((halt _ _ ((List.tail_suffix _).trans h)).inside _).bind fun s n hs => ?_
    split
    · exact (List.tail_suffix _).trans hs
    · exact trivial
  · split
    · split
      · exact h
      · exact (List.drop_suffix _ _).trans h
    · exact within_wPosAtom h hne n

theorem within_wBrace (h : s.p <:+ p) (posBefore n : Nat) : (wBrace w posBefore s n).Within p := by
  have hrest : (readBounds s.adv.p).rest <:+ p := (readBounds_suffix _).trans ((List.tail_suffix _).trans h)
  have htail : (readBounds s.adv.p).rest.tail <:+ p := (List.tail_suffix _).trans hrest
  rw [wBrace]
  split
  · exact trivial
  · dsimp only
    split
    · exact trivial
    · split
      · exact trivial
      split
      · exact htail
      split
      · exact htail
      · exact htail

theorem within_wTail (h : s.p <:+ p) (posBefore n : Nat) : (wTail w posBefore s n).Within p := by
  have htail : s.adv.p <:+ p := (List.tail_suffix _).trans h
  rw [wTail]
  split
  · exact htail
  split
  · exact htail
  split
  · exact htail
  split
  · exact within_wBrace h posBefore n
  · exact h

theorem within_wConcatLoop (halt : ∀ s n, s.p <:+ p → (walt s n).Within p) (k : Nat) (h : s.p <:+ p) (n : Nat) :
    (wConcatLoop w icase walt k s n).Within p := by
  induction k generalizing s n with
  | zero => exact h
  | succ k ih =>
      rw [wConcatLoop]
      split
      · rename_i hgoes
        have hne : s.p ≠ [] := cur_ne_zero_iff fun h0 => by simp [concatGoes, h0] at hgoes
        refine Walk.Within.bind ?_ fun s n hs => ih hs n
        exact ((within_wAtom halt h hne n).inside _).bind fun s' n' hs' => within_wTail hs' n n'
      · exact h

theorem within_wAltLoop (halt : ∀ s n, s.p <:+ p → (walt s n).Within p) (k : Nat) (h : s.p <:+ p) (n : Nat) :
    (wAltLoop w icase walt k s n).Within p := by
  induction k generalizing s n with
  | zero => exact h
  | succ k ih =>
      rw [wAltLoop]
      split
      · exact (within_wConcatLoop halt _ ((List.tail_suffix _).trans h) n).bind fun s n hs => ih hs n
      · exact h

theorem within_wAlt (d : Nat) : ∀ s n, s.p <:+ p → (wAlt w icase d s n).Within p := by
  induction d with
  | zero => exact fun s n _ => trivial
  | succ d ih => exact fun s n h => (within_wConcatLoop ih _ h n).bind fun s n hs => within_wAltLoop ih _ hs n

end

/-- No brace quantifier of the text is read as `{0}`. -/
def NoZeroBrace (p : List UInt8) : Prop :=
  ∀ r, Ch.lbrace :: r <:+ p → ∀ hi, (readBounds r).hi = some hi → kept hi ≠ 0

/-- Without `{0}` a function on its way out leaves a full count full. -/
theorem closeOne_full {w : Nat} {p : List UInt8} (h : NoZeroBrace p) (o : Open) :
    (closeOne w (p, w) o).2 = w ∧ (closeOne w (p, w) o).1 <:+ p := by
  have htail := List.tail_suffix p
  cases o with
  | paren =>
      rw [closeOne]
      split
      · exact ⟨rfl, htail⟩
      · exact ⟨rfl, List.suffix_rfl⟩
  | quant posBefore =>
      rw [closeOne]
      split
      · exact ⟨rfl, htail⟩
      split
      · exact ⟨rfl, htail⟩
      split
      · exact ⟨rfl, htail⟩
      split
      · rename_i hbrace
        have hrest : (readBounds p.tail).rest <:+ p := (readBounds_suffix _).trans htail
        have hend : (readBounds p.tail).rest.tail <:+ p := (List.tail_suffix _).trans hrest
        rw [closeBrace]
        split
        · exact ⟨rfl, List.suffix_rfl⟩
        · dsimp only
          split
          · exact ⟨rfl, hrest⟩
          · rename_i hi hhi
            split
            · exact ⟨rfl, hrest⟩
            split
            · rename_i hzero
              cases p with
              | nil => exact absurd (show (0 : UInt8) = Ch.lbrace from hbrace) (by decide)
              | cons c r =>
                  obtain rfl : c = Ch.lbrace := hbrace
                  exact absurd hzero (h r List.suffix_rfl hi hhi)
            · exact ⟨Nat.min_eq_left (Nat.le_add_right _ _), hend⟩
      · exact ⟨rfl, List.suffix_rfl⟩

theorem unwind_full {w : Nat} (opens : List Open) {p : List UInt8} (h : NoZeroBrace p) :
    (unwind w opens (p, w)).2 = w := by
  induction opens generalizing p with
  | nil => rfl
  | cons o opens ih =>
      obtain ⟨hcount, hsuffix⟩ := closeOne_full (w := w) h o
      have hstep : closeOne w (p, w) o = ((closeOne w (p, w) o).1, w) := Prod.ext rfl hcount
      rw [unwind, List.foldl_cons, hstep]
      exact ih fun r hr => h r (hr.trans hsuffix)

theorem not_givesBack {w : Nat} {icase : Bool} {body : List UInt8} (h : NoZeroBrace body) :
    givesBack w icase body = false := by
  have hwithin : (walkBody w icase body).Within body := within_wAlt _ _ _ List.suffix_rfl
  rw [givesBack]
  cases hwalk : walkBody w icase body with
  | ok s n => rfl
  | bad => rfl
  | stuck p opens =>
      rw [hwalk] at hwithin
      have hfull : (unwind w opens (p, w)).2 = w := unwind_full opens fun r hr => h r (hr.trans hwithin)
      exact decide_eq_false (Nat.not_lt.mpr hfull.ge)

theorem widthExact_iff_unless {pat : List UInt8} {icase : Bool} :
    WidthExact pat icase ↔
      ¬ ((peelAnchors pat).2.2.length < 1024 ∧ givesBack 64 icase (peelAnchors pat).2.2 = true
        ∧ ∃ t, parseRe icase (peelAnchors pat).2.2 = some t ∧ t.peak ≤ 128 ∧ t.sets ≠ []) := by
  rw [widthExact_iff]
  constructor
  · rintro h ⟨hlen, hback, t, hparse, hpeak, hne⟩
    obtain ⟨hn, hlow⟩ := (givesBack_iff hlen hparse hne).mpr hback
    have hw : (buildGnfaAt 128 pat icase).1 = true :=
      buildGnfaAt_accepts_iff.mpr ⟨hlen, t, hparse, hpeak, Or.inr hne⟩
    rw [h hn hlow] at hw
    exact Bool.false_ne_true hw
  · intro h hn hlow
    by_contra hw
    obtain ⟨hlen, t, hparse, hpeak, hne⟩ :=
      buildGnfaAt_accepts_iff.mp (Bool.not_eq_false _ ▸ hw)
    rcases hne with hnil | hne
    · have hacc : (buildGnfaAt 64 pat icase).1 = true := by
        rw [buildGnfaAt_eq, if_neg (Nat.not_le.mpr hlen), if_pos hnil]
      exact absurd (hacc.symm.trans hn) (by simp)
    · exact h ⟨hlen, (givesBack_iff hlen hparse hne).mp ⟨hn, hlow⟩, t, hparse, hpeak, hne⟩

/-- **The width** is chosen rightly for a pattern unless the wide build takes
it and the narrow one gives positions back after running out of them, which no
pattern without a `{0}` does. -/
theorem widthExact_iff_not_givesBack (pat : List UInt8) (icase : Bool) :
    (WidthExact pat icase ↔
      ¬ ((peelAnchors pat).2.2.length < 1024 ∧ givesBack 64 icase (peelAnchors pat).2.2 = true
        ∧ ∃ t, parseRe icase (peelAnchors pat).2.2 = some t ∧ t.peak ≤ 128 ∧ t.sets ≠ [])) ∧
      (NoZeroBrace (peelAnchors pat).2.2 → WidthExact pat icase) := by
  refine ⟨widthExact_iff_unless, fun hzero => widthExact_iff_unless.mpr fun hback => ?_⟩
  exact Bool.false_ne_true ((not_givesBack hzero).symm.trans hback.2.1)

/-- `x{70}` outgrows the narrow field and gets the wide one. -/
theorem widthExact_iff_not_givesBack_wide : WidthExact [0x78, 0x7b, 0x37, 0x30, 0x7d] false := by
  refine (widthExact_iff_not_givesBack _ _).2 fun r hr hi hhi => ?_
  have hr' : Ch.lbrace :: r <:+ [0x78, 0x7b, 0x37, 0x30, 0x7d] := hr
  obtain rfl : r = [0x37, 0x30, 0x7d] := by simpa [List.suffix_cons_iff, Ch.lbrace] using hr'
  obtain rfl : 70 = hi := Option.some.inj hhi
  decide

/-- `x{60}yyy(a*{0})`. -/
def patternBack : List UInt8 :=
  [0x78, 0x7b, 0x36, 0x30, 0x7d, 0x79, 0x79, 0x79, 0x28, 0x61, 0x2a, 0x7b, 0x30, 0x7d, 0x29]

/-- The pattern `x{60}yyy(a*{0})` holds 67 positions. The narrow build is
refused the literal `{`, the group takes the `{0}` there for its own
quantifier and hands position 63 back, and no wide build follows. -/
theorem not_widthExact_patternBack : ¬ WidthExact patternBack false := by
  have hparse : (parseRe false (peelAnchors patternBack).2.2).any
      (fun t => decide (t.peak ≤ 128) && !t.sets.isEmpty) = true := by decide +kernel
  have hback : givesBack 64 false (peelAnchors patternBack).2.2 = true := by decide +kernel
  have hlen : (peelAnchors patternBack).2.2.length < 1024 := by decide
  rcases (Option.any_eq_true _ _).mp hparse with ⟨t, ht, hfits⟩
  rw [Bool.and_eq_true, decide_eq_true_eq, Bool.not_eq_true', List.isEmpty_eq_false_iff] at hfits
  obtain ⟨hn, hlow⟩ := (givesBack_iff hlen ht hfits.2).mpr hback
  intro h
  have hw : (buildGnfaAt 128 patternBack false).1 = true :=
    buildGnfaAt_accepts_iff.mpr ⟨hlen, t, ht, hfits.1, Or.inr hfits.2⟩
  rw [h.below hn hlow] at hw
  exact Bool.false_ne_true hw

end Montauk
