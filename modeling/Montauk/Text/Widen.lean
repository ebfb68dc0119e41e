import Montauk.Text.FieldSound

/-!
# One pattern at two widths

A parse that succeeds at `w` positions makes the same moves at any greater
width: every function of the parser commutes with widening its state, as
long as the narrow call ends with `ok` set. The two fields then hold the
same positions and edges (`buildGnfaAt_widen`) and accept the same words
(`gnfaFull_widen`).
-/

namespace Montauk

open PosAutomaton

variable {w v : Nat}

/-! ## Widening -/

def GAttr.widen (v : Nat) (a : GAttr w) : GAttr v :=
  ⟨a.nullable, a.first.setWidth v, a.last.setWidth v⟩

def Gnfa.widen (v : Nat) (g : Gnfa w) : Gnfa v where
  setb := g.setb
  follow i := (g.follow i).setWidth v
  first := g.first.setWidth v
  last := g.last.setWidth v
  npos := g.npos
  nullableAll := g.nullableAll
  ok := g.ok
  anchoredStart := g.anchoredStart
  anchoredEnd := g.anchoredEnd
  icase := g.icase

def GPar.widen (v : Nat) (x : GPar w) : GPar v := ⟨x.p, x.g.widen v, x.foldLeft, x.foldByte⟩

def widenPair (v : Nat) (r : GAttr w × GPar w) : GAttr v × GPar v := (r.1.widen v, r.2.widen v)

theorem setWidth_getLsbD (hwv : w ≤ v) (D : BitVec w) (i : Nat) :
    (D.setWidth v).getLsbD i = D.getLsbD i := by
  rw [BitVec.getLsbD_setWidth]
  cases h : D.getLsbD i with
  | false => rw [Bool.and_false]
  | true => rw [decide_eq_true (Nat.lt_of_lt_of_le (BitVec.lt_of_getLsbD h) hwv), Bool.true_and]

theorem setWidth_psSingle (hwv : w ≤ v) {p : Nat} (hp : p < w) :
    (psSingle w p).setWidth v = psSingle v p := by
  refine BitVec.eq_of_getLsbD_eq fun i _ => ?_
  rw [setWidth_getLsbD hwv, getLsbD_psSingle hp, getLsbD_psSingle (Nat.lt_of_lt_of_le hp hwv)]

theorem GAttr.widen_eps : (GAttr.eps w).widen v = GAttr.eps v := by
  simp [GAttr.widen, GAttr.eps]

theorem GAttr.widen_pos (hwv : w ≤ v) {p : Nat} (hp : p < w) :
    (GAttr.pos w p).widen v = GAttr.pos v p := by
  rw [GAttr.widen, GAttr.pos, GAttr.pos, setWidth_psSingle hwv hp]

theorem GAttr.widen_cat (a b : GAttr w) : (a.cat b).widen v = (a.widen v).cat (b.widen v) := by
  simp only [GAttr.widen, GAttr.cat, apply_ite (BitVec.setWidth v), BitVec.setWidth_or]
  rfl

theorem GAttr.widen_alt (a b : GAttr w) : (a.alt b).widen v = (a.widen v).alt (b.widen v) := by
  simp only [GAttr.widen, GAttr.alt, BitVec.setWidth_or]

theorem GPar.widen_link (hwv : w ≤ v) (x : GPar w) (src dst : BitVec w) :
    (x.link src dst).widen v = (x.widen v).link (src.setWidth v) (dst.setWidth v) := by
  simp only [GPar.widen, GPar.link, Gnfa.widen, setWidth_getLsbD hwv, apply_ite (BitVec.setWidth v),
    BitVec.setWidth_or]

/-! ## Atoms -/

theorem gBytesLoop_widen (hwv : w ≤ v) :
    ∀ (bs : List UInt8) (fl : Option (Nat × Nat)) (x : GPar w),
      (∀ f l, fl = some (f, l) → f < w ∧ l < w) → (gBytesLoop bs fl x).2.g.ok = true →
      gBytesLoop bs fl (x.widen v) = widenPair v (gBytesLoop bs fl x)
  | [], none, x, _, _ => by
      rw [gBytesLoop, gBytesLoop, widenPair, GAttr.widen_eps]
  | [], some (f, l), x, hfl, _ => by
      obtain ⟨hf, hl⟩ := hfl f l rfl
      rw [gBytesLoop, gBytesLoop, widenPair, GAttr.widen, setWidth_psSingle hwv hf,
        setWidth_psSingle hwv hl]
  | b :: bs, fl, x, hfl, hok => by
      rw [gBytesLoop] at hok
      split at hok
      · exact absurd hok Bool.false_ne_true
      · rename_i hroom
        have hroom' : ¬ v ≤ (x.widen v).g.npos := fun h => hroom (hwv.trans h)
        rw [gBytesLoop, gBytesLoop, if_neg hroom, if_neg hroom']
        cases fl with
        | none =>
            refine gBytesLoop_widen hwv bs _ (x.newPos (gsetByte 0 b false)) ?_ hok
            intro f l h
            obtain ⟨rfl, rfl⟩ := Prod.mk.inj (Option.some.inj h)
            exact ⟨Nat.not_le.mp hroom, Nat.not_le.mp hroom⟩
        | some q =>
            obtain ⟨f, l⟩ := q
            obtain ⟨hf, hl⟩ := hfl f l rfl
            have ih := gBytesLoop_widen hwv bs (some (f, x.g.npos)) _ (fun f' l' h => by
              obtain ⟨rfl, rfl⟩ := Prod.mk.inj (Option.some.inj h)
              exact ⟨hf, Nat.not_le.mp hroom⟩) hok
            rw [GPar.widen_link hwv, setWidth_psSingle hwv hl,
              setWidth_psSingle hwv (Nat.not_le.mp hroom)] at ih
            exact ih

theorem gBytes_widen (hwv : w ≤ v) (x : GPar w) (bs : List UInt8)
    (hok : (gBytes x bs).2.g.ok = true) :
    gBytes (x.widen v) bs = widenPair v (gBytes x bs) :=
  gBytesLoop_widen hwv bs none x (fun _ _ h => absurd h (by simp)) hok

theorem gFoldMembers_widen (hwv : w ≤ v) :
    ∀ (ms : List Nat) (a : GAttr w) (x : GPar w), (gFoldMembers ms a x).2.g.ok = true →
      gFoldMembers ms (a.widen v) (x.widen v) = widenPair v (gFoldMembers ms a x)
  | [], _, _, _ => rfl
  | m :: ms, a, x, hok => by
      cases hx : x.g.ok with
      | false =>
          rw [gFoldMembers_failed _ _ hx, gFoldMembers_failed _ _ (show (x.widen v).g.ok = false from hx)]
          rfl
      | true =>
          have hx' : (x.widen v).g.ok = true := hx
          rw [gFoldMembers, if_pos hx] at hok
          rw [gFoldMembers, gFoldMembers, if_pos hx, if_pos hx']
          by_cases hm : u8Encode m = []
          · rw [if_pos hm] at hok
            rw [if_pos hm, if_pos hm]
            exact gFoldMembers_widen hwv ms a x hok
          · rw [if_neg hm] at hok
            rw [if_neg hm, if_neg hm]
            rcases hr : gBytes x (u8Encode m) with ⟨b, y⟩
            rw [hr] at hok
            dsimp only at hok ⊢
            have hy : y.g.ok = true := by
              by_contra hy
              rw [gFoldMembers_failed ms _ (Bool.eq_false_iff.mpr hy)] at hok
              exact hy hok
            have hwide := gBytes_widen hwv x (u8Encode m) (by rw [hr]; exact hy)
            rw [hr] at hwide
            rw [hwide, ← gFoldMembers_widen hwv ms _ y hok]
            simp only [GAttr.widen, widenPair, BitVec.setWidth_or]

theorem gLiteral_widen (hwv : w ≤ v) {x : GPar w} (hroom : x.g.npos < w) :
    gLiteral (x.widen v) = widenPair v (gLiteral x) := by
  have hpos : (GAttr.pos w x.g.npos).widen v = GAttr.pos v x.g.npos := GAttr.widen_pos hwv hroom
  show (GAttr.pos v x.g.npos, _) = ((GAttr.pos w x.g.npos).widen v, _)
  rw [hpos]
  rfl

theorem gPosAtom_widen (hwv : w ≤ v) {x : GPar w} (hok : (gPosAtom x).2.g.ok = true) :
    gPosAtom (x.widen v) = widenPair v (gPosAtom x) := by
  by_cases hroom : w ≤ x.g.npos
  · rw [gPosAtom, if_pos hroom] at hok
    exact absurd hok Bool.false_ne_true
  have hroom' : ¬ v ≤ (x.widen v).g.npos := fun h => hroom (hwv.trans h)
  have hpos : (GAttr.pos w x.g.npos).widen v = GAttr.pos v x.g.npos :=
    GAttr.widen_pos hwv (Nat.not_le.mp hroom)
  rw [gPosAtom, if_neg hroom] at hok
  rw [gPosAtom, gPosAtom, if_neg hroom, if_neg hroom']
  have hcur : (x.widen v).cur = x.cur := rfl
  have hadv : (x.widen v).adv.cur = x.adv.cur := rfl
  rw [hcur, hadv]
  by_cases hdot : x.cur = Ch.dot
  · rw [if_pos hdot, if_pos hdot, widenPair, hpos]
    rfl
  rw [if_neg hdot] at hok
  rw [if_neg hdot, if_neg hdot]
  by_cases hbrack : x.cur = Ch.lbrack
  · have hp : (x.widen v).p = x.p := rfl
    have hic : (x.widen v).g.icase = x.g.icase := rfl
    rw [if_pos hbrack] at hok
    rw [if_pos hbrack, if_pos hbrack, hp, hic]
    cases hcls : classSpan x.p x.g.icase with
    | none =>
        rw [hcls] at hok
        exact absurd hok Bool.false_ne_true
    | some r =>
        obtain ⟨S, rest⟩ := r
        dsimp only
        rw [widenPair, hpos]
        rfl
  rw [if_neg hbrack] at hok
  rw [if_neg hbrack, if_neg hbrack]
  by_cases hesc : x.cur = Ch.backslash ∧ x.adv.cur ≠ 0
  · rw [if_pos hesc, if_pos hesc]
    cases shorthandSet x.adv.cur with
    | some S =>
        dsimp only
        rw [widenPair, hpos]
        rfl
    | none =>
        have hlit : gLiteral (x.adv.widen v) = widenPair v (gLiteral x.adv) :=
          gLiteral_widen hwv (Nat.not_le.mp hroom)
        exact hlit
  · rw [if_neg hesc, if_neg hesc]
    exact gLiteral_widen hwv (Nat.not_le.mp hroom)

/-! ## The functions above the atoms -/

/-- A parser at two widths: what succeeds narrow goes the same way wide. -/
def Widens (alt : GPar w → GAttr w × GPar w) (alt' : GPar v → GAttr v × GPar v) : Prop :=
  ∀ x, (alt x).2.g.ok = true → alt' (x.widen v) = widenPair v (alt x)

variable {alt : GPar w → GAttr w × GPar w} {alt' : GPar v → GAttr v × GPar v}

theorem gAtom_widen (hwv : w ≤ v) (halt : Widens alt alt') {x : GPar w}
    (hok : (gAtom alt x).2.g.ok = true) :
    gAtom alt' (x.widen v) = widenPair v (gAtom alt x) := by
  have hcur : (x.widen v).cur = x.cur := rfl
  by_cases hlp : x.cur = Ch.lparen
  · rw [gAtom, if_pos hlp] at hok
    rw [gAtom, gAtom, hcur, if_pos hlp, if_pos hlp]
    have hsame := halt x.adv
    rcases hr : alt x.adv with ⟨a, y⟩
    rw [hr] at hok hsame
    dsimp only at hok ⊢
    by_cases hrp : y.cur = Ch.rparen
    · rw [if_pos hrp] at hok
      have hwide : alt' (x.widen v).adv = widenPair v (a, y) := hsame hok
      rw [hwide]
      show (if y.cur = Ch.rparen then (a.widen v, (y.widen v).adv)
        else (a.widen v, (y.widen v).fail)) = _
      rw [if_pos hrp, if_pos hrp]
      rfl
    · rw [if_neg hrp] at hok
      exact absurd hok Bool.false_ne_true
  · have hfold : foldClass? (x.widen v).g.icase (x.widen v).p (x.widen v).foldLeft
        = foldClass? x.g.icase x.p x.foldLeft := rfl
    cases hcls : foldClass? x.g.icase x.p x.foldLeft with
    | none =>
        have hatom : gAtom alt x = gPosAtom x := by rw [gAtom, if_neg hlp, hcls]
        have hatom' : gAtom alt' (x.widen v) = gPosAtom (x.widen v) := by
          rw [gAtom, hcur, if_neg hlp, hfold, hcls]
        rw [hatom] at hok
        rw [hatom, hatom', gPosAtom_widen hwv hok]
    | some r =>
        obtain ⟨n, ms⟩ := r
        have hdone : ∀ r : GAttr w × GPar w, (foldsDone n r).2.g.ok = true → r.2.g.ok = true := by
          intro r hr
          by_contra hno
          rw [foldsDone, if_neg hno] at hr
          exact hno hr
        rw [gAtom_folds_eq hlp hcls] at hok
        have hms := hdone _ hok
        have hb : (gBytes x (x.p.take n)).2.g.ok = true := by
          by_contra hb
          rw [gFoldMembers_failed ms _ (Bool.eq_false_iff.mpr hb)] at hms
          exact hb hms
        have hb' : gBytes (x.widen v) (x.p.take n) = widenPair v (gBytes x (x.p.take n)) :=
          gBytes_widen hwv x _ hb
        have hms' : gFoldMembers ms (widenPair v (gBytes x (x.p.take n))).1
            (widenPair v (gBytes x (x.p.take n))).2 = _ := gFoldMembers_widen hwv ms _ _ hms
        have hp : (x.widen v).p = x.p := rfl
        rw [gAtom_folds_eq hlp hcls, gAtom_folds_eq (x := x.widen v) hlp (hfold.trans hcls), hp, hb',
          hms']
        have hms'' : (widenPair v (gFoldMembers ms (gBytes x (x.p.take n)).1
            (gBytes x (x.p.take n)).2)).2.g.ok = true := hms
        rw [foldsDone, if_pos hms'', foldsDone, if_pos hms]
        rfl

theorem repCopies_widen (hwv : w ≤ v) (S : ByteSet) (lo : Int32) :
    ∀ (n ci : Nat) (a : GAttr w) (x : GPar w), (repCopies S lo n ci a x).2.g.ok = true →
      repCopies S lo n ci (a.widen v) (x.widen v) = widenPair v (repCopies S lo n ci a x)
  | 0, _, _, _, _ => rfl
  | n + 1, ci, a, x, hok => by
      rw [repCopies] at hok
      split at hok
      · exact absurd hok Bool.false_ne_true
      · rename_i hroom
        have hroom' : ¬ v ≤ (x.widen v).g.npos := fun h => hroom (hwv.trans h)
        have hpos : (⟨decide (lo.toInt ≤ ci), psSingle w x.g.npos, psSingle w x.g.npos⟩ : GAttr w).widen v
            = ⟨decide (lo.toInt ≤ ci), psSingle v x.g.npos, psSingle v x.g.npos⟩ := by
          rw [GAttr.widen, setWidth_psSingle hwv (Nat.not_le.mp hroom)]
        have ih := repCopies_widen hwv S lo n (ci + 1) _ _ hok
        rw [GAttr.widen_cat, GPar.widen_link hwv] at ih
        rw [repCopies, repCopies, if_neg hroom, if_neg hroom', ← ih]
        dsimp only [GAttr.pos]
        rw [hpos, setWidth_psSingle hwv (Nat.not_le.mp hroom)]
        rfl

theorem gBrace_widen (hwv : w ≤ v) {n : Nat} {a : GAttr w} {x : GPar w}
    (hok : (gBrace n a x).2.g.ok = true) :
    gBrace n (a.widen v) (x.widen v) = widenPair v (gBrace n a x) := by
  have hnpos : (x.widen v).g.npos = x.g.npos := rfl
  have hadv : (x.widen v).adv.p = x.adv.p := rfl
  rw [gBrace] at hok
  rw [gBrace, gBrace, hnpos, hadv]
  by_cases hone : x.g.npos ≠ n + 1
  · rw [if_pos hone] at hok
    exact absurd hok Bool.false_ne_true
  rw [if_neg hone] at hok
  rw [if_neg hone, if_neg hone]
  generalize readBrace x.adv.p = b at hok ⊢
  have hcur : ({ x.widen v with p := b.rest } : GPar v).cur
      = ({ x with p := b.rest } : GPar w).cur := rfl
  dsimp only at hok ⊢
  rw [hcur]
  by_cases hbad : (!b.haslo || ({ x with p := b.rest } : GPar w).cur != Ch.rbrace
      || b.hi == -1 || decide (60 < b.hi)) = true
  · rw [if_pos hbad] at hok
    exact absurd hok Bool.false_ne_true
  rw [if_neg hbad] at hok
  rw [if_neg hbad, if_neg hbad]
  by_cases hzero : b.hi = 0
  · rw [if_pos hzero, if_pos hzero, widenPair, GAttr.widen_eps]
    rfl
  · rw [if_neg hzero] at hok
    rw [if_neg hzero, if_neg hzero]
    exact repCopies_widen hwv _ _ _ _ _ _ hok

theorem gRepeat_widen (hwv : w ≤ v) (halt : Widens alt alt') {x : GPar w}
    (hok : (gRepeat alt x).2.g.ok = true) :
    gRepeat alt' (x.widen v) = widenPair v (gRepeat alt x) := by
  rw [gRepeat_eq] at hok
  have hr : (gAtom alt x).2.g.ok = true := by
    by_contra hr
    rw [repTail_failed (Bool.eq_false_iff.mpr hr)] at hok
    exact absurd hok Bool.false_ne_true
  rw [gRepeat_eq, gRepeat_eq, gAtom_widen hwv halt hr]
  have hnpos : (x.widen v).g.npos = x.g.npos := rfl
  rw [hnpos]
  generalize gAtom alt x = r at hok ⊢
  have hcur : (widenPair v r).2.cur = r.2.cur := rfl
  have hlink : (widenPair v r).2.adv.link (widenPair v r).1.last (widenPair v r).1.first
      = (r.2.adv.link r.1.last r.1.first).widen v :=
    (GPar.widen_link hwv r.2.adv r.1.last r.1.first).symm
  rw [repTail] at hok
  rw [repTail, repTail, hcur]
  by_cases hstar : r.2.cur = Ch.star
  · rw [if_pos hstar, if_pos hstar, hlink]
    rfl
  rw [if_neg hstar] at hok
  rw [if_neg hstar, if_neg hstar]
  by_cases hplus : r.2.cur = Ch.plus
  · rw [if_pos hplus, if_pos hplus, hlink]
    rfl
  rw [if_neg hplus] at hok
  rw [if_neg hplus, if_neg hplus]
  by_cases hquest : r.2.cur = Ch.quest
  · rw [if_pos hquest, if_pos hquest]
    rfl
  rw [if_neg hquest] at hok
  rw [if_neg hquest, if_neg hquest]
  by_cases hbrace : r.2.cur = Ch.lbrace
  · rw [if_pos hbrace] at hok
    rw [if_pos hbrace, if_pos hbrace]
    exact gBrace_widen hwv hok
  · rw [if_neg hbrace, if_neg hbrace]

theorem gConcatLoop_widen (hwv : w ≤ v) (halt : Widens alt alt') :
    ∀ (n : Nat) (any : Bool) (a : GAttr w) (x : GPar w),
      (gConcatLoop alt n any a x).2.g.ok = true →
      gConcatLoop alt' n any (a.widen v) (x.widen v) = widenPair v (gConcatLoop alt n any a x)
  | 0, _, _, _, _ => rfl
  | n + 1, any, a, x, hok => by
      have hgo : (concatGoes (x.widen v).cur && (x.widen v).g.ok) = (concatGoes x.cur && x.g.ok) :=
        rfl
      rw [gConcatLoop] at hok
      rw [gConcatLoop, gConcatLoop, hgo]
      by_cases hgoes : (concatGoes x.cur && x.g.ok) = true
      · rw [if_pos hgoes] at hok
        rw [if_pos hgoes, if_pos hgoes]
        have hsame := gRepeat_widen hwv halt (x := x)
        rcases hr : gRepeat alt x with ⟨b, y⟩
        rw [hr] at hok hsame
        dsimp only at hok hsame ⊢
        have hy : y.g.ok = true := by
          by_contra hy
          have hno := Bool.eq_false_iff.mpr hy
          cases any with
          | true =>
              rw [if_pos rfl, gConcatLoop_failed _ _ _ (by exact hno)] at hok
              exact hy hok
          | false =>
              rw [if_neg Bool.false_ne_true, gConcatLoop_failed _ _ _ hno] at hok
              exact hy hok
        rw [hsame hy]
        dsimp only [widenPair]
        cases any with
        | true =>
            have ih := gConcatLoop_widen hwv halt n true _ _ hok
            rw [GAttr.widen_cat, GPar.widen_link hwv] at ih
            exact ih
        | false => exact gConcatLoop_widen hwv halt n true _ _ hok
      · rw [if_neg hgoes, if_neg hgoes]
        rfl

theorem gConcat_widen (hwv : w ≤ v) (halt : Widens alt alt') : Widens (gConcat alt) (gConcat alt') := by
  intro x hok
  have h := gConcatLoop_widen hwv halt (x.p.length + 1) false (GAttr.eps w) x hok
  rw [GAttr.widen_eps] at h
  exact h

theorem gAltLoop_widen (hwv : w ≤ v) (halt : Widens alt alt') :
    ∀ (n : Nat) (a : GAttr w) (x : GPar w), (gAltLoop alt n a x).2.g.ok = true →
      gAltLoop alt' n (a.widen v) (x.widen v) = widenPair v (gAltLoop alt n a x)
  | 0, _, _, _ => rfl
  | n + 1, a, x, hok => by
      have hgo : ((x.widen v).cur == Ch.bar && (x.widen v).g.ok) = (x.cur == Ch.bar && x.g.ok) :=
        rfl
      rw [gAltLoop] at hok
      rw [gAltLoop, gAltLoop, hgo]
      by_cases hgoes : (x.cur == Ch.bar && x.g.ok) = true
      · rw [if_pos hgoes] at hok
        rw [if_pos hgoes, if_pos hgoes]
        have hsame := gConcat_widen hwv halt x.adv
        rcases hr : gConcat alt x.adv with ⟨b, y⟩
        rw [hr] at hok hsame
        dsimp only at hok hsame ⊢
        have hy : y.g.ok = true := by
          by_contra hy
          rw [gAltLoop_failed _ _ (Bool.eq_false_iff.mpr hy)] at hok
          exact hy hok
        have hwide : gConcat alt' (x.widen v).adv = widenPair v (b, y) := hsame hy
        have ih := gAltLoop_widen hwv halt n _ _ hok
        rw [GAttr.widen_alt] at ih
        rw [hwide]
        exact ih
      · rw [if_neg hgoes, if_neg hgoes]
        rfl

theorem gAltWith_widen (hwv : w ≤ v) (halt : Widens alt alt') :
    Widens (gAltWith alt) (gAltWith alt') := by
  intro x hok
  have hsame := gConcat_widen hwv halt x
  rw [gAltWith] at hok
  rw [gAltWith, gAltWith]
  rcases hr : gConcat alt x with ⟨a, y⟩
  rw [hr] at hok hsame
  dsimp only at hok hsame ⊢
  have hy : y.g.ok = true := by
    by_contra hy
    rw [gAltLoop_failed _ _ (Bool.eq_false_iff.mpr hy)] at hok
    exact hy hok
  rw [hsame hy]
  exact gAltLoop_widen hwv halt _ _ _ hok

theorem gAlt_widen (hwv : w ≤ v) : ∀ d, Widens (gAlt (w := w) d) (gAlt (w := v) d)
  | 0 => fun _ h => absurd h Bool.false_ne_true
  | d + 1 => gAltWith_widen hwv (gAlt_widen hwv d)

/-! ## The two fields -/

theorem startPar_widen (pat : List UInt8) (icase : Bool) :
    (startPar w pat icase).widen v = startPar v pat icase := by
  simp [GPar.widen, Gnfa.widen, startPar, startGnfa, Gnfa.zero]

/-- **The wide field** of a pattern that fits the narrow one is the same
field. -/
theorem buildGnfaAt_widen (hwv : w ≤ v) {pat : List UInt8} {icase : Bool}
    (h : (buildGnfaAt w pat icase).1 = true) :
    buildGnfaAt v pat icase = (true, (buildGnfaAt w pat icase).2.widen v) := by
  rw [buildGnfaAt_eq] at h
  rw [buildGnfaAt_eq, buildGnfaAt_eq]
  by_cases hlen : 1024 ≤ (peelAnchors pat).2.2.length
  · rw [if_pos hlen] at h
    exact absurd h Bool.false_ne_true
  rw [if_neg hlen] at h
  rw [if_neg hlen, if_neg hlen]
  by_cases hnil : (peelAnchors pat).2.2 = []
  · rw [if_pos hnil, if_pos hnil]
    have hstart := congrArg GPar.g (startPar_widen (w := w) (v := v) pat icase)
    refine congrArg (Prod.mk true) ?_
    have hg : (startGnfa w pat icase).widen v = startGnfa v pat icase := hstart
    rw [← hg]
    rfl
  rw [if_neg hnil] at h
  rw [if_neg hnil, if_neg hnil]
  have hsame := gAlt_widen hwv ((peelAnchors pat).2.2.length + 1) (startPar w pat icase)
  rw [startPar_widen] at hsame
  generalize gAlt ((peelAnchors pat).2.2.length + 1) (startPar w pat icase) = r at h hsame ⊢
  dsimp only at h ⊢
  by_cases hacc : (!r.2.g.ok || r.2.p != [] || r.2.g.npos == 0) = true
  · rw [if_pos hacc] at h
    exact absurd h Bool.false_ne_true
  have hok : r.2.g.ok = true := by
    by_contra hno
    exact hacc (by rw [Bool.eq_false_iff.mpr hno]; rfl)
  rw [hsame hok, if_neg hacc]
  have hacc' : ¬ (!(widenPair v r).2.g.ok || (widenPair v r).2.p != []
      || (widenPair v r).2.g.npos == 0) = true := hacc
  rw [if_neg hacc']
  rfl

theorem frag_widen (hwv : w ≤ v) {g : Gnfa w} (hn : g.npos ≤ w) :
    (g.widen v).frag (buildImap (g.widen v)) = g.frag (buildImap g) := by
  have hsym : ∀ p, {c | (buildImap (g.widen v) c).getLsbD p = true}
      = {c | (buildImap g c).getLsbD p = true} := by
    intro p
    ext c
    show (buildImap (g.widen v) c).getLsbD p = true ↔ (buildImap g c).getLsbD p = true
    rw [mem_buildImap hn, mem_buildImap (hn.trans hwv : (g.widen v).npos ≤ v)]
    rfl
  simp only [Gnfa.frag, hsym]
  simp only [Gnfa.widen, setWidth_getLsbD hwv]

theorem gnfaFull_widen (hwv : w ≤ v) {g : Gnfa w} (hn : g.npos ≤ w) (hay : List UInt8) :
    gnfaFull (g.widen v) (buildImap (g.widen v)) hay = gnfaFull g (buildImap g) hay := by
  rw [Bool.eq_iff_iff, gnfaFull_iff, gnfaFull_iff, frag_widen hwv hn]

end Montauk
