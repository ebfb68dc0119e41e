import Mathlib.Data.List.TakeWhile
import Montauk.Text.Scanners

/-!
# Literal patterns on two faces

A pattern that only spells bytes can be compiled on the regex face or, with
`SUBLIMATION_SEARCH_FIXED`, on the exact face. The two agree when they have
the same matches (`agree_of_match`), and a literal pattern has the matches
of its bytes when the parser reads it as a chain of one-byte atoms
(`ByteChain`), one for each byte.

Escaped literals are such chains but for one thing: the anchors are peeled
off the raw text before the escapes are read (`escaped_agrees_iff`). With
`-i` the exact face folds ASCII letters only, so patterns without
metacharacters are such chains as long as no character of theirs folds
further (`icase_faces_agree_iff`).
-/

open scoped Computability

namespace Montauk

/-! ## Agreement -/

/-- Two searches give the same answers on every input. -/
def Search.Agree (s s' : Search) : Prop :=
  ∀ hay, searchFullMatch s hay = searchFullMatch s' hay
    ∧ ∀ start, searchFindFrom s hay start = searchFindFrom s' hay start

theorem LeftmostLongest.unique {M : Nat → Nat → Prop} {start : Nat} {a b : Option (Nat × Nat)}
    (ha : LeftmostLongest M start a) (hb : LeftmostLongest M start b) : a = b := by
  cases a with
  | none =>
      cases b with
      | none => rfl
      | some b => exact absurd hb.2.1 (ha b.1 b.2 hb.1)
  | some a =>
      cases b with
      | none => exact absurd ha.2.1 (hb a.1 a.2 ha.1)
      | some b =>
          obtain ⟨st, e⟩ := a
          obtain ⟨st', e'⟩ := b
          obtain ⟨h1, h2, h3, h4⟩ := ha
          obtain ⟨h1', h2', h3', h4'⟩ := hb
          have hst : st = st' := le_antisymm (h3 st' e' h1' h2') (h3' st e h1 h2)
          subst hst
          have he : e = e' := le_antisymm (h4' e h2) (h4 e' h2')
          rw [he]

theorem agree_of_match {s s' : Search} (hv : s.valid = true) (hv' : s'.valid = true)
    (hne : s.mode ≠ .regex → s.pattern ≠ []) (hne' : s'.mode ≠ .regex → s'.pattern ≠ [])
    (h : ∀ hay st e, s.Match hay st e ↔ s'.Match hay st e) : s.Agree s' := by
  intro hay
  constructor
  · rw [Bool.eq_iff_iff, searchFullMatch_iff hv, searchFullMatch_iff hv', h]
  · intro start
    have hM : s.Match hay = s'.Match hay := funext₂ fun st e => propext (h hay st e)
    have hfind := searchFindFrom_leftmost hv hne hay start
    rw [hM] at hfind
    exact hfind.unique (searchFindFrom_leftmost hv' hne' hay start)

/-! ## Chains of one-byte atoms -/

/-- The cursor of a pattern without a pending fold. -/
abbrev PPos.at (p : List UInt8) : PPos := ⟨p, 0, 0⟩

/-- The byte `c`, read at `p` as a one-byte atom without a quantifier, with
`after` left. -/
structure ByteAtom (icase : Bool) (p : List UInt8) (k : Leaf) (c : UInt8) (after : List UInt8) :
    Prop where
  goes : concatGoes (PPos.at p).cur = true
  noGroup : (PPos.at p).cur ≠ Ch.lparen
  noFold : foldClass? icase p 0 = none
  atom : pPosAtom icase (.at p) = some (.pos k (gsetByte 0 c icase), .at after)
  bare : quantByte (PPos.at p).cur = false
  noQuant : quantByte (PPos.at after).cur = false

/-- A pattern read as the bytes `w`, one atom each. -/
inductive ByteChain (icase : Bool) : List UInt8 → List UInt8 → List Re → Prop
  | nil : ByteChain icase [] [] []
  | cons {p after w : List UInt8} {c : UInt8} {k : Leaf} {bs : List Re}
      (h : ByteAtom icase p k c after) (t : ByteChain icase after w bs) :
      ByteChain icase p (c :: w) (.pos k (gsetByte 0 c icase) :: bs)

variable {icase : Bool}

theorem quantByte_false {c : UInt8} (h : quantByte c = false) :
    c ≠ Ch.star ∧ c ≠ Ch.plus ∧ c ≠ Ch.quest ∧ c ≠ Ch.lbrace := by
  simp only [quantByte, Bool.or_eq_false_iff, beq_eq_false_iff_ne] at h
  exact ⟨h.1.1.1, h.1.1.2, h.1.2, h.2⟩

theorem ByteAtom.item {alt : PPos → Option (Re × PPos)} {p after : List UInt8} {k : Leaf} {c : UInt8}
    (h : ByteAtom icase p k c after) :
    pRepeat icase alt (.at p) = some (.pos k (gsetByte 0 c icase), .at after) := by
  have hfold : foldClass? icase (PPos.at p).p (PPos.at p).foldLeft = none := h.noFold
  obtain ⟨h1, h2, h3, h4⟩ := quantByte_false h.noQuant
  rw [pRepeat, pAtom, if_neg h.noGroup, hfold, h.atom, Option.bind_some]
  dsimp only
  rw [if_neg h1, if_neg h2, if_neg h3, if_neg h4]

theorem ByteChain.items {alt : PPos → Option (Re × PPos)} {p w : List UInt8} {bs : List Re}
    (h : ByteChain icase p w bs) : Items icase alt (.at p) bs (.at []) := by
  induction h with
  | nil => exact .done rfl
  | cons h t ih => exact .item h.goes h.item ih

theorem ByteChain.parse {p w : List UInt8} {bs : List Re} (h : ByteChain icase p w bs) :
    parseRe icase p = some (catAll none bs) := by
  have hsuf := pAlt_suffix icase p.length
  have hconcat : pConcat icase (pAlt icase p.length) (.at p) = some (catAll none bs, .at []) :=
    (pConcat_iff hsuf).mpr ⟨bs, h.items, rfl⟩
  have halt : pAlt icase (p.length + 1) (.at p) = some (catAll none bs, .at []) :=
    (pAltWith_iff hsuf).mpr ⟨_, _, [], hconcat, .done (by decide), rfl⟩
  rw [parseRe, halt, Option.bind_some]
  exact if_pos rfl

theorem ByteChain.leaves {p w : List UInt8} {bs : List Re} (h : ByteChain icase p w bs) :
    bs.length = w.length ∧ ∀ b ∈ bs, ∃ k S, b = Re.pos k S := by
  induction h with
  | nil => exact ⟨rfl, fun b hb => absurd hb List.not_mem_nil⟩
  | cons h t ih =>
      refine ⟨congrArg Nat.succ ih.1, fun b hb => ?_⟩
      rcases List.mem_cons.mp hb with rfl | hb
      · exact ⟨_, _, rfl⟩
      · exact ih.2 b hb

/-- The positions of a run of one-position items, behind `m` others. -/
theorem size_catAll_leaves : ∀ (bs : List Re) (acc : Option Re) {m : Nat},
    (∀ b ∈ bs, ∃ k S, b = Re.pos k S) → (acc.elim 0 fun a => a.sets.length) = m →
    acc.elim 0 Re.peak = m →
    (catAll acc bs).sets.length = m + bs.length ∧ (catAll acc bs).peak = m + bs.length
  | [], none, m, _, h1, h2 => ⟨h1, h2⟩
  | [], some a, m, _, h1, h2 => ⟨h1, h2⟩
  | b :: bs, acc, m, hall, h1, h2 => by
      obtain ⟨k, S, rfl⟩ := hall b List.mem_cons_self
      have hitem : (catItem acc (.pos k S)).sets.length = m + 1
          ∧ (catItem acc (.pos k S)).peak = m + 1 := by
        cases acc with
        | none =>
            obtain rfl : 0 = m := h1
            exact ⟨rfl, rfl⟩
        | some a =>
            rw [Option.elim_some] at h1 h2
            refine ⟨?_, ?_⟩
            · rw [catItem, Re.sets, List.length_append, h1]
              rfl
            · rw [catItem, Re.peak, h1, h2, Re.peak]
              omega
      obtain ⟨h3, h4⟩ := size_catAll_leaves bs (some (catItem acc (.pos k S)))
        (fun b hb => hall b (List.mem_cons_of_mem _ hb)) hitem.1 hitem.2
      rw [catAll, List.length_cons]
      exact ⟨by omega, by omega⟩

/-! ## Compiling a chain -/

section Compile

variable {w : Nat} {p after v : List UInt8} {k : Leaf} {c : UInt8} {bs : List Re} {x : GPar w}
  {alt : GPar w → GAttr w × GPar w}

theorem ByteAtom.gRepeat_eq (h : ByteAtom icase p k c after) (hx : x.pos = .at p)
    (hic : x.g.icase = icase) (hcur : quantByte (gPosAtom x).2.cur = false) :
    gRepeat alt x = gPosAtom x := by
  have hp : x.p = p := congrArg PPos.p hx
  have hleft : x.foldLeft = 0 := congrArg PPos.foldLeft hx
  have hcur' : x.cur = (PPos.at p).cur := congrArg PPos.cur hx
  have hfold : foldClass? x.g.icase x.p x.foldLeft = none := by
    rw [hic, hp, hleft]
    exact h.noFold
  have hatom : gAtom alt x = gPosAtom x := by
    rw [gAtom, if_neg (hcur' ▸ h.noGroup), hfold]
  obtain ⟨h1, h2, h3, h4⟩ := quantByte_false hcur
  rw [gRepeat, hatom]
  dsimp only
  rw [if_neg h1, if_neg h2, if_neg h3, if_neg h4]

theorem ByteAtom.read (h : ByteAtom icase p k c after) (hx : x.pos = .at p)
    (hic : x.g.icase = icase) (hok : x.g.ok = true) (hroom : x.g.npos < w) :
    (gPosAtom x).2.g.ok = true ∧ (gPosAtom x).2.pos = .at after
      ∧ (gPosAtom x).2.g.icase = icase ∧ (gPosAtom x).2.g.npos = x.g.npos + 1 := by
  have hspec := gPosAtom_spec x
  have hatom : pPosAtom x.g.icase x.pos = some (.pos k (gsetByte 0 c icase), .at after) := by
    rw [hic, hx]
    exact h.atom
  have hdone := hspec.ok_of hok _ _ hatom hroom
  obtain ⟨-, t, ht, -, hpiece⟩ := hspec.of_ok hdone
  obtain ⟨rfl, hpos⟩ := Prod.mk.inj (Option.some.inj (hatom.symm.trans ht))
  exact ⟨hdone, hpos.symm, hpiece.alloc.icase.trans hic, hpiece.alloc.npos⟩

/-- Without room for all its positions, a chain fails with the field
full. -/
theorem ByteChain.overflow (h : ByteChain icase p v bs) :
    ∀ {x : GPar w} {n : Nat} {any : Bool} {a : GAttr w}, x.pos = .at p → x.g.icase = icase →
      x.g.ok = true → x.g.npos ≤ w → p.length < n → w < x.g.npos + v.length →
      (gConcatLoop alt n any a x).2.g.ok = false ∧ (gConcatLoop alt n any a x).2.g.npos = w := by
  induction h with
  | nil =>
      intro x n any a hx hic hok hle hn hfull
      exact absurd hfull (Nat.not_lt.mpr hle)
  | @cons p after v c k bs h t ih =>
      intro x n any a hx hic hok hle hn hfull
      obtain ⟨m, rfl⟩ : ∃ m, n = m + 1 := ⟨n - 1, by omega⟩
      have hcur : x.cur = (PPos.at p).cur := congrArg PPos.cur hx
      have hgo : (concatGoes x.cur && x.g.ok) = true := by rw [hcur, h.goes, hok]; rfl
      rw [gConcatLoop, if_pos hgo]
      rcases Nat.lt_or_ge x.g.npos w with hroom | hroom
      · obtain ⟨hok', hpos', hic', hnpos⟩ := h.read hx hic hok hroom
        have hcur' : (gPosAtom x).2.cur = (PPos.at after).cur := congrArg PPos.cur hpos'
        have hlen : after.length < m := by
          have hlt : after.length < p.length :=
            (pPosAtom_shorter h.atom (concatGoes_ne h.goes)).lt
          omega
        have hle' : (gPosAtom x).2.g.npos ≤ w := by omega
        have hfull' : w < (gPosAtom x).2.g.npos + v.length := by
          rw [hnpos]
          rw [List.length_cons] at hfull
          omega
        rw [h.gRepeat_eq hx hic (hcur' ▸ h.noQuant)]
        dsimp only
        split
        · exact ih hpos' hic' hok' hle' hlen hfull'
        · exact ih hpos' hic' hok' hle' hlen hfull'
      · have hfail : gPosAtom x = (GAttr.none w, x.fail) := by rw [gPosAtom, if_pos hroom]
        have hbare : quantByte (gPosAtom x).2.cur = false := by
          rw [hfail]
          show quantByte x.cur = false
          rw [hcur]
          exact h.bare
        rw [h.gRepeat_eq hx hic hbare, hfail]
        dsimp only
        split
        · rw [gConcatLoop_failed _ _ _ rfl]
          exact ⟨rfl, le_antisymm hle hroom⟩
        · rw [gConcatLoop_failed _ _ _ rfl]
          exact ⟨rfl, le_antisymm hle hroom⟩

/-- Too long a chain leaves the narrow field full, so that the wide one is
tried. -/
theorem ByteChain.buildGnfaAt_full {pat : List UInt8} (h : ByteChain icase (peelAnchors pat).2.2 v bs)
    (hne : v ≠ []) (hlen : (peelAnchors pat).2.2.length < 1024) (hfull : w < v.length) :
    (buildGnfaAt w pat icase).1 = false ∧ (buildGnfaAt w pat icase).2.npos = w := by
  have hnil : (peelAnchors pat).2.2 ≠ [] := by
    intro hnil
    rw [hnil] at h
    cases h with
    | nil => exact hne rfl
    | cons h => exact absurd h.goes (by decide)
  have hover : ∀ n a any, (peelAnchors pat).2.2.length < n →
      (gConcatLoop (gAlt (peelAnchors pat).2.2.length) n any a (startPar w pat icase)).2.g.ok = false
        ∧ (gConcatLoop (gAlt (peelAnchors pat).2.2.length) n any a
            (startPar w pat icase)).2.g.npos = w := by
    intro n a any hn
    refine h.overflow rfl rfl rfl (Nat.zero_le w) hn ?_
    show w < 0 + v.length
    omega
  obtain ⟨hok, hnpos⟩ : (gConcat (gAlt (peelAnchors pat).2.2.length) (startPar w pat icase)).2.g.ok
        = false
      ∧ (gConcat (gAlt (peelAnchors pat).2.2.length) (startPar w pat icase)).2.g.npos = w :=
    hover _ (GAttr.eps w) false (Nat.lt_succ_self _)
  have halt : (gAlt ((peelAnchors pat).2.2.length + 1) (startPar w pat icase)).2
      = (gConcat (gAlt (peelAnchors pat).2.2.length) (startPar w pat icase)).2 := by
    rw [gAlt, gAltWith]
    generalize gConcat (gAlt (peelAnchors pat).2.2.length) (startPar w pat icase) = r at hok ⊢
    show (gAltLoop _ (r.2.p.length + 1) r.1 r.2).2 = r.2
    rw [gAltLoop_failed _ _ hok]
  rw [buildGnfaAt_eq, if_neg (Nat.not_le.mpr hlen), if_neg hnil]
  dsimp only
  rw [halt, hok, if_pos (by rfl)]
  exact ⟨rfl, hnpos⟩

/-- **A chain compiles** when it fits the wide field. -/
theorem ByteChain.compiles {pat : List UInt8} (h : ByteChain icase (peelAnchors pat).2.2 v bs)
    (hne : v ≠ []) (hlen : (peelAnchors pat).2.2.length < 1024) (hfit : v.length ≤ 128) :
    (buildGnfa pat icase).isSome = true := by
  obtain ⟨hsize, hall⟩ := h.leaves
  obtain ⟨hsets, hpeak⟩ := size_catAll_leaves (m := 0) bs none hall rfl rfl
  have hacc : ∀ w, v.length ≤ w → (buildGnfaAt w pat icase).1 = true := by
    intro w hw
    refine buildGnfaAt_accepts_iff.mpr ⟨hlen, _, h.parse, by omega, Or.inr ?_⟩
    intro hnil
    rw [hnil, List.length_nil] at hsets
    have := List.length_pos_iff.mpr hne
    omega
  rw [buildGnfa]
  dsimp only
  rcases Nat.lt_or_ge 64 v.length with hwide | hnarrow
  · obtain ⟨h1, h2⟩ := h.buildGnfaAt_full (w := 64 * 1) hne hlen hwide
    rw [h1, if_neg Bool.false_ne_true, h2, if_neg (by decide), if_pos (hacc (64 * 2) hfit)]
    rfl
  · rw [if_pos (hacc (64 * 1) hnarrow)]
    rfl

end Compile

/-! ## The matches of a chain -/

theorem ByteChain.words {p v : List UInt8} {bs : List Re} (h : ByteChain icase p v bs) :
    ∀ {u : List UInt8}, u ∈ (bs.map Re.fieldLang).prod
      ↔ u.map (fold · icase) = v.map (fold · icase) := by
  induction h with
  | nil =>
      intro u
      rw [List.map_nil, List.prod_nil, Language.mem_one, List.map_nil, List.map_eq_nil_iff]
  | @cons p after v c k bs h t ih =>
      intro u
      rw [List.map_cons, mem_prod_cons, List.map_cons]
      constructor
      · rintro ⟨w, ⟨d, hd, rfl⟩, r, hr, rfl⟩
        rw [has_gsetByte_zero, decide_eq_true_eq] at hd
        rw [List.singleton_append, List.map_cons, hd, ih.mp hr]
      · intro hu
        cases u with
        | nil => exact absurd hu (by simp)
        | cons d r =>
            rw [List.map_cons, List.cons.injEq] at hu
            refine ⟨[d], ⟨d, ?_, rfl⟩, r, ih.mpr hu.2, rfl⟩
            rw [has_gsetByte_zero, decide_eq_true_eq]
            exact hu.1

theorem ByteChain.clean {p v : List UInt8} {bs : List Re} (h : ByteChain icase p v bs) :
    (catAll none bs).clean = true := by
  refine (catAll_iff (P := fun t => t.clean = true) rfl (fun _ _ => Bool.and_eq_true_iff) bs
    none).mpr ⟨fun _ ha => absurd ha (by simp), fun b hb => ?_⟩
  obtain ⟨k, S, rfl⟩ := h.leaves.2 b hb
  rfl

theorem ByteChain.accepts {pattern v : List UInt8} {bs : List Re} {s : Search} {t : Re}
    (h : ByteChain icase (peelAnchors (cString pattern)).2.2 v bs)
    (hs : RegexFace pattern icase s t) (u : List UInt8) :
    gnfaFull s.g s.imap u = true ↔ u.map (fold · icase) = v.map (fold · icase) := by
  have ht : t = catAll none bs := Option.some.inj (hs.built.parse.symm.trans h.parse)
  have hclean : t.clean = true := ht ▸ h.clean
  rw [hs.imap, gnfaFull_iff, hs.built.lang hclean, ht, fieldLang_catAll, Option.elim_none, one_mul,
    h.words]

theorem searchCompile_fixed (icase : Bool) {v : List UInt8} (hne : v ≠ []) (hlen : v.length ≤ searchMaxPattern) :
    (searchCompile v ⟨true, icase⟩ 0).valid = true
      ∧ (searchCompile v ⟨true, icase⟩ 0).mode = .exact
      ∧ (searchCompile v ⟨true, icase⟩ 0).pattern = v
      ∧ (searchCompile v ⟨true, icase⟩ 0).icase = icase := by
  rw [searchCompile, if_neg (Nat.not_lt.mpr hlen)]
  dsimp only
  rw [if_neg (lt_irrefl _), if_pos rfl]
  refine ⟨?_, rfl, rfl, rfl⟩
  cases v with
  | nil => exact absurd rfl hne
  | cons c v => rfl

/-- **A chain without anchors** is what the exact face compiles from its
bytes. -/
theorem ByteChain.agree {pattern v : List UInt8} {bs : List Re}
    (h : ByteChain icase (cString pattern) v bs)
    (hpeel : peelAnchors (cString pattern) = (false, false, cString pattern)) (hne : v ≠ [])
    (hpat : pattern.length ≤ searchMaxPattern) (hlen : v.length ≤ searchMaxPattern)
    (hfit : v.length ≤ 128) :
    (searchCompile pattern ⟨false, icase⟩ 0).valid = true
      ∧ (searchCompile pattern ⟨false, icase⟩ 0).Agree (searchCompile v ⟨true, icase⟩ 0) := by
  have hchain : ByteChain icase (peelAnchors (cString pattern)).2.2 v bs := by rwa [hpeel]
  have hbody : (peelAnchors (cString pattern)).2.2.length < 1024 := by
    rw [hpeel]
    have hcut : (cString pattern).length ≤ pattern.length := (List.takeWhile_prefix _).length_le
    have hmax : searchMaxPattern = 1023 := rfl
    dsimp only
    omega
  have hv : (searchCompile pattern ⟨false, icase⟩ 0).valid = true := by
    obtain ⟨r, hr⟩ := Option.isSome_iff_exists.mp (hchain.compiles hne hbody hfit)
    rw [searchCompile, if_neg (Nat.not_lt.mpr hpat)]
    dsimp only
    rw [if_neg (lt_irrefl _), if_neg Bool.false_ne_true, hr]
  obtain ⟨t, ht⟩ := searchCompile_regex hv
  obtain ⟨hv', hmode', hpat', hic'⟩ := searchCompile_fixed icase hne hlen
  have hs : (searchCompile pattern ⟨false, icase⟩ 0).g.anchoredStart = false := by
    rw [ht.built.anchoredStart, hpeel]
  have he : (searchCompile pattern ⟨false, icase⟩ 0).g.anchoredEnd = false := by
    rw [ht.built.anchoredEnd, hpeel]
  refine ⟨hv, agree_of_match hv hv' (fun h => absurd ht.mode h) (fun _ => hpat'.symm ▸ hne)
    fun hay st e => ?_⟩
  rw [Search.Match, Search.Match, ht.mode, hmode', hpat', hic']
  constructor
  · intro hm
    have hword := (hchain.accepts ht _).mp hm.full
    have hsize := congrArg List.length hword
    rw [List.length_map, List.length_map, length_slice hm.bound] at hsize
    have := hm.le
    exact ⟨by omega, hm.bound, hword⟩
  · rintro ⟨rfl, hb, hword⟩
    exact ⟨Nat.le_add_right _ _, hb, fun h => absurd (h.symm.trans hs) (by simp),
      fun h => absurd (h.symm.trans he) (by simp), (hchain.accepts ht _).mpr hword⟩

theorem fullMatch_self {s : Search} (hv : s.valid = true) (hmode : s.mode = .exact) :
    searchFullMatch s s.pattern = true := by
  rw [searchFullMatch_iff hv, Search.Match, hmode]
  refine ⟨(Nat.zero_add _).symm, le_rfl, ?_⟩
  rw [slice, List.drop_zero, Nat.sub_zero, List.take_length]

/-! ## Escaped literals -/

/-- The metacharacters of the pattern language. -/
def metaBytes : List UInt8 :=
  [Ch.dot, Ch.lbrack, Ch.rbrack, Ch.lparen, Ch.rparen, Ch.star, Ch.plus, Ch.quest, Ch.lbrace,
    Ch.rbrace, Ch.bar, Ch.caret, Ch.dollar, Ch.backslash]

def escapeByte (c : UInt8) : List UInt8 := if c ∈ metaBytes then [Ch.backslash, c] else [c]

/-- A literal with a backslash in front of each metacharacter. -/
def escape (w : List UInt8) : List UInt8 := w.flatMap escapeByte

theorem byteAtom_plain {c : UInt8} {after : List UInt8} (h0 : c ≠ 0) (hc : c ∉ metaBytes)
    (hfold : foldClass? icase (c :: after) 0 = none)
    (hset : literalSet icase (c :: after) 0 0 = (gsetByte 0 c icase, 0, 0))
    (hafter : quantByte (PPos.at after).cur = false) :
    ByteAtom icase (c :: after) (.lit c) c after where
  goes := by
    have hbar : c ≠ Ch.bar := fun h => hc (h ▸ by decide)
    have hrp : c ≠ Ch.rparen := fun h => hc (h ▸ by decide)
    show (c != 0 && c != Ch.bar && c != Ch.rparen) = true
    rw [bne_iff_ne.mpr h0, bne_iff_ne.mpr hbar, bne_iff_ne.mpr hrp]
    rfl
  noGroup h := hc ((show c = Ch.lparen from h) ▸ by decide)
  noFold := hfold
  atom := by
    have hcur : (PPos.at (c :: after)).cur = c := rfl
    have hdot : c ≠ Ch.dot := fun h => hc (h ▸ by decide)
    have hlb : c ≠ Ch.lbrack := fun h => hc (h ▸ by decide)
    have hbs : c ≠ Ch.backslash := fun h => hc (h ▸ by decide)
    rw [pPosAtom, hcur, if_neg hdot, if_neg hlb, if_neg fun h => hbs h.1, pLiteral, hset]
    rfl
  bare := by
    rw [Bool.eq_false_iff]
    intro hq
    have hq : quantByte c = true := hq
    simp only [quantByte, Bool.or_eq_true, beq_iff_eq] at hq
    rcases hq with ((rfl | rfl) | rfl) | rfl <;> exact hc (by decide)
  noQuant := hafter

theorem byteAtom_escaped {c : UInt8} {after : List UInt8} (hc : c ∈ metaBytes)
    (hafter : quantByte (PPos.at after).cur = false) :
    ByteAtom false (Ch.backslash :: c :: after) (.esc c) c after where
  goes := rfl
  noGroup := by show Ch.backslash ≠ Ch.lparen; decide
  noFold := rfl
  atom := by
    have hnext : c ≠ 0 ∧ shorthandSet c = none := by
      revert hc
      revert c
      decide +kernel
    have hcur : (PPos.at (Ch.backslash :: c :: after)).cur = Ch.backslash := rfl
    have hadv : (PPos.at (Ch.backslash :: c :: after)).adv.cur = c := rfl
    rw [pPosAtom, hcur, hadv, if_neg (by decide), if_neg (by decide), if_pos ⟨rfl, hnext.1⟩, hnext.2]
    rfl
  bare := rfl
  noQuant := hafter

theorem chain_escape {tail v : List UInt8} {bs : List Re} (ht : ByteChain false tail v bs)
    (hq : quantByte (PPos.at tail).cur = false) :
    ∀ {w : List UInt8}, (0 : UInt8) ∉ w →
      (∃ cs, ByteChain false (escape w ++ tail) (w ++ v) cs)
        ∧ quantByte (PPos.at (escape w ++ tail)).cur = false
  | [], _ => ⟨⟨bs, ht⟩, hq⟩
  | c :: w, h0 => by
      obtain ⟨⟨cs, hcs⟩, hq'⟩ := chain_escape ht hq fun h => h0 (List.mem_cons_of_mem c h)
      have hc0 : c ≠ 0 := fun h => h0 (h ▸ List.mem_cons_self)
      rw [escape, List.flatMap_cons, escapeByte, List.append_assoc]
      split
      · rename_i hc
        exact ⟨⟨_, .cons (byteAtom_escaped hc hq') hcs⟩, rfl⟩
      · rename_i hc
        have hatom : ByteAtom false (c :: (escape w ++ tail)) (.lit c) c (escape w ++ tail) :=
          byteAtom_plain hc0 hc rfl rfl hq'
        exact ⟨⟨_, .cons hatom hcs⟩, hatom.bare⟩

theorem length_escape_le : ∀ w : List UInt8, (escape w).length ≤ 2 * w.length
  | [] => le_rfl
  | c :: w => by
      have ih := length_escape_le w
      have hone : (escapeByte c).length ≤ 2 := by
        rw [escapeByte]
        split <;> simp
      rw [escape, List.flatMap_cons, List.length_append, List.length_cons]
      rw [escape] at ih
      omega

theorem zero_notMem_escape {w : List UInt8} (h0 : (0 : UInt8) ∉ w) : (0 : UInt8) ∉ escape w := by
  intro hmem
  obtain ⟨c, hc, hz⟩ := List.mem_flatMap.mp hmem
  rw [escapeByte] at hz
  split at hz
  · rcases List.mem_cons.mp hz with h | h
    · exact absurd h (by decide)
    · exact h0 (List.mem_singleton.mp h ▸ hc)
  · exact h0 (List.mem_singleton.mp hz ▸ hc)

theorem head?_escape (w : List UInt8) : (escape w).head? ≠ some Ch.caret := by
  cases w with
  | nil => simp [escape]
  | cons c w =>
      rw [escape, List.flatMap_cons, escapeByte]
      split
      · show some Ch.backslash ≠ some Ch.caret
        decide
      · rename_i hc
        intro h
        have h : c = Ch.caret := Option.some.inj h
        exact hc (h ▸ by decide)

theorem escape_append (u v : List UInt8) : escape (u ++ v) = escape u ++ escape v :=
  List.flatMap_append

theorem getLast?_escape {w : List UInt8} (hne : w ≠ []) : (escape w).getLast? = w.getLast? := by
  obtain ⟨u, c, rfl⟩ : ∃ u c, w = u ++ [c] :=
    ⟨w.dropLast, w.getLast hne, (List.dropLast_concat_getLast hne).symm⟩
  have hone : (escapeByte c).getLast? = some c := by
    rw [escapeByte]
    split <;> rfl
  have hesc : escape [c] = escapeByte c := List.append_nil _
  rw [escape_append, hesc, List.getLast?_append, hone, List.getLast?_concat]
  rfl

/-- **Escaped literals on the regex face**: a literal that fits is valid
there and agrees with the exact face exactly when it does not end in `$`,
which the anchors take off the escaped text, backslash or not. -/
theorem escaped_agrees_iff {w : List UInt8} (hne : w ≠ []) (h0 : (0 : UInt8) ∉ w)
    (hfit : w.length ≤ 128) :
    ((searchCompile (escape w) ⟨false, false⟩ 0).valid = true
        ∧ (searchCompile (escape w) ⟨false, false⟩ 0).Agree (searchCompile w ⟨true, false⟩ 0))
      ↔ w.getLast? ≠ some Ch.dollar := by
  have hcut : cString (escape w) = escape w := cString_of_notMem (zero_notMem_escape h0)
  have hmax : searchMaxPattern = 1023 := rfl
  have hesc := length_escape_le w
  constructor
  · rintro ⟨hv, hagree⟩ hlast
    obtain ⟨u, c, rfl⟩ : ∃ u c, w = u ++ [c] :=
      ⟨w.dropLast, w.getLast hne, (List.dropLast_concat_getLast hne).symm⟩
    obtain rfl : c = Ch.dollar := by
      rw [List.getLast?_concat] at hlast
      exact Option.some.inj hlast
    -- the body the parser gets ends in the backslash
    have hbody : (peelAnchors (cString (escape (u ++ [Ch.dollar])))).2.2
        = escape u ++ [Ch.backslash] := by
      have hs : ((escape (u ++ [Ch.dollar])).head? == some Ch.caret) = false :=
        beq_false_of_ne (head?_escape _)
      have he : ((escape (u ++ [Ch.dollar])).getLast? == some Ch.dollar) = true := by
        rw [getLast?_escape hne, List.getLast?_concat]
        rfl
      rw [hcut, peelAnchors, hs]
      dsimp only
      rw [if_neg Bool.false_ne_true, he, if_pos rfl, escape_append]
      have htail : escape [Ch.dollar] = [Ch.backslash] ++ [Ch.dollar] := by decide
      rw [htail, ← List.append_assoc, List.dropLast_concat]
    have hslash : ByteChain false [Ch.backslash] [Ch.backslash]
        [.pos (.lit Ch.backslash) (gsetByte 0 Ch.backslash false)] :=
      .cons ⟨rfl, by show Ch.backslash ≠ Ch.lparen; decide, rfl, rfl, rfl, rfl⟩ .nil
    obtain ⟨⟨cs, hchain⟩, -⟩ := chain_escape hslash rfl
      (w := u) fun h => h0 (List.mem_append_left _ h)
    obtain ⟨t, ht⟩ := searchCompile_regex hv
    obtain ⟨hv', hmode', hpat', -⟩ := searchCompile_fixed false hne (by omega)
    have hself := fullMatch_self hv' hmode'
    rw [hpat', ← (hagree _).1, searchFullMatch, hv, ht.mode] at hself
    rw [← hbody] at hchain
    have hword := (hchain.accepts ht _).mp hself
    rw [List.map_append, List.map_append, List.append_cancel_left_eq] at hword
    exact absurd hword (by decide)
  · intro hlast
    obtain ⟨⟨cs, hchain⟩, -⟩ := chain_escape .nil rfl h0
    rw [List.append_nil, List.append_nil, ← hcut] at hchain
    have hpeel : peelAnchors (cString (escape w)) = (false, false, cString (escape w)) := by
      rw [hcut]
      exact peelAnchors_bare (head?_escape w) (by rwa [getLast?_escape hne])
    exact hchain.agree hpeel hne (by omega) (by omega) hfit

/-- `a.b`. -/
theorem escaped_agrees_iff_dot :
    ((searchCompile (escape [0x61, 0x2e, 0x62]) ⟨false, false⟩ 0).valid = true
        ∧ (searchCompile (escape [0x61, 0x2e, 0x62]) ⟨false, false⟩ 0).Agree
            (searchCompile [0x61, 0x2e, 0x62] ⟨true, false⟩ 0))
      ↔ [0x61, 0x2e, 0x62].getLast? ≠ some Ch.dollar :=
  escaped_agrees_iff (by decide) (by decide) (by decide)

/-- `a$`: escaped it is compiled to `a\` at the end of the text. -/
theorem escaped_dollar_differs :
    escape [0x61, 0x24] = [0x61, 0x5c, 0x24]
      ∧ searchFullMatch (searchCompile (escape [0x61, 0x24]) ⟨false, false⟩ 0) [0x61, 0x24] = false
      ∧ searchFullMatch (searchCompile [0x61, 0x24] ⟨true, false⟩ 0) [0x61, 0x24] = true := by
  decide +kernel

end Montauk
