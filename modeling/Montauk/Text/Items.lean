import Montauk.Text.Denote

/-!
# Items and branches

The shape of what the grammar reads, freed from fuel. Every reading
function leaves a suffix of its text, a proper one where something was
read (`Shorter`), so the loops always stop by themselves: a juxtaposition
is a run of items up to a byte that ends it (`Items`), an alternation a
list of juxtapositions between bars.
-/

namespace Montauk

/-- `r` is what is left of `p` after reading something. -/
structure Shorter (r p : List UInt8) : Prop where
  suffix : r <:+ p
  lt : r.length < p.length

theorem Shorter.trans {r q p : List UInt8} (h : Shorter r q) (h' : Shorter q p) : Shorter r p :=
  ⟨h.suffix.trans h'.suffix, h.lt.trans h'.lt⟩

theorem Shorter.of_suffix {r q p : List UInt8} (h : r <:+ q) (h' : Shorter q p) : Shorter r p :=
  ⟨h.trans h'.suffix, Nat.lt_of_le_of_lt h.length_le h'.lt⟩

theorem Shorter.trans_suffix {r q p : List UInt8} (h : Shorter r q) (h' : q <:+ p) : Shorter r p :=
  ⟨h.suffix.trans h', Nat.lt_of_lt_of_le h.lt h'.length_le⟩

theorem shorter_cons (c : UInt8) (rest : List UInt8) : Shorter rest (c :: rest) :=
  ⟨List.suffix_cons c rest, Nat.lt_succ_self _⟩

theorem shorter_tail {p : List UInt8} (h : p ≠ []) : Shorter p.tail p := by
  cases p with
  | nil => exact absurd rfl h
  | cons c rest => exact shorter_cons c rest

/-! ## Bracket expressions and braces -/

theorem posixName_shorter : ∀ {p name r : List UInt8}, posixName p = some (name, r) → Shorter r p
  | c :: d :: rest, name, r, h => by
      rw [posixName] at h
      split at h
      · obtain ⟨-, rfl⟩ := Prod.mk.inj (Option.some.inj h)
        exact (shorter_cons d rest).trans (shorter_cons c (d :: rest))
      · obtain ⟨⟨name', r'⟩, hr, heq⟩ := Option.map_eq_some_iff.mp h
        obtain ⟨-, rfl⟩ := Prod.mk.inj heq
        exact (posixName_shorter hr).trans (shorter_cons c (d :: rest))
  | [_], _, _, h => absurd h (by simp [posixName])
  | [], _, _, h => absurd h (by simp [posixName])

theorem posixClassSpan_name {c d : UInt8} {rest r : List UInt8} {S S' : ByteSet} {icase : Bool}
    (h : posixClassSpan (c :: d :: rest) S icase = .span S' r) :
    ∃ name, posixName rest = some (name, r) := by
  rw [posixClassSpan] at h
  split at h
  · split at h
    · exact absurd h (by simp)
    · rename_i name after hname
      split at h
      · exact absurd h (by simp)
      · obtain ⟨-, rfl⟩ := PosixSpan.span.inj h
        exact ⟨name, hname⟩
  · exact absurd h (by simp)

theorem posixClassSpan_shorter {p : List UInt8} {S S' : ByteSet} {icase : Bool} {r : List UInt8}
    (h : posixClassSpan p S icase = .span S' r) : Shorter r p := by
  match p, h with
  | [], h => exact absurd h (by simp [posixClassSpan])
  | [_], h => exact absurd h (by simp [posixClassSpan])
  | c :: d :: rest, h =>
      obtain ⟨name, hname⟩ := posixClassSpan_name h
      exact ((posixName_shorter hname).trans (shorter_cons d rest)).trans
        (shorter_cons c (d :: rest))

theorem classLoop_shorter {icase : Bool} :
    ∀ {n : Nat} {first : Bool} {S S' : ByteSet} {p r : List UInt8},
      classLoop icase n first S p = some (S', r) → Shorter r p
  | 0, _, _, _, _, _, h => absurd h (by simp [classLoop])
  | _ + 1, _, _, _, [], _, h => absurd h (by simp [classLoop])
  | n + 1, first, S, S', c :: rest, r, h => by
      unfold classLoop at h
      split at h
      · obtain ⟨-, rfl⟩ := Prod.mk.inj (Option.some.inj h)
        exact shorter_cons c rest
      · split at h
        · exact absurd h (by simp)
        · rename_i hspan
          exact (classLoop_shorter h).trans (posixClassSpan_shorter hspan)
        · split at h
          · rename_i d hi rest' hlit
            split at h
            · exact (classLoop_shorter h).trans_suffix
                (((List.suffix_cons hi rest').trans (List.suffix_cons d _)).trans
                  (List.suffix_cons c _))
            · exact (classLoop_shorter h).trans (shorter_cons c _)
          · exact (classLoop_shorter h).trans (shorter_cons c _)

theorem classSpan_shorter {p r : List UInt8} {icase : Bool} {S : ByteSet}
    (h : classSpan p icase = some (S, r)) : Shorter r p := by
  rw [classSpan] at h
  obtain ⟨⟨S', r'⟩, hloop, heq⟩ := Option.map_eq_some_iff.mp h
  obtain ⟨-, rfl⟩ := Prod.mk.inj heq
  refine (classLoop_shorter hloop).trans_suffix ?_
  split
  · exact (List.tail_suffix _).trans (List.tail_suffix _)
  · exact List.tail_suffix _

theorem readNumber_suffix : ∀ (p : List UInt8) (v : Nat), (readNumber p v).2 <:+ p
  | [], _ => List.suffix_rfl
  | c :: rest, v => by
      rw [readNumber]
      split
      · exact (readNumber_suffix rest _).trans (List.suffix_cons c rest)
      · exact List.suffix_rfl

theorem readBounds_suffix (p : List UInt8) : (readBounds p).rest <:+ p := by
  have h1 := readNumber_suffix p 0
  rw [readBounds]
  dsimp only
  split
  · have h2 := (List.tail_suffix (readNumber p 0).2).trans h1
    split
    · exact (readNumber_suffix _ 0).trans h2
    · exact h2
  · exact h1

/-! ## What the grammar leaves -/

section Suffix

variable {icase : Bool} {alt : PPos → Option (Re × PPos)}

theorem cur_ne_zero_iff {s : PPos} (h : s.cur ≠ 0) : s.p ≠ [] := by
  rintro hnil
  exact h (by rw [PPos.cur, hnil]; rfl)

theorem pPosAtom_shorter {s s' : PPos} {t : Re} (h : pPosAtom icase s = some (t, s'))
    (hne : s.p ≠ []) : Shorter s'.p s.p := by
  have htail := shorter_tail hne
  rw [pPosAtom] at h
  split at h
  · obtain ⟨-, rfl⟩ := Prod.mk.inj (Option.some.inj h)
    exact htail
  split at h
  · obtain ⟨⟨S, r⟩, hr, heq⟩ := Option.map_eq_some_iff.mp h
    obtain ⟨-, rfl⟩ := Prod.mk.inj heq
    exact classSpan_shorter hr
  split at h
  · split at h
    · obtain ⟨-, rfl⟩ := Prod.mk.inj (Option.some.inj h)
      exact htail.of_suffix (List.tail_suffix _)
    · obtain ⟨-, rfl⟩ := Prod.mk.inj (Option.some.inj h)
      exact htail.of_suffix (List.tail_suffix _)
  · obtain ⟨-, rfl⟩ := Prod.mk.inj (Option.some.inj h)
    exact htail

/-- A parser of nested alternations that leaves a suffix. -/
def LeavesSuffix (alt : PPos → Option (Re × PPos)) : Prop :=
  ∀ s t s', alt s = some (t, s') → s'.p <:+ s.p

theorem pAtom_shorter (halt : LeavesSuffix alt) {s s' : PPos} {t : Re}
    (h : pAtom icase alt s = some (t, s')) (hne : s.p ≠ []) : Shorter s'.p s.p := by
  have htail := shorter_tail hne
  rw [pAtom] at h
  split at h
  · obtain ⟨⟨u, s₁⟩, hu, h⟩ := Option.bind_eq_some_iff.mp h
    dsimp only at h
    split at h
    · obtain ⟨-, rfl⟩ := Prod.mk.inj (Option.some.inj h)
      exact htail.of_suffix ((List.tail_suffix _).trans (halt _ _ _ hu))
    · exact absurd h (by simp)
  · split at h
    · rename_i n ms hcls
      obtain ⟨-, rfl⟩ := Prod.mk.inj (Option.some.inj h)
      have htake := take_ne_nil_of_foldClass hcls
      have hn : n ≠ 0 := by
        rintro rfl
        exact htake (List.take_zero ..)
      refine ⟨List.drop_suffix _ _, ?_⟩
      have hlen := List.length_pos_iff.mpr hne
      show (s.p.drop n).length < s.p.length
      rw [List.length_drop]
      omega
    · exact pPosAtom_shorter h hne

theorem markStacked_pos {a t : Re} {s s' : PPos} (h : some (markStacked a s) = some (t, s')) :
    s' = s ∧ (t = a ∨ t = .stacked a) := by
  obtain ⟨h1, rfl⟩ := Prod.mk.inj (Option.some.inj h)
  refine ⟨rfl, ?_⟩
  rw [← h1]
  split
  · exact Or.inr rfl
  · exact Or.inl rfl

theorem pBrace_some {a t : Re} {s s' : PPos} (h : pBrace a s = some (t, s')) :
    a.sets.length = 1 ∧ ∃ hi, (readBounds s.p.tail).hi = some hi
      ∧ (readBounds s.p.tail).haslo = true ∧ (readBounds s.p.tail).rest.headD 0 = Ch.rbrace
      ∧ refused hi = false ∧ s' = { s with p := (readBounds s.p.tail).rest.tail }
      ∧ (t = .rep (readBounds s.p.tail).lo hi a ∨ t = .stacked (.rep (readBounds s.p.tail).lo hi a)) := by
  rw [pBrace] at h
  have hadv : s.adv.p = s.p.tail := rfl
  rw [hadv] at h
  split at h
  · exact absurd h (by simp)
  · rename_i hone
    dsimp only at h
    split at h
    · exact absurd h (by simp)
    · rename_i hi hhi
      split at h
      · exact absurd h (by simp)
      · rename_i hbad
        simp only [Bool.or_eq_true, Bool.not_eq_true', bne_iff_ne, ne_eq,
          not_or, Bool.not_eq_false, not_not, Bool.not_eq_true] at hbad
        obtain ⟨hs, ht⟩ := markStacked_pos h
        exact ⟨not_not.mp hone, hi, hhi, hbad.1.1, hbad.1.2, hbad.2, hs, ht⟩

theorem pRepeat_shorter (halt : LeavesSuffix alt) {s s' : PPos} {t : Re}
    (h : pRepeat icase alt s = some (t, s')) (hne : s.p ≠ []) : Shorter s'.p s.p := by
  rw [pRepeat] at h
  obtain ⟨⟨u, s₁⟩, hu, h⟩ := Option.bind_eq_some_iff.mp h
  have hatom := pAtom_shorter halt hu hne
  have htail : ∀ a, some (markStacked a s₁.adv) = some (t, s') → Shorter s'.p s.p := by
    intro a h
    rw [(markStacked_pos h).1]
    exact hatom.of_suffix (List.tail_suffix _)
  dsimp only at h
  split at h
  · exact htail _ h
  split at h
  · exact htail _ h
  split at h
  · exact htail _ h
  split at h
  · obtain ⟨-, hi, -, -, -, -, rfl, -⟩ := pBrace_some h
    exact hatom.of_suffix (((List.tail_suffix _).trans (readBounds_suffix _)).trans
      (List.tail_suffix _))
  · obtain ⟨-, rfl⟩ := Prod.mk.inj (Option.some.inj h)
    exact hatom

/-! ## Juxtapositions -/

/-- A run of items up to a byte that ends a juxtaposition. -/
inductive Items (icase : Bool) (alt : PPos → Option (Re × PPos)) : PPos → List Re → PPos → Prop
  | done {s : PPos} (h : concatGoes s.cur = false) : Items icase alt s [] s
  | item {s s₁ s' : PPos} {b : Re} {bs : List Re} (hgo : concatGoes s.cur = true)
      (hb : pRepeat icase alt s = some (b, s₁)) (h : Items icase alt s₁ bs s') :
      Items icase alt s (b :: bs) s'

def catAll : Option Re → List Re → Re
  | acc, [] => acc.getD .empty
  | acc, b :: bs => catAll (some (catItem acc b)) bs

theorem concatGoes_ne {s : PPos} (h : concatGoes s.cur = true) : s.p ≠ [] := by
  refine cur_ne_zero_iff fun h0 => ?_
  rw [h0] at h
  exact absurd h (by decide)

theorem Items.suffix (halt : LeavesSuffix alt) {s s' : PPos} {bs : List Re}
    (h : Items icase alt s bs s') : s'.p <:+ s.p := by
  induction h with
  | done => exact List.suffix_rfl
  | item hgo hb h ih => exact ih.trans (pRepeat_shorter halt hb (concatGoes_ne hgo)).suffix

/-- The loop of a juxtaposition reads its items, whatever fuel above the
length of the text it is given. -/
theorem pConcatLoop_iff (halt : LeavesSuffix alt) :
    ∀ (n : Nat) (acc : Option Re) (s : PPos) (t : Re) (s' : PPos), s.p.length < n →
      (pConcatLoop icase alt n acc s = some (t, s')
        ↔ ∃ bs, Items icase alt s bs s' ∧ t = catAll acc bs)
  | 0, _, _, _, _, h => absurd h (Nat.not_lt_zero _)
  | n + 1, acc, s, t, s', hn => by
      rw [pConcatLoop]
      by_cases hgo : concatGoes s.cur = true
      · rw [if_pos hgo, Option.bind_eq_some_iff]
        constructor
        · rintro ⟨⟨b, s₁⟩, hb, h⟩
          have hlt := (pRepeat_shorter halt hb (concatGoes_ne hgo)).lt
          obtain ⟨bs, hbs, rfl⟩ := (pConcatLoop_iff halt n _ s₁ t s' (by omega)).mp h
          exact ⟨b :: bs, .item hgo hb hbs, rfl⟩
        · rintro ⟨bs, hbs, rfl⟩
          cases hbs with
          | done h => exact absurd (h.symm.trans hgo) Bool.false_ne_true
          | @item _ s₁ _ b bs _ hb h =>
              have hlt := (pRepeat_shorter halt hb (concatGoes_ne hgo)).lt
              exact ⟨(b, s₁), hb, (pConcatLoop_iff halt n _ s₁ _ s' (by omega)).mpr ⟨bs, h, rfl⟩⟩
      · have hstop : concatGoes s.cur = false := Bool.eq_false_iff.mpr hgo
        rw [if_neg hgo]
        constructor
        · intro h
          obtain ⟨rfl, rfl⟩ := Prod.mk.inj (Option.some.inj h)
          exact ⟨[], .done hstop, rfl⟩
        · rintro ⟨bs, hbs, rfl⟩
          cases hbs with
          | done => rfl
          | item hgo' => exact absurd hgo' hgo

theorem pConcat_iff (halt : LeavesSuffix alt) {s s' : PPos} {t : Re} :
    pConcat icase alt s = some (t, s') ↔ ∃ bs, Items icase alt s bs s' ∧ t = catAll none bs :=
  pConcatLoop_iff halt _ none s t s' (Nat.lt_succ_self _)

/-! ## Alternations -/

/-- The branches behind the first one, each with its bar. -/
inductive Branches (icase : Bool) (alt : PPos → Option (Re × PPos)) :
    PPos → List Re → PPos → Prop
  | done {s : PPos} (h : s.cur ≠ Ch.bar) : Branches icase alt s [] s
  | branch {s s₁ s' : PPos} {b : Re} {bs : List Re} (hbar : s.cur = Ch.bar)
      (hb : pConcat icase alt s.adv = some (b, s₁)) (h : Branches icase alt s₁ bs s') :
      Branches icase alt s (b :: bs) s'

theorem pConcat_suffix (halt : LeavesSuffix alt) {s s' : PPos} {t : Re}
    (h : pConcat icase alt s = some (t, s')) : s'.p <:+ s.p := by
  obtain ⟨bs, hbs, -⟩ := (pConcat_iff halt).mp h
  exact hbs.suffix halt

theorem bar_ne {s : PPos} (h : s.cur = Ch.bar) : s.p ≠ [] :=
  cur_ne_zero_iff (by rw [h]; decide)

theorem Branches.suffix (halt : LeavesSuffix alt) {s s' : PPos} {bs : List Re}
    (h : Branches icase alt s bs s') : s'.p <:+ s.p := by
  induction h with
  | done => exact List.suffix_rfl
  | branch hbar hb h ih =>
      exact ih.trans ((pConcat_suffix halt hb).trans (List.tail_suffix _))

theorem pAltLoop_iff (halt : LeavesSuffix alt) :
    ∀ (n : Nat) (a : Re) (s : PPos) (t : Re) (s' : PPos), s.p.length < n →
      (pAltLoop icase alt n a s = some (t, s')
        ↔ ∃ bs, Branches icase alt s bs s' ∧ t = bs.foldl .alt a)
  | 0, _, _, _, _, h => absurd h (Nat.not_lt_zero _)
  | n + 1, a, s, t, s', hn => by
      rw [pAltLoop]
      by_cases hbar : s.cur = Ch.bar
      · rw [if_pos hbar, Option.bind_eq_some_iff]
        have htail := (shorter_tail (bar_ne hbar)).lt
        constructor
        · rintro ⟨⟨b, s₁⟩, hb, h⟩
          have hle : s₁.p.length ≤ s.p.tail.length := (pConcat_suffix halt hb).length_le
          obtain ⟨bs, hbs, rfl⟩ := (pAltLoop_iff halt n _ s₁ t s' (by omega)).mp h
          exact ⟨b :: bs, .branch hbar hb hbs, rfl⟩
        · rintro ⟨bs, hbs, rfl⟩
          cases hbs with
          | done h => exact absurd hbar h
          | @branch _ s₁ _ b bs _ hb h =>
              have hle : s₁.p.length ≤ s.p.tail.length := (pConcat_suffix halt hb).length_le
              exact ⟨(b, s₁), hb, (pAltLoop_iff halt n _ s₁ _ s' (by omega)).mpr ⟨bs, h, rfl⟩⟩
      · rw [if_neg hbar]
        constructor
        · intro h
          obtain ⟨rfl, rfl⟩ := Prod.mk.inj (Option.some.inj h)
          exact ⟨[], .done hbar, rfl⟩
        · rintro ⟨bs, hbs, rfl⟩
          cases hbs with
          | done => rfl
          | branch hbar' => exact absurd hbar' hbar

theorem pAltWith_iff (halt : LeavesSuffix alt) {s s' : PPos} {t : Re} :
    pAltWith icase alt s = some (t, s') ↔ ∃ b s₁ bs, pConcat icase alt s = some (b, s₁)
      ∧ Branches icase alt s₁ bs s' ∧ t = bs.foldl .alt b := by
  rw [pAltWith, Option.bind_eq_some_iff]
  constructor
  · rintro ⟨⟨b, s₁⟩, hb, h⟩
    obtain ⟨bs, hbs, rfl⟩ := (pAltLoop_iff halt _ b s₁ t s' (Nat.lt_succ_self _)).mp h
    exact ⟨b, s₁, bs, hb, hbs, rfl⟩
  · rintro ⟨b, s₁, bs, hb, hbs, rfl⟩
    exact ⟨(b, s₁), hb, (pAltLoop_iff halt _ b s₁ _ s' (Nat.lt_succ_self _)).mpr ⟨bs, hbs, rfl⟩⟩

theorem pAlt_suffix (icase : Bool) : ∀ d, LeavesSuffix (pAlt icase d)
  | 0, _, _, _, h => absurd h (by simp [pAlt])
  | d + 1, s, t, s', h => by
      obtain ⟨b, s₁, bs, hb, hbs, -⟩ := (pAltWith_iff (pAlt_suffix icase d)).mp h
      exact (hbs.suffix (pAlt_suffix icase d)).trans (pConcat_suffix (pAlt_suffix icase d) hb)

/-- The quantifier read behind an atom `a` at `s`. -/
inductive QuantOf (s : PPos) (a : Re) : Re → PPos → Prop
  | none (h : s.cur ≠ Ch.star ∧ s.cur ≠ Ch.plus ∧ s.cur ≠ Ch.quest ∧ s.cur ≠ Ch.lbrace) :
      QuantOf s a a s
  | star {b : Re} (h : s.cur = Ch.star) (hb : b = .star a ∨ b = .stacked (.star a)) :
      QuantOf s a b s.adv
  | plus {b : Re} (h : s.cur = Ch.plus) (hb : b = .plus a ∨ b = .stacked (.plus a)) :
      QuantOf s a b s.adv
  | quest {b : Re} (h : s.cur = Ch.quest) (hb : b = .opt a ∨ b = .stacked (.opt a)) :
      QuantOf s a b s.adv
  | brace {b : Re} {hi : Nat} (h : s.cur = Ch.lbrace) (hone : a.sets.length = 1)
      (hhi : (readBounds s.p.tail).hi = some hi) (hlo : (readBounds s.p.tail).haslo = true)
      (hend : (readBounds s.p.tail).rest.headD 0 = Ch.rbrace) (hle : refused hi = false)
      (hb : b = .rep (readBounds s.p.tail).lo hi a
        ∨ b = .stacked (.rep (readBounds s.p.tail).lo hi a)) :
      QuantOf s a b { s with p := (readBounds s.p.tail).rest.tail }

theorem pRepeat_quant {s s' : PPos} {b : Re} (h : pRepeat icase alt s = some (b, s')) :
    ∃ a s₁, pAtom icase alt s = some (a, s₁) ∧ QuantOf s₁ a b s' := by
  rw [pRepeat] at h
  obtain ⟨⟨a, s₁⟩, ha, h⟩ := Option.bind_eq_some_iff.mp h
  refine ⟨a, s₁, ha, ?_⟩
  dsimp only at h
  split at h
  · rename_i hq
    obtain ⟨rfl, hb⟩ := markStacked_pos h
    exact .star hq hb
  split at h
  · rename_i hq
    obtain ⟨rfl, hb⟩ := markStacked_pos h
    exact .plus hq hb
  split at h
  · rename_i hq
    obtain ⟨rfl, hb⟩ := markStacked_pos h
    exact .quest hq hb
  split at h
  · rename_i hq
    obtain ⟨hone, hi, hhi, hlo, hend, hle, rfl, hb⟩ := pBrace_some h
    exact .brace hq hone hhi hlo hend hle hb
  · rename_i h1 h2 h3 h4
    obtain ⟨rfl, rfl⟩ := Prod.mk.inj (Option.some.inj h)
    exact .none ⟨h1, h2, h3, h4⟩

end Suffix

/-! ## One-byte atoms without folding -/

/-- A one-byte atom read without folding: how it is written, its set and
the text behind it. -/
def plainAtom (p : List UInt8) : Option (Leaf × ByteSet × List UInt8) :=
  if p.headD 0 = Ch.dot then some (.any, BitVec.allOnes 256, p.tail)
  else if p.headD 0 = Ch.lbrack then (classSpan p false).map fun r => (.cls, r.1, r.2)
  else if p.headD 0 = Ch.backslash ∧ p.tail.headD 0 ≠ 0 then
    match shorthandSet (p.tail.headD 0) with
    | some S => some (.esc (p.tail.headD 0), S, p.tail.tail)
    | none => some (.esc (p.tail.headD 0), gsetByte 0 (p.tail.headD 0) false, p.tail.tail)
  else some (.lit (p.headD 0), gsetByte 0 (p.headD 0) false, p.tail)

/-- Outside groups, without folding, an atom is a one-byte atom. -/
theorem pAtom_plain {alt : PPos → Option (Re × PPos)} {s : PPos} (h : s.cur ≠ Ch.lparen) :
    pAtom false alt s
      = (plainAtom s.p).map fun r => (.pos r.1 r.2.1, { s with p := r.2.2 }) := by
  have hcls : foldClass? false s.p s.foldLeft = none := rfl
  rw [pAtom, if_neg h, hcls]
  dsimp only
  rw [pPosAtom, plainAtom]
  have hcur : s.cur = s.p.headD 0 := rfl
  have hnext : s.adv.cur = s.p.tail.headD 0 := rfl
  rw [hcur, hnext]
  split
  · rfl
  split
  · rw [Option.map_map]
    rfl
  split
  · cases shorthandSet (s.p.tail.headD 0) with
    | some S => rfl
    | none => rfl
  · rfl

end Montauk
