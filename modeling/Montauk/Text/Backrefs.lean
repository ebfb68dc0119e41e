import Montauk.Text.CaptureSpans
import Montauk.Text.Items
import Montauk.Text.Prefilter
import Montauk.Text.Replace

/-!
# Back references

`replace` reads its pattern twice: as a field, which finds the matches, and as
a tree, which finds the groups in a match. `Mirrors` relates the trees of the
two readings, and `capAlt_shadows` is the simulation: where the grammar of the
field reads a tree, the second parser reads one that mirrors it, so the two
denote the same language and every match has its groups
(`searchCaptures_of_match`).

Three corners are left out, because the two readings part there. The second
parser takes every quantifier behind an atom, the field one only
(`Re.unstacked`); it knows no anchors; and it folds single bytes (`Foldless`).
-/

open scoped Computability

namespace Montauk

/-! ## Trees that mirror each other -/

namespace Re

/-- No quantified atom has the text of another quantifier behind it. -/
def unstacked : Re → Bool
  | pos _ _ | folds _ | empty => true
  | group a | star a | plus a | opt a | rep _ _ a => a.unstacked
  | cat a b | alt a b => a.unstacked && b.unstacked
  | stacked _ => false

/-- The bodies of the groups, by their opening parentheses. -/
def groups : Re → List Re
  | pos _ _ | folds _ | empty => []
  | group a => a :: a.groups
  | star a | plus a | opt a | rep _ _ a | stacked a => a.groups
  | cat a b | alt a b => a.groups ++ b.groups

end Re

/-- Two trees of one shape, with the same bytes at their leaves. -/
inductive Mirrors (icase : Bool) : CapNode → Re → Prop
  | leaf {n : CapNode} {k : Leaf} {S : ByteSet} (hgroups : n.groups = [])
      (hroomy : n.roomy = true ∧ n.counted = true) (hlang : n.lang icase = Re.setLang S) :
      Mirrors icase n (.pos k S)
  | null : Mirrors icase .null .empty
  | group {x : Nat} {a : CapNode} {b : Re} (h : Mirrors icase a b) : Mirrors icase (.group x a) (.group b)
  | concat {a b : CapNode} {c d : Re} (h : Mirrors icase a c) (h' : Mirrors icase b d) :
      Mirrors icase (.concat a b) (.cat c d)
  | alt {a b : CapNode} {c d : Re} (h : Mirrors icase a c) (h' : Mirrors icase b d) :
      Mirrors icase (.alt a b) (.alt c d)
  | star {a : CapNode} {b : Re} (h : Mirrors icase a b) : Mirrors icase (.rep a 0 (-1)) (.star b)
  | plus {a : CapNode} {b : Re} (h : Mirrors icase a b) : Mirrors icase (.rep a 1 (-1)) (.plus b)
  | opt {a : CapNode} {b : Re} (h : Mirrors icase a b) : Mirrors icase (.rep a 0 1) (.opt b)
  | rep {a : CapNode} {b : Re} {lo hi : Nat} (h : Mirrors icase a b) :
      Mirrors icase (.rep a (Int32.ofNat lo) (Int32.ofNat hi)) (.rep lo hi b)

section
variable {icase : Bool} {n : CapNode} {t : Re}

theorem copiesLang_star (L : Language UInt8) : CapNode.copiesLang L 0 none = L∗ := by
  rw [Language.kstar_eq_iSup_pow]
  ext w
  constructor
  · rintro ⟨cnt, -, -, hmem⟩
    exact Language.mem_iSup.mpr ⟨cnt, hmem⟩
  · intro hmem
    obtain ⟨cnt, hmem⟩ := Language.mem_iSup.mp hmem
    exact ⟨cnt, Nat.zero_le _, nofun, hmem⟩

theorem copiesLang_plus (L : Language UInt8) : CapNode.copiesLang L 1 none = L * L∗ := by
  rw [← copiesLang_star]
  ext w
  constructor
  · rintro ⟨cnt, hcnt, -, hmem⟩
    obtain ⟨c, rfl⟩ := Nat.exists_eq_add_of_le' hcnt
    rw [pow_succ'] at hmem
    obtain ⟨u, hu, v, hv, rfl⟩ := Language.mem_mul.mp hmem
    exact Language.append_mem_mul hu ⟨c, Nat.zero_le _, nofun, hv⟩
  · intro hmem
    obtain ⟨u, hu, v, ⟨c, -, -, hv⟩, rfl⟩ := Language.mem_mul.mp hmem
    refine ⟨c + 1, Nat.le_add_left .., nofun, ?_⟩
    rw [pow_succ']
    exact Language.append_mem_mul hu hv

theorem copiesLang_opt (L : Language UInt8) : CapNode.copiesLang L 0 (some 1) = 1 + L := by
  ext w
  constructor
  · rintro ⟨cnt, -, htop, hmem⟩
    rcases Nat.le_one_iff_eq_zero_or_eq_one.mp (htop 1 rfl) with rfl | rfl
    · exact .inl (by rwa [pow_zero] at hmem)
    · exact .inr (by rwa [pow_one] at hmem)
  · rintro (hmem | hmem)
    · exact ⟨0, le_refl _, fun h _ => Nat.zero_le h, by rwa [pow_zero]⟩
    · refine ⟨1, Nat.zero_le _, ?_, by rwa [pow_one]⟩
      rintro _ ⟨⟩
      exact le_refl _

theorem Mirrors.lang (h : Mirrors icase n t) (hb : t.braceOk = true) : n.lang icase = t.lang := by
  induction h with
  | leaf _ _ hlang => exact hlang
  | null => rfl
  | group h ih => exact ih hb
  | concat h h' ih ih' =>
      obtain ⟨hb, hb'⟩ := Bool.and_eq_true_iff.mp hb
      rw [CapNode.lang, Re.lang, ih hb, ih' hb']
  | alt h h' ih ih' =>
      obtain ⟨hb, hb'⟩ := Bool.and_eq_true_iff.mp hb
      rw [CapNode.lang, Re.lang, ih hb, ih' hb']
  | star h ih =>
      rw [CapNode.lang, if_neg (by decide), ih hb, Re.lang, ← copiesLang_star]
      rfl
  | plus h ih =>
      rw [CapNode.lang, if_neg (by decide), ih hb, Re.lang, ← copiesLang_plus]
      rfl
  | opt h ih =>
      rw [CapNode.lang, if_neg (by decide), ih hb, Re.lang, ← copiesLang_opt]
      rfl
  | @rep a b lo hi h ih =>
      simp only [Re.braceOk, Bool.and_eq_true, decide_eq_true_eq] at hb
      obtain ⟨⟨hb, hle, hlt⟩, -⟩ := hb
      have hpow : CapNode.copiesLang b.lang lo (some hi) = Re.lang (.rep lo hi b) := by
        ext w
        constructor
        · rintro ⟨cnt, hlo, htop, hmem⟩
          exact ⟨cnt, hlo, htop hi rfl, hmem⟩
        · rintro ⟨cnt, hlo, htop, hmem⟩
          refine ⟨cnt, hlo, ?_, hmem⟩
          rintro _ ⟨⟩
          exact htop
      rw [CapNode.lang, ih hb, most_ofNat hlt, CapNode.least,
        Int32.toNatClampNeg_ofNat_of_lt (lt_of_le_of_lt hle hlt), hpow]
      split
      · -- `{0}`: no copies
        rename_i hhi
        obtain rfl := (ofNat_eq_zero_iff hlt).mp hhi
        obtain rfl := Nat.le_zero.mp hle
        exact (Re.powers_zero b.lang).symm
      · rfl

theorem Mirrors.room (h : Mirrors icase n t) (hb : t.braceOk = true) :
    n.roomy = true ∧ n.counted = true := by
  induction h with
  | leaf _ hroomy _ => exact hroomy
  | null => exact ⟨rfl, rfl⟩
  | group h ih => exact ih hb
  | concat h h' ih ih' =>
      obtain ⟨hb, hb'⟩ := Bool.and_eq_true_iff.mp hb
      rw [CapNode.roomy, CapNode.counted, (ih hb).1, (ih hb).2, (ih' hb').1, (ih' hb').2]
      exact ⟨rfl, rfl⟩
  | alt h h' ih ih' =>
      obtain ⟨hb, hb'⟩ := Bool.and_eq_true_iff.mp hb
      rw [CapNode.roomy, CapNode.counted, (ih hb).1, (ih hb).2, (ih' hb').1, (ih' hb').2]
      exact ⟨rfl, rfl⟩
  | star h ih =>
      rw [CapNode.roomy, CapNode.counted, (ih hb).1, (ih hb).2]
      exact ⟨rfl, rfl⟩
  | plus h ih =>
      rw [CapNode.roomy, CapNode.counted, (ih hb).1, (ih hb).2]
      exact ⟨rfl, rfl⟩
  | opt h ih =>
      rw [CapNode.roomy, CapNode.counted, (ih hb).1, (ih hb).2]
      exact ⟨rfl, rfl⟩
  | @rep a b lo hi h ih =>
      simp only [Re.braceOk, Bool.and_eq_true, decide_eq_true_eq] at hb
      obtain ⟨⟨hb, hle, hlt⟩, -⟩ := hb
      have hlo : 0 ≤ Int32.ofNat lo := by
        rw [Int32.le_iff_toInt_le, Int32.toInt_ofNat_of_lt (lt_of_le_of_lt hle hlt)]
        exact Int.natCast_nonneg lo
      rw [CapNode.roomy, CapNode.counted, (ih hb).1, (ih hb).2, most_ofNat hlt, decide_eq_true hlo]
      exact ⟨rfl, rfl⟩

theorem Mirrors.groups (h : Mirrors icase n t) :
    List.Forall₂ (fun p b => Mirrors icase p.2 b) n.groups t.groups := by
  induction h with
  | leaf hgroups _ _ =>
      rw [hgroups]
      exact .nil
  | null => exact .nil
  | group h ih => exact .cons h ih
  | concat h h' ih ih' => exact List.rel_append ih ih'
  | alt h h' ih ih' => exact List.rel_append ih ih'
  | star h ih => exact ih
  | plus h ih => exact ih
  | opt h ih => exact ih
  | rep h ih => exact ih

theorem braceOk_groups : ∀ {t b : Re}, t.braceOk = true → b ∈ t.groups → b.braceOk = true := by
  intro t
  induction t with
  | pos k S => exact fun _ hb => absurd hb List.not_mem_nil
  | folds ws => exact fun _ hb => absurd hb List.not_mem_nil
  | empty => exact fun _ hb => absurd hb List.not_mem_nil
  | group a ih =>
      intro b h hb
      rcases List.mem_cons.mp hb with rfl | hb
      · exact h
      · exact ih h hb
  | cat a b iha ihb =>
      intro c h hc
      obtain ⟨ha, hb⟩ := Bool.and_eq_true_iff.mp h
      exact (List.mem_append.mp hc).elim (iha ha) (ihb hb)
  | alt a b iha ihb =>
      intro c h hc
      obtain ⟨ha, hb⟩ := Bool.and_eq_true_iff.mp h
      exact (List.mem_append.mp hc).elim (iha ha) (ihb hb)
  | star a ih => exact fun h hb => ih h hb
  | plus a ih => exact fun h hb => ih h hb
  | opt a ih => exact fun h hb => ih h hb
  | rep lo hi a ih =>
      intro b h hb
      simp only [Re.braceOk, Bool.and_eq_true] at h
      exact ih h.1.1 hb
  | stacked a ih => exact fun h hb => ih h hb

end

/-! ## The second parser follows the first -/

/-- No byte of the pattern is one that a case fold looks further at. -/
def Foldless (icase : Bool) (p : List UInt8) : Prop := icase = true → ∀ c ∈ p, c < 0xc0

theorem Foldless.suffix {icase : Bool} {p q : List UInt8} (h : Foldless icase p) (hq : q <:+ p) :
    Foldless icase q := fun hic c hc => h hic c (hq.subset hc)

theorem Foldless.head {icase : Bool} {p : List UInt8} (h : Foldless icase p) (hic : icase = true) :
    p.headD 0 < 0xc0 := by
  cases p with
  | nil => decide
  | cons c p => exact h hic c List.mem_cons_self

theorem Foldless.foldClass {icase : Bool} {p : List UInt8} (h : Foldless icase p) : foldClass? icase p 0 = none := by
  rw [foldClass?, if_neg]
  intro hcond
  simp only [Bool.and_eq_true, decide_eq_true_eq] at hcond
  exact absurd hcond.1.2 (UInt8.not_le.mpr (h.head hcond.1.1))

theorem Foldless.literalSet {icase : Bool} {p : List UInt8} (h : Foldless icase p) (byte : UInt8) :
    literalSet icase p 0 byte = (gsetByte 0 (p.headD 0) icase, 0, byte) := by
  cases icase with
  | false => rfl
  | true =>
      rw [Montauk.literalSet, if_pos rfl, if_neg (Nat.lt_irrefl 0), if_neg (UInt8.not_le.mpr (h.head rfl))]

section
variable {icase : Bool}

theorem mirrors_char (k : Leaf) (c : UInt8) : Mirrors icase (.char c) (.pos k (gsetByte 0 c icase)) := by
  refine .leaf rfl ⟨rfl, rfl⟩ ?_
  ext w
  constructor
  · rintro ⟨d, hd, rfl⟩
    exact ⟨d, by rw [has_gsetByte_zero, decide_eq_true (beq_iff_eq.mp hd)], rfl⟩
  · rintro ⟨d, hd, rfl⟩
    rw [has_gsetByte_zero] at hd
    exact ⟨d, beq_iff_eq.mpr (of_decide_eq_true hd), rfl⟩

theorem mirrors_any (k : Leaf) : Mirrors icase .any (.pos k (BitVec.allOnes 256)) := by
  refine .leaf rfl ⟨rfl, rfl⟩ ?_
  ext w
  constructor
  · rintro ⟨d, -, rfl⟩
    refine ⟨d, ?_, rfl⟩
    have := d.toNat_lt
    simp only [ByteSet.has, BitVec.getLsbD_allOnes, decide_eq_true_eq]
    omega
  · rintro ⟨d, -, rfl⟩
    exact ⟨d, rfl, rfl⟩

theorem mirrors_cls (k : Leaf) (S : ByteSet) : Mirrors icase (.cls S) (.pos k S) := .leaf rfl ⟨rfl, rfl⟩ rfl

/-- From every position that `p` reads a tree at, `cap` reads one that mirrors
it, and stops at the same place. -/
def Shadows (icase : Bool) (cap : CapPos → Option (CapNode × CapPos)) (p : PPos → Option (Re × PPos)) : Prop :=
  ∀ (s : PPos) (t : Re) (s' : PPos) (ng : Nat), p s = some (t, s') → s.foldLeft = 0 → Foldless icase s.p →
    t.unstacked = true →
      ∃ n ng', cap ⟨s.p, ng⟩ = some (n, ⟨s'.p, ng'⟩) ∧ s'.foldLeft = 0 ∧ Mirrors icase n t

variable {cap : CapPos → Option (CapNode × CapPos)} {alt : PPos → Option (Re × PPos)}

theorem capAtom_shadows (h : Shadows icase cap alt) {s s' : PPos} {t : Re} (ng : Nat)
    (hgo : concatGoes s.cur = true) (hread : pAtom icase alt s = some (t, s')) (hleft : s.foldLeft = 0)
    (hfold : Foldless icase s.p) (ht : t.unstacked = true) :
    ∃ n ng', capAtom icase cap ⟨s.p, ng⟩ = some (n, ⟨s'.p, ng'⟩) ∧ s'.foldLeft = 0 ∧ Mirrors icase n t := by
  have hstop : ¬ (s.cur = 0 ∨ s.cur = Ch.bar ∨ s.cur = Ch.rparen) := by
    simp only [concatGoes, Bool.and_eq_true, bne_iff_ne] at hgo
    rintro (h0 | hbar | hparen)
    · exact hgo.1.1 h0
    · exact hgo.1.2 hbar
    · exact hgo.2 hparen
  have hlit : ∀ (k : UInt8 → Leaf) (s : PPos), s.foldLeft = 0 → Foldless icase s.p →
      pLiteral icase k s = (.pos (k s.cur) (gsetByte 0 s.cur icase), ⟨s.p.tail, 0, s.foldByte⟩) := by
    intro k s hleft hfold
    rw [pLiteral, hleft, hfold.literalSet]
    rfl
  have hcur : CapPos.cur ⟨s.p, ng⟩ = s.cur := rfl
  have hadv : (CapPos.adv ⟨s.p, ng⟩).cur = s.adv.cur := rfl
  rw [pAtom, hleft, hfold.foldClass] at hread
  rw [capAtom, hcur, hadv]
  split at hread
  · rename_i hparen
    rw [if_pos hparen]
    obtain ⟨⟨u, s₁⟩, hu, hread⟩ := Option.bind_eq_some_iff.mp hread
    dsimp only at hread
    split at hread
    · rename_i hclose
      obtain ⟨rfl, rfl⟩ := Prod.mk.inj (Option.some.inj hread)
      obtain ⟨n, ng', hcap, hleft', hmir⟩ := h s.adv u s₁ (ng + 1) hu hleft (hfold.suffix (List.tail_suffix _)) ht
      refine ⟨.group (ng + 1) n, ng', ?_, hleft', .group hmir⟩
      rw [show (⟨s.p.tail, ng + 1⟩ : CapPos) = ⟨s.adv.p, ng + 1⟩ from rfl, hcap, Option.bind_some]
      exact if_pos hclose
    · cases hread
  rename_i hparen
  rw [if_neg hparen]
  dsimp only at hread
  rw [pPosAtom] at hread
  split at hread
  · rename_i hdot
    obtain ⟨rfl, rfl⟩ := Prod.mk.inj (Option.some.inj hread)
    exact ⟨.any, ng, if_pos hdot, hleft, mirrors_any _⟩
  rename_i hdot
  rw [if_neg hdot]
  split at hread
  · rename_i hbrack
    obtain ⟨⟨S, r⟩, hspan, heq⟩ := Option.map_eq_some_iff.mp hread
    obtain ⟨rfl, rfl⟩ := Prod.mk.inj heq
    refine ⟨.cls S, ng, ?_, hleft, mirrors_cls _ S⟩
    rw [if_pos hbrack, hspan]
    rfl
  rename_i hbrack
  rw [if_neg hbrack]
  split at hread
  · rename_i hesc
    rw [if_pos hesc]
    cases hset : shorthandSet s.adv.cur with
    | some S =>
        simp only [hset] at hread ⊢
        obtain ⟨rfl, rfl⟩ := Prod.mk.inj (Option.some.inj hread)
        exact ⟨.cls S, ng, rfl, hleft, mirrors_cls _ S⟩
    | none =>
        simp only [hset] at hread ⊢
        rw [hlit .esc s.adv hleft (hfold.suffix (List.tail_suffix _))] at hread
        obtain ⟨rfl, rfl⟩ := Prod.mk.inj (Option.some.inj hread)
        exact ⟨.char s.adv.cur, ng, rfl, rfl, mirrors_char _ _⟩
  · rename_i hesc
    rw [if_neg hesc, if_neg hstop]
    rw [hlit .lit s hleft hfold] at hread
    obtain ⟨rfl, rfl⟩ := Prod.mk.inj (Option.some.inj hread)
    exact ⟨.char s.cur, ng, rfl, rfl, mirrors_char _ _⟩

/-! ### Repeats -/

theorem capQuant_brace {p : List UInt8} (hc : p.headD 0 = Ch.lbrace) :
    capQuant p =
      if !(readBounds p.tail).haslo || (readBounds p.tail).rest.headD 0 != Ch.rbrace then none
      else some (Int32.ofNat (readBounds p.tail).lo, (readBounds p.tail).hi.elim (-1) Int32.ofNat,
        (readBounds p.tail).rest.tail) := by
  have hstar : ¬ p.headD 0 = Ch.star := by rw [hc]; decide
  have hplus : ¬ p.headD 0 = Ch.plus := by rw [hc]; decide
  have hquest : ¬ p.headD 0 = Ch.quest := by rw [hc]; decide
  have hread : capQuant p = _ :=
    (if_neg hstar).trans ((if_neg hplus).trans ((if_neg hquest).trans (if_pos hc)))
  rw [hread, readBrace_eq]

theorem capQuant_isSome (p : List UInt8) : (capQuant p).isSome = quantAhead p := by
  by_cases hc : p.headD 0 = Ch.lbrace
  · rw [capQuant_brace hc, quantAhead, hc]
    generalize readBounds p.tail = b
    have hchars : (Ch.lbrace == Ch.star || Ch.lbrace == Ch.plus || Ch.lbrace == Ch.quest) = false := by decide
    rw [hchars, beq_self_eq_true, Bool.true_and, Bool.false_or]
    cases b.haslo with
    | false => rfl
    | true =>
        rw [bne]
        cases b.rest.headD 0 == Ch.rbrace <;> rfl
  · rw [capQuant, quantAhead, beq_false_of_ne hc]
    dsimp only
    rw [if_neg hc]
    split_ifs with h₁ h₂ h₃
    · rw [h₁]; rfl
    · rw [h₂]; rfl
    · rw [h₃]; rfl
    · rw [beq_false_of_ne h₁, beq_false_of_ne h₂, beq_false_of_ne h₃]; rfl

theorem capQuant_none {p : List UInt8} (h : quantAhead p = false) : capQuant p = none :=
  Option.isSome_eq_false_iff.mp ((capQuant_isSome p).trans h) |> Option.isNone_iff_eq_none.mp

/-- A repeat without another quantifier behind it. -/
theorem capRepeatLoop_once {a : CapNode} {ng : Nat} {lo hi : Int32} {p q : List UInt8}
    (hq : capQuant q = some (lo, hi, p)) (hp : quantAhead p = false) :
    capRepeatLoop (q.length + 1) a ⟨q, ng⟩ = (.rep a lo hi, ⟨p, ng⟩) := by
  have hne : q ≠ [] := by
    intro hnil
    rw [hnil] at hq
    exact absurd hq nofun
  obtain ⟨k, hk⟩ := Nat.exists_eq_succ_of_ne_zero (List.length_pos_iff.mpr hne).ne'
  rw [hk, capRepeatLoop, hq]
  dsimp only
  rw [capRepeatLoop, capQuant_none hp]

theorem unstacked_mark {a t : Re} {s s' : PPos} (h : some (markStacked a s) = some (t, s'))
    (ht : t.unstacked = true) : t = a ∧ s' = s ∧ quantAhead s.p = false := by
  obtain ⟨hta, rfl⟩ := Prod.mk.inj (Option.some.inj h)
  cases hq : quantAhead s.p with
  | false =>
      rw [hq] at hta
      exact ⟨hta.symm, rfl, rfl⟩
  | true =>
      rw [hq] at hta
      subst hta
      exact absurd ht nofun

theorem capRepeat_shadows (h : Shadows icase cap alt) {s s' : PPos} {t : Re} (ng : Nat)
    (hgo : concatGoes s.cur = true) (hread : pRepeat icase alt s = some (t, s')) (hleft : s.foldLeft = 0)
    (hfold : Foldless icase s.p) (ht : t.unstacked = true) :
    ∃ n ng', capRepeat icase cap ⟨s.p, ng⟩ = some (n, ⟨s'.p, ng'⟩) ∧ s'.foldLeft = 0 ∧ Mirrors icase n t := by
  rw [pRepeat] at hread
  obtain ⟨⟨a, s₁⟩, ha, hread⟩ := Option.bind_eq_some_iff.mp hread
  dsimp only at hread
  -- the atom, and what the loop makes of it
  have hfinish : ∀ {lo hi : Int32}, a.unstacked = true → capQuant s₁.p = some (lo, hi, s'.p) →
      quantAhead s'.p = false → (s₁.foldLeft = 0 → s'.foldLeft = 0) →
        (∀ n, Mirrors icase n a → Mirrors icase (.rep n lo hi) t) →
          ∃ n ng', capRepeat icase cap ⟨s.p, ng⟩ = some (n, ⟨s'.p, ng'⟩) ∧ s'.foldLeft = 0 ∧ Mirrors icase n t := by
    intro lo hi hu hq hp hl hmir
    obtain ⟨n, ng', hcap, hleft', hna⟩ := capAtom_shadows h ng hgo ha hleft hfold hu
    refine ⟨.rep n lo hi, ng', ?_, hl hleft', hmir n hna⟩
    rw [capRepeat, hcap, Option.map_some]
    dsimp only
    rw [capRepeatLoop_once hq hp]
  split at hread
  · rename_i hc
    obtain ⟨rfl, rfl, hp⟩ := unstacked_mark hread ht
    exact hfinish ht (if_pos hc) hp id fun n hn => .star hn
  rename_i hstar
  split at hread
  · rename_i hc
    obtain ⟨rfl, rfl, hp⟩ := unstacked_mark hread ht
    exact hfinish ht ((if_neg hstar).trans (if_pos hc)) hp id fun n hn => .plus hn
  rename_i hplus
  split at hread
  · rename_i hc
    obtain ⟨rfl, rfl, hp⟩ := unstacked_mark hread ht
    exact hfinish ht ((if_neg hstar).trans ((if_neg hplus).trans (if_pos hc))) hp id fun n hn => .opt hn
  rename_i hquest
  split at hread
  · rename_i hc
    rw [pBrace] at hread
    split at hread
    · cases hread
    dsimp only at hread
    split at hread
    · cases hread
    rename_i hi hhi
    split at hread
    · cases hread
    rename_i hbad
    simp only [Bool.or_eq_true, not_or, Bool.not_eq_true] at hbad
    obtain ⟨rfl, rfl, hp⟩ := unstacked_mark hread ht
    refine hfinish ht ?_ hp id fun n hn => .rep hn
    have hi : (readBounds s₁.p.tail).hi = _ := hhi
    rw [capQuant_brace hc, if_neg, hi]
    · rfl
    · rw [Bool.or_eq_true, not_or, Bool.not_eq_true, Bool.not_eq_true]
      exact hbad.1
  · rename_i hbrace
    obtain ⟨rfl, rfl⟩ := Prod.mk.inj (Option.some.inj hread)
    obtain ⟨n, ng', hcap, hleft', hna⟩ := capAtom_shadows h ng hgo ha hleft hfold ht
    refine ⟨n, ng', ?_, hleft', hna⟩
    have hquant : capQuant s₁.p = none :=
      (if_neg hstar).trans ((if_neg hplus).trans ((if_neg hquest).trans (if_neg hbrace)))
    rw [capRepeat, hcap, Option.map_some]
    dsimp only
    rw [capRepeatLoop, hquant]

/-! ### Juxtapositions and alternations -/

theorem pConcatLoop_unstacked : ∀ {fuel : Nat} {acc : Option Re} {s s' : PPos} {t : Re},
    pConcatLoop icase alt fuel acc s = some (t, s') → t.unstacked = true → (acc.getD .empty).unstacked = true
  | 0, acc, s, s', t, h, ht => by
      obtain ⟨rfl, -⟩ := Prod.mk.inj (Option.some.inj h)
      exact ht
  | fuel + 1, acc, s, s', t, h, ht => by
      rw [pConcatLoop] at h
      split at h
      · obtain ⟨⟨b, s₁⟩, -, h⟩ := Option.bind_eq_some_iff.mp h
        have hitem := pConcatLoop_unstacked h ht
        cases acc with
        | none => rfl
        | some a => exact (Bool.and_eq_true_iff.mp hitem).1
      · obtain ⟨rfl, -⟩ := Prod.mk.inj (Option.some.inj h)
        exact ht

theorem pAltLoop_unstacked : ∀ {fuel : Nat} {a : Re} {s s' : PPos} {t : Re},
    pAltLoop icase alt fuel a s = some (t, s') → t.unstacked = true → a.unstacked = true
  | 0, a, s, s', t, h, ht => by
      obtain ⟨rfl, -⟩ := Prod.mk.inj (Option.some.inj h)
      exact ht
  | fuel + 1, a, s, s', t, h, ht => by
      rw [pAltLoop] at h
      split at h
      · obtain ⟨⟨b, s₁⟩, -, h⟩ := Option.bind_eq_some_iff.mp h
        exact (Bool.and_eq_true_iff.mp (pAltLoop_unstacked h ht)).1
      · obtain ⟨rfl, -⟩ := Prod.mk.inj (Option.some.inj h)
        exact ht

theorem capConcatLoop_shadows (h : Shadows icase cap alt) (hsuf : LeavesSuffix alt) :
    ∀ (fuel : Nat) (head : Option CapNode) (acc : Option Re) (s : PPos) (t : Re) (s' : PPos) (ng : Nat),
      pConcatLoop icase alt fuel acc s = some (t, s') → s.foldLeft = 0 → Foldless icase s.p → t.unstacked = true →
        head.isSome = acc.isSome → Mirrors icase (head.getD .null) (acc.getD .empty) →
          ∃ n ng', capConcatLoop icase cap fuel head ⟨s.p, ng⟩ = some (n, ⟨s'.p, ng'⟩) ∧ s'.foldLeft = 0 ∧
            Mirrors icase n t
  | 0, head, acc, s, t, s', ng, hread, hleft, _, _, _, hmir => by
      obtain ⟨rfl, rfl⟩ := Prod.mk.inj (Option.some.inj hread)
      exact ⟨_, ng, rfl, hleft, hmir⟩
  | fuel + 1, head, acc, s, t, s', ng, hread, hleft, hfold, ht, hsome, hmir => by
      rw [pConcatLoop] at hread
      rw [capConcatLoop, show (CapPos.cur ⟨s.p, ng⟩) = s.cur from rfl]
      split at hread
      · rename_i hgo
        obtain ⟨⟨b, s₁⟩, hb, hread⟩ := Option.bind_eq_some_iff.mp hread
        dsimp only at hread
        have hitem := pConcatLoop_unstacked hread ht
        have hbu : b.unstacked = true := by
          cases acc with
          | none => exact hitem
          | some a => exact (Bool.and_eq_true_iff.mp hitem).2
        obtain ⟨n, ng', hcap, hleft', hnb⟩ := capRepeat_shadows h ng hgo hb hleft hfold hbu
        rw [if_pos hgo, hcap, Option.bind_some]
        have hfold' := hfold.suffix (pRepeat_shorter hsuf hb (concatGoes_ne hgo)).suffix
        refine capConcatLoop_shadows h hsuf fuel _ _ s₁ t s' ng' hread hleft' hfold' ht rfl ?_
        cases head with
        | none =>
            cases acc with
            | none => exact hnb
            | some a => cases hsome
        | some m =>
            cases acc with
            | none => cases hsome
            | some a => exact .concat hmir hnb
      · rename_i hgo
        obtain ⟨rfl, rfl⟩ := Prod.mk.inj (Option.some.inj hread)
        rw [if_neg hgo]
        exact ⟨_, ng, rfl, hleft, hmir⟩

theorem capConcat_shadows (h : Shadows icase cap alt) (hsuf : LeavesSuffix alt) :
    Shadows icase (capConcat icase cap) (pConcat icase alt) :=
  fun s t s' ng hread hleft hfold ht =>
    capConcatLoop_shadows h hsuf _ none none s t s' ng hread hleft hfold ht rfl .null

theorem capAltLoop_shadows (h : Shadows icase cap alt) (hsuf : LeavesSuffix alt) :
    ∀ (fuel : Nat) (l : CapNode) (a : Re) (s : PPos) (t : Re) (s' : PPos) (ng : Nat),
      pAltLoop icase alt fuel a s = some (t, s') → s.foldLeft = 0 → Foldless icase s.p → t.unstacked = true →
        Mirrors icase l a →
          ∃ n ng', capAltLoop icase cap fuel l ⟨s.p, ng⟩ = some (n, ⟨s'.p, ng'⟩) ∧ s'.foldLeft = 0 ∧
            Mirrors icase n t
  | 0, l, a, s, t, s', ng, hread, hleft, _, _, hmir => by
      obtain ⟨rfl, rfl⟩ := Prod.mk.inj (Option.some.inj hread)
      exact ⟨_, ng, rfl, hleft, hmir⟩
  | fuel + 1, l, a, s, t, s', ng, hread, hleft, hfold, ht, hmir => by
      rw [pAltLoop] at hread
      rw [capAltLoop, show (CapPos.cur ⟨s.p, ng⟩) = s.cur from rfl]
      split at hread
      · rename_i hbar
        obtain ⟨⟨b, s₁⟩, hb, hread⟩ := Option.bind_eq_some_iff.mp hread
        dsimp only at hread
        have hbu := (Bool.and_eq_true_iff.mp (pAltLoop_unstacked hread ht)).2
        have hfold' := hfold.suffix (List.tail_suffix s.p)
        obtain ⟨n, ng', hcap, hleft', hnb⟩ := capConcat_shadows h hsuf s.adv b s₁ ng hb hleft hfold' hbu
        rw [if_pos hbar, show (CapPos.adv ⟨s.p, ng⟩) = ⟨s.adv.p, ng⟩ from rfl, hcap, Option.bind_some]
        exact capAltLoop_shadows h hsuf fuel _ _ s₁ t s' ng' hread hleft'
          (hfold'.suffix (pConcat_suffix hsuf hb)) ht (.alt hmir hnb)
      · rename_i hbar
        obtain ⟨rfl, rfl⟩ := Prod.mk.inj (Option.some.inj hread)
        rw [if_neg hbar]
        exact ⟨_, ng, rfl, hleft, hmir⟩

/-- **The two readings**: what the grammar of the field reads, the parser of the
captures reads too. -/
theorem capAlt_shadows (d : Nat) : Shadows icase (capAlt icase d) (pAlt icase d) := by
  induction d with
  | zero => exact fun s t s' ng hread => absurd hread nofun
  | succ d ih =>
      intro s t s' ng hread hleft hfold ht
      obtain ⟨⟨a, s₁⟩, ha, hread⟩ := Option.bind_eq_some_iff.mp hread
      have hsuf := pAlt_suffix icase d
      obtain ⟨n, ng', hcap, hleft', hna⟩ :=
        capConcat_shadows ih hsuf s a s₁ ng ha hleft hfold (pAltLoop_unstacked hread ht)
      rw [capAlt, capAltWith, hcap, Option.bind_some]
      exact capAltLoop_shadows ih hsuf _ n a s₁ t s' ng' hread hleft' (hfold.suffix (pConcat_suffix hsuf ha)) ht hna

theorem capParse_of_parseRe {pat : List UInt8} {t : Re} (h : parseRe icase pat = some t) (hfold : Foldless icase pat)
    (ht : t.unstacked = true) (hgroups : t.groups ≠ []) :
    ∃ root, capParse icase pat = some (root, t.groups.length) ∧ Mirrors icase root t := by
  obtain ⟨⟨u, s⟩, hu, h⟩ := Option.bind_eq_some_iff.mp h
  have h : (if s.p = [] then some u else none) = some t := h
  split at h
  · rename_i hend
    obtain rfl := Option.some.inj h
    obtain ⟨n, ng, hcap, -, hmir⟩ := capAlt_shadows _ ⟨pat, 0, 0⟩ u s 0 hu rfl hfold ht
    have hlen := hmir.groups.length_eq
    obtain ⟨-, hnumbers⟩ := capAlt_numbers _ _ _ _ hcap
    have hng : ng = u.groups.length := by
      rw [← hlen, ← List.length_map (f := Prod.fst), hnumbers, List.length_range']
      rfl
    have hnull : n ≠ .null := by
      rintro rfl
      exact hgroups (List.eq_nil_of_length_eq_zero hlen.symm)
    have hpos := List.length_pos_iff.mpr hgroups
    refine ⟨n, ?_, hmir⟩
    rw [capParse, hcap, Option.bind_some]
    dsimp only
    rw [if_pos ⟨hend, hnull, hng ▸ hpos⟩, hng]
  · exact absurd h nofun

end

/-! ## The groups of a match -/

/-- A pattern that the two readings agree on. -/
structure Agreed (pattern : List UInt8) (icase : Bool) (t : Re) : Prop where
  noNul : (0 : UInt8) ∉ pattern
  start : pattern.head? ≠ some Ch.caret
  stop : pattern.getLast? ≠ some Ch.dollar
  foldless : Foldless icase pattern
  unstacked : t.unstacked = true
  clean : t.clean = true
  braceOk : t.braceOk = true
  groups : t.groups ≠ []

section
variable {pattern line : List UInt8} {icase : Bool} {s : Search} {t : Re} {off ms me : Nat}

/-- The spans of the groups in the match `line[ms..me)`: none, or a piece of the
match that the body of the group denotes. -/
def GroupSpans (t : Re) (line : List UInt8) (ms me : Nat) (groups : List MatchSpan) : Prop :=
  ∀ x sp, groups[x]? = some sp → sp = ⟨0, 0, -1⟩ ∨
    ∃ body, t.groups[x]? = some body ∧ sp.pat = ((x + 1 : Nat) : Int) ∧ sp.start ≤ sp.stop ∧ ms + sp.stop ≤ me ∧
      slice line (ms + sp.start) (ms + sp.stop) ∈ body.lang

theorem searchCaptures_of_match (hface : RegexFace pattern icase s t) (hagreed : Agreed pattern icase t)
    (hline : line.length + 1 < 2 ^ 31) (hfind : searchFindFrom s line off = some (ms, me)) :
    ∃ groups, searchCaptures pattern (slice line ms me) icase 9 = some groups ∧
      groups.length = min t.groups.length 9 ∧ GroupSpans t line ms me groups := by
  have hbuilt := hface.built
  rw [cString_of_notMem hagreed.noNul] at hbuilt
  have hparse := hbuilt.parse
  rw [peelAnchors_bare hagreed.start hagreed.stop] at hparse
  obtain ⟨root, hcap, hmir⟩ := capParse_of_parseRe hparse hagreed.foldless hagreed.unstacked hagreed.groups
  have hlang := hmir.lang hagreed.braceOk
  obtain ⟨hroomy, hcounted⟩ := hmir.room hagreed.braceOk
  -- the match is a word of the tree
  have hleft := searchFindFrom_leftmost hface.valid (fun hmode => absurd hface.mode hmode) line off
  rw [hfind] at hleft
  have hmatch : s.g.Match s.imap line ms me := by
    have hm := hleft.2.1
    rw [Search.Match, hface.mode] at hm
    exact hm
  have hmem : slice line ms me ∈ t.lang := by
    rw [← hbuilt.lang_eq hagreed.clean hagreed.braceOk, ← gnfaFull_iff, ← hface.imap]
    exact hmatch.full
  have hlen := length_slice (s := ms) hmatch.bound
  have hshort : (slice line ms me).length + 1 < 2 ^ 31 := by have := hmatch.bound; omega
  obtain ⟨groups, hret⟩ := searchCaptures_total hcap (Nat.succ_pos 8) hcounted hshort hroomy
    (hlang ▸ hmem)
  obtain ⟨-, hcount, hspan⟩ := searchCaptures_sound hcap (Nat.succ_pos 8) hcounted hshort hret
  refine ⟨groups, hret, hcount, fun x sp hsp => ?_⟩
  obtain ⟨body, hbody, hnone | ⟨hpat, hle, hstop, hin⟩⟩ := hspan x sp hsp
  · exact .inl hnone
  · right
    obtain ⟨b, hb, hmirb⟩ : ∃ b, t.groups[x]? = some b ∧ Mirrors icase body b := by
      have hx := (List.getElem?_eq_some_iff.mp hbody).1
      have hx' : x < t.groups.length := hmir.groups.length_eq ▸ hx
      refine ⟨t.groups[x], List.getElem?_eq_getElem hx', ?_⟩
      have hget := List.forall₂_iff_get.mp hmir.groups |>.2 x hx hx'
      rwa [List.get_eq_getElem, (List.getElem?_eq_some_iff.mp hbody).2] at hget
    have hbraces := braceOk_groups hagreed.braceOk (List.mem_of_getElem? hb)
    rw [hlen] at hstop
    refine ⟨b, hb, hpat, hle, by have := hmatch.le; omega, ?_⟩
    rw [← hmirb.lang hbraces, ← slice_slice hle (show ms + sp.stop ≤ me by have := hmatch.le; omega)]
    exact hin

end

/-- The pattern `(a+)(b)?`. -/
def patternGroups : List UInt8 := [0x28, 0x61, 0x2b, 0x29, 0x28, 0x62, 0x29, 0x3f]

theorem agreed_patternGroups : ∃ t, RegexFace patternGroups false (searchCompile patternGroups ⟨false, false⟩ 0) t ∧
    Agreed patternGroups false t := by
  obtain ⟨t, ht⟩ := @searchCompile_regex patternGroups false (by decide +kernel)
  have hparse := ht.built.parse
  have hread : parseRe false (peelAnchors (cString patternGroups)).2.2
      = some (.cat (.group (.plus (.pos (.lit 0x61) (gsetByte 0 0x61 false))))
          (.opt (.group (.pos (.lit 0x62) (gsetByte 0 0x62 false))))) := by decide +kernel
  obtain rfl := Option.some.inj (hread.symm.trans hparse)
  exact ⟨_, ht, by decide, by decide, by decide, nofun, rfl, rfl, rfl, by decide⟩

/-! ## The line -/

/-- The escape language of a replacement; `texts k` stands for `\k`. -/
inductive Escapes (texts : Nat → List UInt8) : List UInt8 → List UInt8 → Prop
  | nil : Escapes texts [] []
  | digit {d : UInt8} {rest out : List UInt8} (hd : 0x30 ≤ d ∧ d ≤ 0x39) (h : Escapes texts rest out) :
      Escapes texts (0x5c :: d :: rest) (texts (d.toNat - 0x30) ++ out)
  | backslash {rest out : List UInt8} (h : Escapes texts rest out) :
      Escapes texts (0x5c :: 0x5c :: rest) (0x5c :: out)
  | byte {c : UInt8} {rest out : List UInt8}
      (hc : ∀ d rest', c = 0x5c → rest = d :: rest' → ¬ (0x30 ≤ d ∧ d ≤ 0x39) ∧ d ≠ 0x5c)
      (h : Escapes texts rest out) : Escapes texts (c :: rest) (c :: out)

/-- The text of `\k` in the match `line[ms..me)`. -/
def refText (line : List UInt8) (ms me : Nat) (groups : Option (List MatchSpan)) (k : Nat) : List UInt8 :=
  if k = 0 then slice line ms me else groupText groups line ms (k - 1)

theorem expandRepl_escapes (groups : Option (List MatchSpan)) (line : List UInt8) (ms me : Nat) :
    ∀ repl, Escapes (refText line ms me groups) repl (expandRepl groups line ms me repl)
  | [] => .nil
  | [c] => .byte (fun d rest' _ h => absurd h nofun) .nil
  | c :: d :: rest => by
      rw [expandRepl]
      split
      · rename_i hc
        subst hc
        split
        · rename_i hd
          have hlow : 0x31 ≤ d.toNat := hd.1
          have htext : groupText groups line ms (d.toNat - 0x31) = refText line ms me groups (d.toNat - 0x30) := by
            rw [refText, if_neg (by omega)]
            congr 1
          rw [htext]
          refine .digit ⟨?_, hd.2⟩ (expandRepl_escapes groups line ms me rest)
          exact show 0x30 ≤ d.toNat by omega
        split
        · rename_i hd
          subst hd
          exact .digit (by decide) (expandRepl_escapes groups line ms me rest)
        split
        · rename_i hd
          subst hd
          exact .backslash (expandRepl_escapes groups line ms me rest)
        · rename_i h₁ h₀ h₂
          refine .byte ?_ (expandRepl_escapes groups line ms me (d :: rest))
          rintro _ _ - ⟨⟩
          refine ⟨fun hd => ?_, h₂⟩
          have hlow : 0x30 ≤ d.toNat := hd.1
          have hne : d.toNat ≠ 0x30 := fun heq => h₀ (UInt8.toNat.inj heq)
          exact h₁ ⟨show 0x31 ≤ d.toNat by omega, hd.2⟩
      · rename_i hc
        exact .byte (fun _ _ h _ => absurd h hc) (expandRepl_escapes groups line ms me (d :: rest))

theorem expandRepl_noBackref (groups : Option (List MatchSpan)) (line : List UInt8) (ms me : Nat) :
    ∀ {repl : List UInt8}, hasBackref repl = false →
      expandRepl groups line ms me repl = expandRepl none line ms me repl
  | [], _ => rfl
  | [_], _ => rfl
  | c :: d :: rest, h => by
      have hpair : (c == 0x5c && (decide (0x30 ≤ d) && decide (d ≤ 0x39))) = false ∧ hasBackref (d :: rest) = false := by
        have h' : (_ || _) = false := h
        exact Bool.or_eq_false_iff.mp h'
      have hrest : hasBackref rest = false := by
        cases rest with
        | nil => rfl
        | cons e rest =>
            have h' : (_ || _) = false := hpair.2
            exact (Bool.or_eq_false_iff.mp h').2
      rw [expandRepl, expandRepl, expandRepl_noBackref groups line ms me hpair.2,
        expandRepl_noBackref groups line ms me hrest]
      split
      · rename_i hc
        split
        · rename_i hd
          have hlow : 0x31 ≤ d.toNat := hd.1
          have h30 : 0x30 ≤ d := show 0x30 ≤ d.toNat by omega
          rw [hc, decide_eq_true h30, decide_eq_true hd.2] at hpair
          exact absurd hpair.1 nofun
        · rfl
      · rfl

theorem escapes_plain (texts : Nat → List UInt8) : ∀ {repl : List UInt8}, hasEscape repl = false →
    Escapes texts repl repl
  | [], _ => .nil
  | [c], _ => .byte (fun d rest' _ h => absurd h nofun) .nil
  | c :: d :: rest, h => by
      have h' : (c == 0x5c || hasEscape (d :: rest)) = false := h
      obtain ⟨hc, hrest⟩ := Bool.or_eq_false_iff.mp h'
      exact .byte (fun _ _ heq _ => absurd heq (beq_eq_false_iff_ne.mp hc)) (escapes_plain texts hrest)

/-- What is written for a match, with the groups that the captures found. -/
theorem matchOutput_escapes {captures : List UInt8 → Option (List MatchSpan)} {line repl : List UInt8} {ms me : Nat}
    {groups : Option (List MatchSpan)} (hne : ms < me → captures (slice line ms me) = groups)
    (heq : ¬ ms < me → groups = none) :
    Escapes (refText line ms me groups) repl (matchOutput captures repl line ms me) := by
  rw [matchOutput]
  split
  · have hboth : expandRepl (if (hasBackref repl && decide (ms < me)) = true then captures (slice line ms me) else none)
        line ms me repl = expandRepl groups line ms me repl := by
      by_cases hlt : ms < me
      · cases hback : hasBackref repl with
        | true => rw [if_pos (by rw [decide_eq_true hlt]; rfl), hne hlt]
        | false => rw [if_neg (by simp), expandRepl_noBackref groups line ms me hback]
      · rw [if_neg (by simp [hlt]), heq hlt]
    rw [hboth]
    exact expandRepl_escapes groups line ms me repl
  · rename_i hesc
    exact escapes_plain _ (Bool.eq_false_iff.mpr hesc)

/-- A line from `start` on with each match of `M` rewritten by `E`, from left to
right and the longest first. -/
inductive Rewrites (M : Nat → Nat → Prop) (E : Nat → Nat → List UInt8 → Prop) (line : List UInt8) :
    Nat → List UInt8 → Prop
  | done {start : Nat} (h : LeftmostLongest M start none) : Rewrites M E line start (line.drop start)
  | nonempty {start s e : Nat} {r out : List UInt8} (h : LeftmostLongest M start (some (s, e))) (hne : s < e)
      (hr : E s e r) (hrest : Rewrites M E line e out) : Rewrites M E line start (slice line start s ++ r ++ out)
  | empty {start s : Nat} {r out : List UInt8} (h : LeftmostLongest M start (some (s, s))) (hr : E s s r)
      (hrest : Rewrites M E line (s + 1) out) :
      Rewrites M E line start (slice line start s ++ r ++ (line.drop s).take 1 ++ out)

section
variable {pattern line : List UInt8} {icase : Bool} {s : Search} {t : Re}

theorem replaceLoop_rewrites (hs : s.Usable) {E : Nat → Nat → List UInt8 → Prop}
    {output : Nat → Nat → List UInt8}
    (hE : ∀ off ms me, searchFindFrom s line off = some (ms, me) → E ms me (output ms me)) :
    ∀ (fuel off : Nat), line.length + 2 ≤ off + fuel → off ≤ line.length + 1 →
      ∃ out, replaceLoop s line output fuel off = some out ∧ Rewrites (s.Match line) E line off out
  | 0, off, hf, ho => by omega
  | fuel + 1, off, hf, ho => by
      have hleft := searchFindFrom_leftmost hs.1 hs.2 line off
      rw [replaceLoop]
      by_cases hoff : off ≤ line.length
      · rw [if_pos hoff]
        cases hfind : searchFindFrom s line off with
        | none =>
            rw [hfind] at hleft
            exact ⟨_, rfl, .done hleft⟩
        | some r =>
            obtain ⟨ms, me⟩ := r
            rw [hfind] at hleft
            have hge : off ≤ ms := hleft.1
            have hb := match_bound hleft.2.1
            have hr := hE off ms me hfind
            dsimp only
            by_cases hne : ms < me
            · rw [if_pos hne]
              obtain ⟨out, hrun, hrest⟩ := replaceLoop_rewrites hs hE fuel me (by omega) (by omega)
              exact ⟨_, by rw [hrun, Option.map_some], .nonempty hleft hne hr hrest⟩
            · rw [if_neg hne]
              obtain rfl : ms = me := by omega
              obtain ⟨out, hrun, hrest⟩ := replaceLoop_rewrites hs hE fuel (ms + 1) (by omega) (by omega)
              exact ⟨_, by rw [hrun, Option.map_some], .empty hleft hr hrest⟩
      · rw [if_neg hoff]
        have hnone : LeftmostLongest (s.Match line) off none := by
          intro st e hst hm
          have := match_bound hm
          omega
        refine ⟨[], rfl, ?_⟩
        have hdone := @Rewrites.done _ E line off hnone
        rwa [List.drop_eq_nil_of_le (by omega)] at hdone

/-- The replacement of the match `line[ms..me)`: its escapes stand for the match,
and for the pieces of it that its groups matched. -/
def Expansion (pattern : List UInt8) (icase : Bool) (t : Re) (line repl : List UInt8) (ms me : Nat)
    (out : List UInt8) : Prop :=
  ∃ groups : List MatchSpan, (ms < me → searchCaptures pattern (slice line ms me) icase 9 = some groups) ∧
    (ms = me → groups = []) ∧ GroupSpans t line ms me groups ∧ Escapes (refText line ms me (some groups)) repl out

end

/-- Its output. -/
example : replaceLine (fun text => searchCaptures patternGroups text false 9)
    (searchCompile patternGroups ⟨false, false⟩ 0) [0x5c, 0x32, 0x5c, 0x31] [0x78, 0x61, 0x61, 0x62, 0x0a]
      = some [0x78, 0x62, 0x61, 0x61, 0x0a] := by decide +kernel

end Montauk
