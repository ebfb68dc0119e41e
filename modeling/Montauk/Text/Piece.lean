import Mathlib.Order.Interval.Set.Disjoint
import Montauk.Text.Engine
import Montauk.Text.Grammar

/-!
# Pieces of the field

What one parser call leaves behind, as a relation between the field
before it, the attributes it returns and the field after it. `Alloc` is
the bookkeeping, which always holds: consecutive positions with known
byte sets, entries and exits among them. `Sem` is the meaning, for a
field whose unallocated positions have no edges: the new positions form a
position automaton of the given language and nothing below them moved.

`Piece` bundles the two, the meaning under a condition on the syntax, and
has one law for each way the parser combines pieces.
-/

open scoped Computability

namespace Montauk

open PosAutomaton

variable {w : Nat}

/-- The positions from `g.npos` on, read as a position automaton with the
entries and exits of `a`. -/
def Gnfa.piece (g : Gnfa w) (a : GAttr w) : Frag UInt8 Nat where
  sym p := {c | (g.setb p).has c = true}
  fol p q := q ∈ bits (g.follow p)
  first := bits a.first
  last := bits a.last
  nul := a.nullable = true

/-- No position beyond the allocated ones has an edge. -/
def Gnfa.Clean (g : Gnfa w) : Prop := ∀ i, g.npos ≤ i → g.follow i = 0

/-- `GPar.link`, on the field. -/
def Gnfa.linked (g : Gnfa w) (src dst : BitVec w) : Gnfa w :=
  { g with follow := fun i => if src.getLsbD i then g.follow i ||| dst else g.follow i }

/-- `GPar.newPos`, on the field. -/
def Gnfa.pushed (g : Gnfa w) (S : ByteSet) : Gnfa w :=
  { g with npos := g.npos + 1, setb := fun i => if i = g.npos then S else g.setb i }

/-- The bookkeeping of a piece with byte sets `ss`. -/
structure Alloc (g : Gnfa w) (a : GAttr w) (g' : Gnfa w) (ss : List ByteSet) : Prop where
  npos : g'.npos = g.npos + ss.length
  kept : ∀ i < g.npos, g'.setb i = g.setb i
  sets : ∀ i S, ss[i]? = some S → g'.setb (g.npos + i) = S
  icase : g'.icase = g.icase
  anchoredStart : g'.anchoredStart = g.anchoredStart
  anchoredEnd : g'.anchoredEnd = g.anchoredEnd
  first : bits a.first ⊆ Set.Ico g.npos g'.npos
  last : bits a.last ⊆ Set.Ico g.npos g'.npos
  nullable : ss = [] → a.nullable = true

/-- The meaning of a piece: its language, and whether one of its
positions may follow itself. -/
structure Sem (g : Gnfa w) (a : GAttr w) (g' : Gnfa w) (L : Language UInt8) (loop : Bool) :
    Prop where
  clean : g'.Clean
  kept : ∀ i < g.npos, g'.follow i = g.follow i
  on : (g'.piece a).On (Set.Ico g.npos g'.npos)
  lang : (g'.piece a).lang = L
  noLoop : loop = false → ∀ p ∈ Set.Ico g.npos g'.npos, p ∉ bits (g'.follow p)

/-- What a parser call leaves behind: the bookkeeping, and the meaning
when `cl` holds and the parser met a clean field. -/
structure Piece (g : Gnfa w) (a : GAttr w) (g' : Gnfa w) (ss : List ByteSet) (cl : Bool)
    (L : Language UInt8) (loop : Bool) : Prop where
  alloc : Alloc g a g' ss
  sem : cl = true → g.Clean → Sem g a g' L loop

/-! ## Sets of positions -/

theorem mem_bits_or {D E : BitVec w} {p : Nat} :
    p ∈ bits (D ||| E) ↔ p ∈ bits D ∨ p ∈ bits E := by
  simp only [mem_bits, BitVec.getLsbD_or, Bool.or_eq_true]

theorem bits_none_subset (P : Set Nat) : bits (0 : BitVec w) ⊆ P :=
  bits_zero.subset.trans (Set.empty_subset P)

theorem bits_psSingle {p : Nat} (hp : p < w) : bits (psSingle w p) = {p} := by
  ext q
  rw [mem_bits, getLsbD_psSingle hp, decide_eq_true_eq, Set.mem_singleton_iff]

theorem mem_bits_ite_or {b : Bool} {D E : BitVec w} {p : Nat} :
    p ∈ bits (if b then D ||| E else D) ↔ p ∈ bits D ∨ (b = true ∧ p ∈ bits E) := by
  cases b <;> simp

theorem GAttr.mem_first_cat {a b : GAttr w} {p : Nat} :
    p ∈ bits (a.cat b).first ↔ p ∈ bits a.first ∨ (a.nullable = true ∧ p ∈ bits b.first) :=
  mem_bits_ite_or

theorem GAttr.mem_last_cat {a b : GAttr w} {p : Nat} :
    p ∈ bits (a.cat b).last ↔ p ∈ bits b.last ∨ (b.nullable = true ∧ p ∈ bits a.last) :=
  mem_bits_ite_or

theorem Gnfa.mem_follow_linked {g : Gnfa w} {src dst : BitVec w} {p q : Nat} :
    q ∈ bits ((g.linked src dst).follow p)
      ↔ q ∈ bits (g.follow p) ∨ (p ∈ bits src ∧ q ∈ bits dst) :=
  mem_bits_ite_or

theorem Gnfa.follow_linked_of_notMem {g : Gnfa w} {src dst : BitVec w} {p : Nat}
    (hp : p ∉ bits src) : (g.linked src dst).follow p = g.follow p :=
  if_neg hp

/-! ## Positions and the empty piece -/

theorem Piece.eps (g : Gnfa w) : Piece g (GAttr.eps w) g [] true 1 false where
  alloc :=
    { npos := rfl
      kept := fun _ _ => rfl
      sets := fun i S hS => absurd hS (by simp)
      icase := rfl
      anchoredStart := rfl
      anchoredEnd := rfl
      first := bits_none_subset _
      last := bits_none_subset _
      nullable := fun _ => rfl }
  sem _ hg :=
    { clean := hg
      kept := fun _ _ => rfl
      on :=
        { first := bits_none_subset _
          last := bits_none_subset _
          closed := fun p hp => absurd hp (by simp) }
      lang := Frag.lang_empty bits_zero rfl
      noLoop := fun _ p hp => absurd hp (by simp) }

theorem Piece.single {g : Gnfa w} (hw : g.npos < w) (S : ByteSet) (o : Bool) :
    Piece g { GAttr.pos w g.npos with nullable := o } (g.pushed S) [S] true
      (if o then 1 + Re.setLang S else Re.setLang S) false where
  alloc :=
    { npos := rfl
      kept := fun i hi => if_neg (Nat.ne_of_lt hi)
      sets := by
        intro i S' hS
        obtain ⟨hi, rfl⟩ := List.getElem?_eq_some_iff.mp hS
        obtain rfl : i = 0 := Nat.lt_one_iff.mp hi
        exact if_pos rfl
      icase := rfl
      anchoredStart := rfl
      anchoredEnd := rfl
      first := by
        rw [GAttr.pos, bits_psSingle hw, Set.singleton_subset_iff]
        exact ⟨le_rfl, Nat.lt_succ_self _⟩
      last := by
        rw [GAttr.pos, bits_psSingle hw, Set.singleton_subset_iff]
        exact ⟨le_rfl, Nat.lt_succ_self _⟩
      nullable := fun h => absurd h (List.cons_ne_nil S []) }
  sem _ hg := by
    have hfol : (g.pushed S).follow g.npos = 0 := hg _ le_rfl
    have hmem : ∀ p ∈ Set.Ico g.npos (g.pushed S).npos, p = g.npos := by
      rintro p ⟨h1, h2⟩
      have h2 : p < g.npos + 1 := h2
      omega
    have hno : ∀ p ∈ Set.Ico g.npos (g.pushed S).npos, ∀ q, q ∉ bits ((g.pushed S).follow p) := by
      intro p hp q
      rw [hmem p hp, hfol]
      exact fun hq => bits_none_subset ∅ hq
    have hbare : ((g.pushed S).piece (GAttr.pos w g.npos)).lang = Re.setLang S := by
      rw [Frag.lang_single (p := g.npos) (bits_psSingle hw) (bits_psSingle hw)
        (hno _ ⟨le_rfl, Nat.lt_succ_self _⟩) Bool.false_ne_true]
      have hset : (g.pushed S).setb g.npos = S := if_pos rfl
      simp only [Gnfa.piece, hset]
      rfl
    have hsub : bits (psSingle w g.npos) ⊆ Set.Ico g.npos (g.pushed S).npos := by
      rw [bits_psSingle hw, Set.singleton_subset_iff]
      exact ⟨le_rfl, Nat.lt_succ_self _⟩
    refine ⟨fun i hi => hg i (Nat.le_of_succ_le hi), fun _ _ => rfl,
      ⟨hsub, hsub, fun p hp q hpq => absurd hpq (hno p hp q)⟩, ?_, fun _ p hp => hno p hp p⟩
    cases o with
    | false => exact hbare
    | true =>
        rw [if_pos rfl, ← hbare]
        exact Frag.lang_opt rfl rfl rfl rfl rfl

/-! ## Combining pieces -/

section Combine

variable {g g₁ g₂ : Gnfa w} {a b : GAttr w} {s t : List ByteSet} {c d : Bool}
  {L M : Language UInt8} {l m : Bool}

theorem Alloc.le (h : Alloc g a g₁ s) : g.npos ≤ g₁.npos := by
  rw [h.npos]
  exact Nat.le_add_right _ _

/-- Two allocations in a row, whatever becomes of the attributes and the
edges. -/
theorem Alloc.trans (h : Alloc g a g₁ s) (h' : Alloc g₁ b g₂ t) {e : GAttr w} {src dst : BitVec w}
    (hf : bits e.first ⊆ bits a.first ∪ bits b.first)
    (hl : bits e.last ⊆ bits a.last ∪ bits b.last)
    (hn : a.nullable = true → b.nullable = true → e.nullable = true) :
    Alloc g e (g₂.linked src dst) (s ++ t) where
  npos := by
    show g₂.npos = _
    rw [h'.npos, h.npos, List.length_append, Nat.add_assoc]
  kept i hi := by
    show g₂.setb i = _
    rw [h'.kept i (Nat.lt_of_lt_of_le hi h.le), h.kept i hi]
  sets i S hS := by
    show g₂.setb (g.npos + i) = S
    by_cases his : i < s.length
    · rw [List.getElem?_append_left his] at hS
      rw [h'.kept _ (by rw [h.npos]; omega), h.sets i S hS]
    · rw [List.getElem?_append_right (by omega)] at hS
      have hsub : g.npos + i = g₁.npos + (i - s.length) := by rw [h.npos]; omega
      rw [hsub, h'.sets _ S hS]
  icase := h'.icase.trans h.icase
  anchoredStart := h'.anchoredStart.trans h.anchoredStart
  anchoredEnd := h'.anchoredEnd.trans h.anchoredEnd
  first := hf.trans (Set.union_subset
    (h.first.trans (Set.Ico_subset_Ico_right h'.le))
    (h'.first.trans (Set.Ico_subset_Ico_left h.le)))
  last := hl.trans (Set.union_subset
    (h.last.trans (Set.Ico_subset_Ico_right h'.le))
    (h'.last.trans (Set.Ico_subset_Ico_left h.le)))
  nullable hst := by
    obtain ⟨hs, ht⟩ := List.append_eq_nil_iff.mp hst
    exact hn (h.nullable hs) (h'.nullable ht)

theorem Alloc.cat (h : Alloc g a g₁ s) (h' : Alloc g₁ b g₂ t) :
    Alloc g (a.cat b) (g₂.linked a.last b.first) (s ++ t) :=
  h.trans h' (fun _ hp => (GAttr.mem_first_cat.mp hp).imp id And.right)
    (fun _ hp => (GAttr.mem_last_cat.mp hp).elim Or.inr (fun hp => Or.inl hp.2))
    (fun ha hb => by rw [GAttr.cat, ha, hb]; rfl)

theorem Gnfa.linked_zero (g : Gnfa w) : g.linked 0 0 = g := by
  have hf : (fun i => if (0 : BitVec w).getLsbD i then g.follow i ||| 0 else g.follow i)
      = g.follow := by
    funext i
    exact if_neg (by simp)
  rw [Gnfa.linked, hf]

theorem Alloc.alt (h : Alloc g a g₁ s) (h' : Alloc g₁ b g₂ t) :
    Alloc g (a.alt b) g₂ (s ++ t) := by
  have hseq : Alloc g (a.alt b) (g₂.linked 0 0) (s ++ t) :=
    h.trans h' (fun _ hp => mem_bits_or.mp hp) (fun _ hp => mem_bits_or.mp hp)
      fun ha _ => by rw [GAttr.alt, ha]; rfl
  rwa [Gnfa.linked_zero] at hseq

/-- The entries, exits and positions stay, with more edges and possibly
the empty word. -/
theorem Alloc.relink (h : Alloc g a g₁ s) {o : Bool} (ho : a.nullable = true → o = true)
    (src dst : BitVec w) : Alloc g { a with nullable := o } (g₁.linked src dst) s where
  npos := h.npos
  kept := h.kept
  sets := h.sets
  icase := h.icase
  anchoredStart := h.anchoredStart
  anchoredEnd := h.anchoredEnd
  first := h.first
  last := h.last
  nullable hs := ho (h.nullable hs)

theorem Sem.isCat (h' : Sem g₁ b g₂ M m) (ha : Alloc g a g₁ s) (hb : Alloc g₁ b g₂ t) :
    Frag.IsCat (g₁.piece a) (g₂.piece b) ((g₂.linked a.last b.first).piece (a.cat b))
      (Set.Ico g.npos g₁.npos) (Set.Ico g₁.npos g₂.npos) where
  symL p hp := by
    show {c | (g₂.setb p).has c = true} = {c | (g₁.setb p).has c = true}
    rw [hb.kept p hp.2]
  symR _ _ := rfl
  folL p hp q := by
    show q ∈ bits ((g₂.linked a.last b.first).follow p) ↔ _
    rw [Gnfa.mem_follow_linked, h'.kept p hp.2]
    rfl
  folR p hp q := by
    have hp' : p ∉ bits a.last := fun hl => absurd (ha.last hl).2 (Nat.not_lt.mpr hp.1)
    show q ∈ bits ((g₂.linked a.last b.first).follow p) ↔ _
    rw [Gnfa.follow_linked_of_notMem hp']
    rfl
  first p := GAttr.mem_first_cat
  last p := GAttr.mem_last_cat
  nul := Bool.and_eq_true_iff

theorem Sem.cat (ha : Alloc g a g₁ s) (h : Sem g a g₁ L l) (hb : Alloc g₁ b g₂ t)
    (h' : Sem g₁ b g₂ M m) :
    Sem g (a.cat b) (g₂.linked a.last b.first) (L * M) (l || m) := by
  have hcat := h'.isCat ha hb
  have hdis := @Set.Ico_disjoint_Ico_same _ _ g.npos g₁.npos g₂.npos
  have hun := Set.Ico_union_Ico_eq_Ico ha.le hb.le
  refine ⟨fun i hi => ?_, fun i hi => ?_, ?_, ?_, ?_⟩
  · have hi : g₂.npos ≤ i := hi
    rw [Gnfa.follow_linked_of_notMem, h'.clean i hi]
    exact fun hl => absurd (ha.last hl).2 (Nat.not_lt.mpr (hb.le.trans hi))
  · rw [Gnfa.follow_linked_of_notMem, h'.kept i (Nat.lt_of_lt_of_le hi ha.le), h.kept i hi]
    exact fun hl => absurd (ha.last hl).1 (Nat.not_le.mpr hi)
  · have := hcat.on h.on h'.on
    rwa [hun] at this
  · rw [hcat.lang_eq h.on h'.on hdis, h.lang, h'.lang]
  · intro hlm p hp hself
    obtain ⟨hl, hm⟩ := Bool.or_eq_false_iff.mp hlm
    rcases (hun.symm ▸ hp : p ∈ _ ∪ _) with hpL | hpR
    · rcases (hcat.folL p hpL p).mp hself with hself | ⟨-, hself⟩
      · exact h.noLoop hl p hpL hself
      · exact absurd (hb.first hself).1 (Nat.not_le.mpr hpL.2)
    · exact h'.noLoop hm p hpR ((hcat.folR p hpR p).mp hself)

theorem Sem.isAlt (h' : Sem g₁ b g₂ M m) (hb : Alloc g₁ b g₂ t) :
    Frag.IsAlt (g₁.piece a) (g₂.piece b) (g₂.piece (a.alt b))
      (Set.Ico g.npos g₁.npos) (Set.Ico g₁.npos g₂.npos) where
  symL p hp := by
    show {c | (g₂.setb p).has c = true} = {c | (g₁.setb p).has c = true}
    rw [hb.kept p hp.2]
  symR _ _ := rfl
  folL p hp q := by
    show q ∈ bits (g₂.follow p) ↔ q ∈ bits (g₁.follow p)
    rw [h'.kept p hp.2]
  folR _ _ _ := Iff.rfl
  first p := mem_bits_or
  last p := mem_bits_or
  nul := Bool.or_eq_true_iff

theorem Sem.alt (ha : Alloc g a g₁ s) (h : Sem g a g₁ L l) (hb : Alloc g₁ b g₂ t)
    (h' : Sem g₁ b g₂ M m) : Sem g (a.alt b) g₂ (L + M) (l || m) := by
  have halt := h'.isAlt (g := g) (a := a) hb
  have hdis := @Set.Ico_disjoint_Ico_same _ _ g.npos g₁.npos g₂.npos
  have hun := Set.Ico_union_Ico_eq_Ico ha.le hb.le
  refine ⟨h'.clean, fun i hi => ?_, ?_, ?_, ?_⟩
  · rw [h'.kept i (Nat.lt_of_lt_of_le hi ha.le), h.kept i hi]
  · have := halt.on h.on h'.on
    rwa [hun] at this
  · rw [halt.lang_eq h.on h'.on hdis, h.lang, h'.lang]
  · intro hlm p hp hself
    obtain ⟨hl, hm⟩ := Bool.or_eq_false_iff.mp hlm
    rcases (hun.symm ▸ hp : p ∈ _ ∪ _) with hpL | hpR
    · exact h.noLoop hl p hpL ((halt.folL p hpL p).mp hself)
    · exact h'.noLoop hm p hpR hself

theorem Sem.isLoop (o : Bool) :
    Frag.IsLoop (g₁.piece a) ((g₁.linked a.last a.first).piece { a with nullable := o })
      (Set.Ico g.npos g₁.npos) where
  sym _ _ := rfl
  fol _ _ _ := Gnfa.mem_follow_linked
  first := rfl
  last := rfl

/-- The loop edges of `*` and `+`, before the language is read off. -/
theorem Sem.loop (ha : Alloc g a g₁ s) (h : Sem g a g₁ L l) (o : Bool) {M : Language UInt8}
    (hM : ((g₁.linked a.last a.first).piece { a with nullable := o }).lang = M) :
    Sem g { a with nullable := o } (g₁.linked a.last a.first) M (!s.isEmpty || l) := by
  refine ⟨fun i hi => ?_, fun i hi => ?_, (Sem.isLoop o).on h.on, hM, ?_⟩
  · have hi : g₁.npos ≤ i := hi
    rw [Gnfa.follow_linked_of_notMem, h.clean i hi]
    exact fun hl => absurd (ha.last hl).2 (Nat.not_lt.mpr hi)
  · rw [Gnfa.follow_linked_of_notMem, h.kept i hi]
    exact fun hl => absurd (ha.last hl).1 (Nat.not_le.mpr hi)
  · intro hs p hp
    rw [Bool.or_eq_false_iff, Bool.not_eq_false', List.isEmpty_iff] at hs
    have hp2 : p < g₁.npos := hp.2
    rw [ha.npos, hs.1] at hp2
    exact absurd hp2 (Nat.not_lt.mpr hp.1)

theorem Piece.cat (h : Piece g a g₁ s c L l) (h' : Piece g₁ b g₂ t d M m) :
    Piece g (a.cat b) (g₂.linked a.last b.first) (s ++ t) (c && d) (L * M) (l || m) where
  alloc := h.alloc.cat h'.alloc
  sem hcd hg := by
    obtain ⟨hc, hd⟩ := Bool.and_eq_true_iff.mp hcd
    have h1 := h.sem hc hg
    exact h1.cat h.alloc h'.alloc (h'.sem hd h1.clean)

theorem Piece.alt (h : Piece g a g₁ s c L l) (h' : Piece g₁ b g₂ t d M m) :
    Piece g (a.alt b) g₂ (s ++ t) (c && d) (L + M) (l || m) where
  alloc := h.alloc.alt h'.alloc
  sem hcd hg := by
    obtain ⟨hc, hd⟩ := Bool.and_eq_true_iff.mp hcd
    have h1 := h.sem hc hg
    exact h1.alt h.alloc h'.alloc (h'.sem hd h1.clean)

theorem Piece.star (h : Piece g a g₁ s c L l) :
    Piece g { a with nullable := true } (g₁.linked a.last a.first) s c L∗
      (!s.isEmpty || l) where
  alloc := h.alloc.relink (fun _ => rfl) _ _
  sem hc hg := by
    have h1 := h.sem hc hg
    refine h1.loop h.alloc true ?_
    rw [← h1.lang]
    exact (Sem.isLoop true).lang_star h1.on rfl

theorem Piece.plus (h : Piece g a g₁ s c L l) :
    Piece g a (g₁.linked a.last a.first) s c (L * L∗) (!s.isEmpty || l) where
  alloc := h.alloc.relink (o := a.nullable) id _ _
  sem hc hg := by
    have h1 := h.sem hc hg
    refine h1.loop h.alloc a.nullable ?_
    rw [← h1.lang]
    exact (Sem.isLoop a.nullable).lang_plus h1.on Iff.rfl

theorem Piece.opt (h : Piece g a g₁ s c L l) :
    Piece g { a with nullable := true } g₁ s c (1 + L) l where
  alloc := by
    have := h.alloc.relink (o := true) (fun _ => rfl) 0 0
    rwa [Gnfa.linked_zero] at this
  sem hc hg := by
    have h1 := h.sem hc hg
    refine ⟨h1.clean, h1.kept, ⟨h1.on.first, h1.on.last, h1.on.closed⟩, ?_, h1.noLoop⟩
    rw [← h1.lang]
    exact Frag.lang_opt rfl rfl rfl rfl rfl

/-- `{0}`: a single position without a loop is handed back. -/
theorem Piece.drop (h : Piece g a g₁ s c L l) (hone : s.length = 1) :
    Piece g (GAttr.eps w) { g₁ with npos := g.npos } [] (c && !l) 1 false where
  alloc :=
    { npos := rfl
      kept := h.alloc.kept
      sets := fun i S hS => absurd hS (by simp)
      first := bits_none_subset _
      last := bits_none_subset _
      nullable := fun _ => rfl
      icase := h.alloc.icase
      anchoredStart := h.alloc.anchoredStart
      anchoredEnd := h.alloc.anchoredEnd }
  sem hcl hg := by
    obtain ⟨hc, hl⟩ := Bool.and_eq_true_iff.mp hcl
    rw [Bool.not_eq_true'] at hl
    have h1 := h.sem hc hg
    have hn : g₁.npos = g.npos + 1 := by rw [h.alloc.npos, hone]
    have hfol : g₁.follow g.npos = 0 := by
      have hmem : g.npos ∈ Set.Ico g.npos g₁.npos := ⟨le_rfl, by omega⟩
      rw [eq_zero_iff, Set.eq_empty_iff_forall_notMem]
      intro q hq
      have hq' := h1.on.closed _ hmem q hq
      obtain rfl : q = g.npos := by have := hq'.1; have := hq'.2; omega
      exact h1.noLoop hl _ hmem hq
    refine ⟨fun i hi => ?_, h1.kept, ?_, Frag.lang_empty bits_zero rfl,
      fun _ p hp => absurd hp (by simp)⟩
    · rcases Nat.eq_or_lt_of_le hi with rfl | hlt
      · exact hfol
      · exact h1.clean i (by have : g.npos < i := hlt; omega)
    · exact ⟨bits_none_subset _, bits_none_subset _, fun p hp => absurd hp (by simp)⟩

end Combine

end Montauk
