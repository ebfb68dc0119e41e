import Mathlib.Computability.Language
import Mathlib.Order.CompletePartialOrder

/-!
# Position automata

The language theory behind a Glushkov construction, independent of any
parser: a *fragment* is a position graph with a set of entry positions
(`first`), a set of accepting positions (`last`), a follow relation and
a symbol set per position. A word is read position by position (`Run`);
the empty word is a separate flag (`nul`).

Fragments are combined in place: concatenation, union and iteration add
follow edges and merge entry and accept sets without renaming positions,
so each law takes the carriers of its operands and asks that they be
closed (`On`) and, where two operands meet, disjoint. The laws are
`IsCat.lang_eq`, `IsAlt.lang_eq` and `IsLoop.core_eq`. The last section
is the set-at-a-time simulation: `ends w` is the set of positions a scan
holds after reading `w` from a fixed start, `sweep w` the set it holds
when it may start anywhere; `ends_snoc` and `sweep_snoc` are the step laws.
-/

open scoped Computability

namespace PosAutomaton

variable {α π : Type*}

/-- A position graph with entry and accept sets. -/
structure Frag (α π : Type*) where
  sym : π → Set α
  fol : π → π → Prop
  first : Set π
  last : Set π
  nul : Prop

namespace Frag

/-- Reading a non-empty word: `Run p w q` starts on `p`, ends on `q`,
and every position visited admits the symbol read there. -/
inductive Run (A : Frag α π) : π → List α → π → Prop
  | single {p c} (hc : c ∈ A.sym p) : Run A p [c] p
  | step {p q r c w} (hc : c ∈ A.sym p) (hpq : A.fol p q)
      (h : Run A q w r) : Run A p (c :: w) r

def core (A : Frag α π) : Language α :=
  {w | ∃ p ∈ A.first, ∃ q ∈ A.last, A.Run p w q}

def lang (A : Frag α π) : Language α :=
  {w | (w = [] ∧ A.nul) ∨ w ∈ A.core}

/-- The fragment lives on the carrier `P`: it starts and accepts there,
and no edge leaves it. -/
structure On (A : Frag α π) (P : Set π) : Prop where
  first : A.first ⊆ P
  last : A.last ⊆ P
  closed : ∀ p ∈ P, ∀ q, A.fol p q → q ∈ P

variable {A B C : Frag α π} {P Q : Set π}

theorem mem_core {w : List α} :
    w ∈ A.core ↔ ∃ p ∈ A.first, ∃ q ∈ A.last, A.Run p w q := Iff.rfl

theorem mem_lang {w : List α} :
    w ∈ A.lang ↔ (w = [] ∧ A.nul) ∨ w ∈ A.core := Iff.rfl

theorem Run.ne_nil {p q : π} {w : List α} (h : A.Run p w q) : w ≠ [] := by
  cases h <;> simp

theorem nil_notMem_core : [] ∉ A.core := by
  rintro ⟨p, -, q, -, h⟩
  exact h.ne_nil rfl

theorem nil_mem_lang : [] ∈ A.lang ↔ A.nul := by
  simp [mem_lang, nil_notMem_core]

theorem mem_lang_of_ne_nil {w : List α} (hw : w ≠ []) :
    w ∈ A.lang ↔ w ∈ A.core := by
  simp [mem_lang, hw]

theorem lang_of_nul (hn : A.nul) : A.lang = 1 + A.core := by
  ext w
  rw [mem_lang, Language.mem_add, Language.mem_one, and_iff_left hn]

theorem lang_of_not_nul (hn : ¬ A.nul) : A.lang = A.core := by
  ext w
  simp [mem_lang, hn]

/-- A run inside a set closed under the follow relation is a run of any
fragment that agrees there. -/
theorem Run.congr {p q : π} {w : List α} (h : A.Run p w q) (hp : p ∈ P)
    (hs : ∀ p ∈ P, C.sym p = A.sym p)
    (hf : ∀ p ∈ P, ∀ q, A.fol p q → C.fol p q ∧ q ∈ P) : C.Run p w q := by
  induction h with
  | single hc => exact .single ((hs _ hp).symm ▸ hc)
  | step hc hpq h ih =>
      obtain ⟨hpq', hq⟩ := hf _ hp _ hpq
      exact .step ((hs _ hp).symm ▸ hc) hpq' (ih hq)

theorem Run.append {p q s r : π} {u v : List α} (h : A.Run p u q)
    (hqs : A.fol q s) (h' : A.Run s v r) : A.Run p (u ++ v) r := by
  induction h with
  | single hc => exact .step hc hqs h'
  | step hc hpq h ih => exact .step hc hpq (ih hqs)

/-- Two fragments that agree on a carrier both live on have one language. -/
theorem lang_congr (hA : A.On P) (hs : ∀ p ∈ P, C.sym p = A.sym p)
    (hf : ∀ p ∈ P, ∀ q, C.fol p q ↔ A.fol p q) (h1 : C.first = A.first)
    (h2 : C.last = A.last) (hn : C.nul ↔ A.nul) : C.lang = A.lang := by
  ext w
  simp only [mem_lang, mem_core, h1, h2, hn]
  refine or_congr Iff.rfl (exists_congr fun p => and_congr_right fun hp =>
    exists_congr fun q => and_congr_right fun _ => ⟨fun h => ?_, fun h => ?_⟩)
  · refine h.congr (hA.first hp) (fun p hp => (hs p hp).symm) fun p hp q hpq => ?_
    have hpq' := (hf p hp q).mp hpq
    exact ⟨hpq', hA.closed p hp q hpq'⟩
  · exact h.congr (hA.first hp) hs fun p hp q hpq =>
      ⟨(hf p hp q).mpr hpq, hA.closed p hp q hpq⟩

/-! ## Concatenation -/

/-- `C` is `A` followed by `B`: every accepting position of `A` gets an
edge to every entry of `B`. -/
structure IsCat (A B C : Frag α π) (P Q : Set π) : Prop where
  symL : ∀ p ∈ P, C.sym p = A.sym p
  symR : ∀ p ∈ Q, C.sym p = B.sym p
  folL : ∀ p ∈ P, ∀ q, C.fol p q ↔ A.fol p q ∨ (p ∈ A.last ∧ q ∈ B.first)
  folR : ∀ p ∈ Q, ∀ q, C.fol p q ↔ B.fol p q
  first : ∀ p, p ∈ C.first ↔ p ∈ A.first ∨ (A.nul ∧ p ∈ B.first)
  last : ∀ p, p ∈ C.last ↔ p ∈ B.last ∨ (B.nul ∧ p ∈ A.last)
  nul : C.nul ↔ A.nul ∧ B.nul

namespace IsCat

theorem on (h : IsCat A B C P Q) (hA : A.On P) (hB : B.On Q) :
    C.On (P ∪ Q) where
  first p hp := ((h.first p).mp hp).imp (fun h => hA.first h) (fun h => hB.first h.2)
  last p hp := ((h.last p).mp hp).elim (fun h => Or.inr (hB.last h))
    (fun h => Or.inl (hA.last h.2))
  closed p hp q hpq := by
    rcases hp with hp | hp
    · rcases (h.folL p hp q).mp hpq with hf | hf
      · exact Or.inl (hA.closed p hp q hf)
      · exact Or.inr (hB.first hf.2)
    · exact Or.inr (hB.closed p hp q ((h.folR p hp q).mp hpq))

theorem run_right (h : IsCat A B C P Q) (hB : B.On Q) {p r : π} {w : List α}
    (hp : p ∈ Q) : C.Run p w r ↔ B.Run p w r := by
  constructor <;> intro hw
  · refine hw.congr hp (fun p hp => (h.symR p hp).symm) fun p hp q hpq => ?_
    have hpq' := (h.folR p hp q).mp hpq
    exact ⟨hpq', hB.closed p hp q hpq'⟩
  · exact hw.congr hp h.symR fun p hp q hpq =>
      ⟨(h.folR p hp q).mpr hpq, hB.closed p hp q hpq⟩

theorem run_left_mpr (h : IsCat A B C P Q) (hA : A.On P) {p r : π}
    {w : List α} (hp : p ∈ P) (hw : A.Run p w r) : C.Run p w r :=
  hw.congr hp h.symL fun p hp q hpq =>
    ⟨(h.folL p hp q).mpr (Or.inl hpq), hA.closed p hp q hpq⟩

/-- A run of the concatenation from the left carrier either is a run of
`A` or crosses exactly one accept-to-entry edge. -/
theorem run_left (h : IsCat A B C P Q) (hA : A.On P) (hB : B.On Q)
    {p r : π} {w : List α} (hw : C.Run p w r) (hp : p ∈ P) :
    A.Run p w r ∨ ∃ u v q s, u ++ v = w ∧ A.Run p u q ∧ q ∈ A.last
      ∧ s ∈ B.first ∧ B.Run s v r := by
  induction hw with
  | single hc => exact Or.inl (.single (h.symL _ hp ▸ hc))
  | @step p q r c w hc hpq hw ih =>
      have hc' : c ∈ A.sym p := h.symL _ hp ▸ hc
      rcases (h.folL _ hp _).mp hpq with hf | ⟨hl, hs⟩
      · rcases ih (hA.closed _ hp _ hf) with hr | ⟨u, v, q', s, rfl, hu, hq', hs, hv⟩
        · exact Or.inl (.step hc' hf hr)
        · exact Or.inr ⟨c :: u, v, q', s, rfl, .step hc' hf hu, hq', hs, hv⟩
      · exact Or.inr ⟨[c], w, p, q, rfl, .single hc', hl, hs,
          (h.run_right hB (hB.first hs)).mp hw⟩

theorem run_mem {p q : π} {w : List α} (h : A.Run p w q) (hA : A.On P)
    (hp : p ∈ P) : q ∈ P := by
  induction h with
  | single hc => exact hp
  | step hc hpq h ih => exact ih (hA.closed _ hp _ hpq)

/-- **Concatenation**: the language is the product. -/
theorem lang_eq (h : IsCat A B C P Q) (hA : A.On P) (hB : B.On Q)
    (hd : Disjoint P Q) : C.lang = A.lang * B.lang := by
  have hne : ∀ {p}, p ∈ P → p ∉ Q := fun hp hq => Set.disjoint_left.mp hd hp hq
  ext w
  rw [Language.mem_mul]
  constructor
  · rintro (⟨rfl, hn⟩ | ⟨p, hp, r, hr, hw⟩)
    · obtain ⟨hnA, hnB⟩ := h.nul.mp hn
      exact ⟨[], nil_mem_lang.mpr hnA, [], nil_mem_lang.mpr hnB, rfl⟩
    · rcases (h.first p).mp hp with hpA | ⟨hnA, hpB⟩
      · rcases h.run_left hA hB hw (hA.first hpA) with hrun |
          ⟨u, v, q, s, rfl, hu, hq, hs, hv⟩
        · have hrP := run_mem hrun hA (hA.first hpA)
          rcases (h.last r).mp hr with hrB | ⟨hnB, hrA⟩
          · exact absurd (hB.last hrB) (hne hrP)
          · exact ⟨w, Or.inr ⟨p, hpA, r, hrA, hrun⟩, [], nil_mem_lang.mpr hnB,
              List.append_nil w⟩
        · have hrQ := run_mem hv hB (hB.first hs)
          rcases (h.last r).mp hr with hrB | ⟨-, hrA⟩
          · exact ⟨u, Or.inr ⟨p, hpA, q, hq, hu⟩, v, Or.inr ⟨s, hs, r, hrB, hv⟩, rfl⟩
          · exact absurd hrQ (hne (hA.last hrA))
      · have hv := (h.run_right hB (hB.first hpB)).mp hw
        have hrQ := run_mem hv hB (hB.first hpB)
        rcases (h.last r).mp hr with hrB | ⟨-, hrA⟩
        · exact ⟨[], nil_mem_lang.mpr hnA, w, Or.inr ⟨p, hpB, r, hrB, hv⟩, rfl⟩
        · exact absurd hrQ (hne (hA.last hrA))
  · rintro ⟨u, hu, v, hv, rfl⟩
    rcases hu with ⟨rfl, hnA⟩ | ⟨p, hp, q, hq, hu⟩ <;>
      rcases hv with ⟨rfl, hnB⟩ | ⟨s, hs, r, hr, hv⟩
    · exact Or.inl ⟨rfl, h.nul.mpr ⟨hnA, hnB⟩⟩
    · exact Or.inr ⟨s, (h.first s).mpr (Or.inr ⟨hnA, hs⟩), r,
        (h.last r).mpr (Or.inl hr), (h.run_right hB (hB.first hs)).mpr hv⟩
    · refine Or.inr ⟨p, (h.first p).mpr (Or.inl hp), q,
        (h.last q).mpr (Or.inr ⟨hnB, hq⟩), ?_⟩
      rw [List.append_nil]
      exact h.run_left_mpr hA (hA.first hp) hu
    · refine Or.inr ⟨p, (h.first p).mpr (Or.inl hp), r, (h.last r).mpr (Or.inl hr), ?_⟩
      exact (h.run_left_mpr hA (hA.first hp) hu).append
        ((h.folL q (hA.last hq) s).mpr (Or.inr ⟨hq, hs⟩))
        ((h.run_right hB (hB.first hs)).mpr hv)

end IsCat

/-! ## Union -/

/-- `C` is `A` or `B`: no edge is added. -/
structure IsAlt (A B C : Frag α π) (P Q : Set π) : Prop where
  symL : ∀ p ∈ P, C.sym p = A.sym p
  symR : ∀ p ∈ Q, C.sym p = B.sym p
  folL : ∀ p ∈ P, ∀ q, C.fol p q ↔ A.fol p q
  folR : ∀ p ∈ Q, ∀ q, C.fol p q ↔ B.fol p q
  first : ∀ p, p ∈ C.first ↔ p ∈ A.first ∨ p ∈ B.first
  last : ∀ p, p ∈ C.last ↔ p ∈ A.last ∨ p ∈ B.last
  nul : C.nul ↔ A.nul ∨ B.nul

namespace IsAlt

theorem symm (h : IsAlt A B C P Q) : IsAlt B A C Q P where
  symL := h.symR
  symR := h.symL
  folL := h.folR
  folR := h.folL
  first p := (h.first p).trans or_comm
  last p := (h.last p).trans or_comm
  nul := h.nul.trans or_comm

theorem on (h : IsAlt A B C P Q) (hA : A.On P) (hB : B.On Q) :
    C.On (P ∪ Q) where
  first p hp := ((h.first p).mp hp).imp (fun h => hA.first h) (fun h => hB.first h)
  last p hp := ((h.last p).mp hp).imp (fun h => hA.last h) (fun h => hB.last h)
  closed p hp q hpq := hp.imp
    (fun hp => hA.closed p hp q ((h.folL p hp q).mp hpq))
    (fun hp => hB.closed p hp q ((h.folR p hp q).mp hpq))

theorem run_left (h : IsAlt A B C P Q) (hA : A.On P) {p r : π} {w : List α}
    (hp : p ∈ P) : C.Run p w r ↔ A.Run p w r := by
  constructor <;> intro hw
  · refine hw.congr hp (fun p hp => (h.symL p hp).symm) fun p hp q hpq => ?_
    have hpq' := (h.folL p hp q).mp hpq
    exact ⟨hpq', hA.closed p hp q hpq'⟩
  · exact hw.congr hp h.symL fun p hp q hpq =>
      ⟨(h.folL p hp q).mpr hpq, hA.closed p hp q hpq⟩

theorem core_left (h : IsAlt A B C P Q) (hA : A.On P) (hB : B.On Q)
    (hd : Disjoint P Q) {w : List α} :
    (∃ p ∈ A.first, ∃ q ∈ C.last, C.Run p w q) ↔ w ∈ A.core := by
  refine exists_congr fun p => and_congr_right fun hp => exists_congr fun q => ?_
  rw [h.run_left hA (hA.first hp), h.last q]
  refine ⟨?_, fun ⟨hq, hw⟩ => ⟨Or.inl hq, hw⟩⟩
  rintro ⟨hq | hq, hw⟩
  · exact ⟨hq, hw⟩
  · exact absurd (hB.last hq)
      (Set.disjoint_left.mp hd (IsCat.run_mem hw hA (hA.first hp)))

/-- **Union**: the language is the sum. -/
theorem lang_eq (h : IsAlt A B C P Q) (hA : A.On P) (hB : B.On Q)
    (hd : Disjoint P Q) : C.lang = A.lang + B.lang := by
  have hcore : ∀ w, w ∈ C.core ↔ w ∈ A.core ∨ w ∈ B.core := by
    intro w
    rw [← h.core_left hA hB hd, ← h.symm.core_left hB hA hd.symm]
    constructor
    · rintro ⟨p, hp, hrest⟩
      exact ((h.first p).mp hp).imp (fun hp => ⟨p, hp, hrest⟩) (fun hp => ⟨p, hp, hrest⟩)
    · rintro (⟨p, hp, hrest⟩ | ⟨p, hp, hrest⟩)
      · exact ⟨p, (h.first p).mpr (Or.inl hp), hrest⟩
      · exact ⟨p, (h.first p).mpr (Or.inr hp), hrest⟩
  ext w
  rw [Language.mem_add, mem_lang, mem_lang, mem_lang, hcore, h.nul]
  tauto

end IsAlt

/-! ## Iteration -/

/-- `C` is `A` with an edge from every accepting position back to every
entry. The empty word is left to the caller. -/
structure IsLoop (A C : Frag α π) (P : Set π) : Prop where
  sym : ∀ p ∈ P, C.sym p = A.sym p
  fol : ∀ p ∈ P, ∀ q, C.fol p q ↔ A.fol p q ∨ (p ∈ A.last ∧ q ∈ A.first)
  first : C.first = A.first
  last : C.last = A.last

namespace IsLoop

theorem on (h : IsLoop A C P) (hA : A.On P) : C.On P where
  first := h.first ▸ hA.first
  last := h.last ▸ hA.last
  closed p hp q hpq := ((h.fol p hp q).mp hpq).elim (hA.closed p hp q)
    (fun hq => hA.first hq.2)

theorem run_mpr (h : IsLoop A C P) (hA : A.On P) {p r : π} {w : List α}
    (hp : p ∈ P) (hw : A.Run p w r) : C.Run p w r :=
  hw.congr hp h.sym fun p hp q hpq =>
    ⟨(h.fol p hp q).mpr (Or.inl hpq), hA.closed p hp q hpq⟩

/-- A run of the loop is one run of `A`, or one run of `A` up to an
accepting position followed by a run of the loop from an entry. -/
theorem run_split (h : IsLoop A C P) (hA : A.On P) {p r : π} {w : List α}
    (hw : C.Run p w r) (hp : p ∈ P) :
    A.Run p w r ∨ ∃ u v q s, u ++ v = w ∧ A.Run p u q ∧ q ∈ A.last
      ∧ s ∈ A.first ∧ C.Run s v r := by
  induction hw with
  | single hc => exact Or.inl (.single (h.sym _ hp ▸ hc))
  | @step p q r c w hc hpq hw ih =>
      have hc' : c ∈ A.sym p := h.sym _ hp ▸ hc
      rcases (h.fol _ hp _).mp hpq with hf | ⟨hl, hs⟩
      · rcases ih (hA.closed _ hp _ hf) with hr | ⟨u, v, q', s, rfl, hu, hq', hs, hv⟩
        · exact Or.inl (.step hc' hf hr)
        · exact Or.inr ⟨c :: u, v, q', s, rfl, .step hc' hf hu, hq', hs, hv⟩
      · exact Or.inr ⟨[c], w, p, q, rfl, .single hc', hl, hs, hw⟩

theorem core_unfold (h : IsLoop A C P) (hA : A.On P) {w : List α} :
    w ∈ C.core ↔ w ∈ A.core ∨ w ∈ A.core * C.core := by
  rw [Language.mem_mul]
  constructor
  · rintro ⟨p, hp, r, hr, hw⟩
    rw [h.first] at hp
    rw [h.last] at hr
    rcases h.run_split hA hw (hA.first hp) with hw | ⟨u, v, q, s, rfl, hu, hq, hs, hv⟩
    · exact Or.inl ⟨p, hp, r, hr, hw⟩
    · exact Or.inr ⟨u, ⟨p, hp, q, hq, hu⟩, v,
        ⟨s, h.first ▸ hs, r, h.last ▸ hr, hv⟩, rfl⟩
  · rintro (⟨p, hp, r, hr, hw⟩ | ⟨u, ⟨p, hp, q, hq, hu⟩, v, ⟨s, hs, r, hr, hv⟩, rfl⟩)
    · exact ⟨p, h.first ▸ hp, r, h.last ▸ hr, h.run_mpr hA (hA.first hp) hw⟩
    · refine ⟨p, h.first ▸ hp, r, hr, (h.run_mpr hA (hA.first hp) hu).append ?_ hv⟩
      exact (h.fol q (hA.last hq) s).mpr (Or.inr ⟨hq, h.first ▸ hs⟩)

/-- **Iteration**: the non-empty words are one or more words of `A`. -/
theorem core_eq (h : IsLoop A C P) (hA : A.On P) :
    C.core = A.core * A.core∗ := by
  have hC : C.core = A.core * C.core + A.core := by
    ext w
    rw [Language.mem_add, h.core_unfold hA, or_comm]
  have := (Language.self_eq_mul_add_iff nil_notMem_core).mp hC
  rw [this, Language.mul_self_kstar_comm]

/-- The starred loop: with the empty word admitted, the language is the
Kleene star of the operand's. -/
theorem lang_star (h : IsLoop A C P) (hA : A.On P) (hn : C.nul) :
    C.lang = A.lang∗ := by
  rw [lang_of_nul hn, h.core_eq hA, Language.one_add_self_mul_kstar_eq_kstar]
  by_cases hA' : A.nul
  · rw [lang_of_nul hA']
    refine le_antisymm (kstar_mono le_add_self) ?_
    refine kstar_le_of_mul_le_left one_le_kstar ?_
    rw [mul_add, mul_one]
    exact add_le le_rfl (by
      rw [Language.mul_self_kstar_comm]; exact mul_kstar_le_kstar)
  · rw [lang_of_not_nul hA']

theorem lang_plus (h : IsLoop A C P) (hA : A.On P) (hn : C.nul ↔ A.nul) :
    C.lang = A.lang * A.lang∗ := by
  by_cases hA' : A.nul
  · rw [h.lang_star hA (hn.mpr hA')]
    refine le_antisymm ?_ mul_kstar_le_kstar
    calc A.lang∗ = 1 * A.lang∗ := (one_mul _).symm
      _ ≤ A.lang * A.lang∗ := by
        refine mul_le_mul_left ?_ _
        rw [lang_of_nul hA']
        exact le_self_add
  · rw [lang_of_not_nul hA', lang_of_not_nul (mt hn.mp hA'), h.core_eq hA]

end IsLoop

theorem lang_opt (hs : C.sym = A.sym) (hf : C.fol = A.fol) (h1 : C.first = A.first)
    (h2 : C.last = A.last) (hn : C.nul) : C.lang = 1 + A.lang := by
  have hcore : C.core = A.core := by
    obtain ⟨s, f, i, l, n⟩ := C
    obtain ⟨s', f', i', l', n'⟩ := A
    simp only at hs hf h1 h2
    subst hs hf h1 h2
    ext w
    simp only [mem_core]
    refine exists_congr fun p => and_congr_right fun _ => exists_congr fun q =>
      and_congr_right fun _ => ?_
    constructor <;> intro h <;>
      exact h.congr (P := Set.univ) trivial (fun _ _ => rfl)
        (fun _ _ _ hf => ⟨hf, trivial⟩)
  rw [lang_of_nul hn, hcore]
  by_cases hA : A.nul
  · rw [lang_of_nul hA, ← add_assoc, Language.add_self]
  · rw [lang_of_not_nul hA]

/-- A single position without edges reads exactly the one-symbol words
of its set. -/
theorem lang_single {p : π} (h1 : A.first = {p}) (h2 : A.last = {p})
    (hf : ∀ q, ¬ A.fol p q) (hn : ¬ A.nul) :
    A.lang = {w | ∃ c ∈ A.sym p, w = [c]} := by
  ext w
  rw [lang_of_not_nul hn, mem_core]
  simp only [h1, h2, Set.mem_singleton_iff, exists_eq_left]
  constructor
  · intro h
    cases h with
    | single hc => exact ⟨_, hc, rfl⟩
    | step hc hpq h => exact absurd hpq (hf _)
  · rintro ⟨c, hc, rfl⟩
    exact .single hc

theorem lang_empty (h1 : A.first = ∅) (hn : A.nul) : A.lang = 1 := by
  ext w
  simp [mem_lang, mem_core, h1, hn, Language.mem_one]

/-! ## Set-at-a-time simulation -/

/-- The positions a scan holds after reading `w` from the entries. -/
def ends (A : Frag α π) (w : List α) : Set π :=
  {q | ∃ p ∈ A.first, A.Run p w q}

theorem mem_ends {w : List α} {q : π} :
    q ∈ A.ends w ↔ ∃ p ∈ A.first, A.Run p w q := Iff.rfl

theorem ends_nil : A.ends [] = ∅ := by
  ext q
  simp only [mem_ends, Set.mem_empty_iff_false, iff_false]
  rintro ⟨p, -, h⟩
  exact h.ne_nil rfl

theorem mem_core_iff_ends {w : List α} : w ∈ A.core ↔ ∃ q ∈ A.last, q ∈ A.ends w := by
  simp only [mem_core, mem_ends]
  tauto

theorem run_singleton {p q : π} {c : α} : A.Run p [c] q ↔ p = q ∧ c ∈ A.sym p := by
  constructor
  · intro h
    cases h with
    | single hc => exact ⟨rfl, hc⟩
    | step hc hpq h => exact absurd rfl h.ne_nil
  · rintro ⟨rfl, hc⟩
    exact .single hc

theorem run_cons {p r : π} {w : List α} {c : α} (hw : w ≠ [])
    (h : A.Run p (c :: w) r) : ∃ q, c ∈ A.sym p ∧ A.fol p q ∧ A.Run q w r := by
  cases h with
  | single hc => exact absurd rfl hw
  | step hc hpq h => exact ⟨_, hc, hpq, h⟩

theorem run_snoc {p r : π} {w : List α} {c : α} (hw : w ≠ []) :
    A.Run p (w ++ [c]) r ↔ ∃ q, A.Run p w q ∧ A.fol q r ∧ c ∈ A.sym r := by
  constructor
  · induction w generalizing p with
    | nil => exact absurd rfl hw
    | cons d w ih =>
        intro h
        obtain ⟨q, hd, hpq, h⟩ := run_cons (by simp) h
        by_cases hw' : w = []
        · subst hw'
          obtain ⟨rfl, hc⟩ := run_singleton.mp h
          exact ⟨p, .single hd, hpq, hc⟩
        · obtain ⟨s, hs, hsr, hc⟩ := ih hw' h
          exact ⟨s, .step hd hpq hs, hsr, hc⟩
  · rintro ⟨q, h, hqr, hc⟩
    exact h.append hqr (.single hc)

theorem ends_singleton (c : α) : A.ends [c] = {q | q ∈ A.first ∧ c ∈ A.sym q} := by
  ext q
  simp only [mem_ends, run_singleton, Set.mem_ofPred_eq]
  constructor
  · rintro ⟨p, hp, rfl, hc⟩
    exact ⟨hp, hc⟩
  · rintro ⟨hq, hc⟩
    exact ⟨q, hq, rfl, hc⟩

/-- **The scan step**: the positions after one more symbol are the
followers that admit it. -/
theorem ends_snoc {w : List α} {c : α} (hw : w ≠ []) :
    A.ends (w ++ [c]) = {r | (∃ q ∈ A.ends w, A.fol q r) ∧ c ∈ A.sym r} := by
  ext r
  simp only [mem_ends, run_snoc hw, Set.mem_ofPred_eq]
  constructor
  · rintro ⟨p, hp, q, hq, hqr, hc⟩
    exact ⟨⟨q, ⟨p, hp, hq⟩, hqr⟩, hc⟩
  · rintro ⟨⟨q, ⟨p, hp, hq⟩, hqr⟩, hc⟩
    exact ⟨p, hp, q, hq, hqr, hc⟩

/-- Acceptance of a non-empty word, read off the positions held at its end. -/
theorem mem_lang_iff_ends {w : List α} (hw : w ≠ []) :
    w ∈ A.lang ↔ ∃ q ∈ A.last, q ∈ A.ends w := by
  rw [mem_lang_of_ne_nil hw, mem_core_iff_ends]

/-- The positions a scan holds after reading `w` when it may start a word
before every symbol. -/
def sweep (A : Frag α π) (w : List α) : Set π :=
  {q | ∃ u v, u ++ v = w ∧ q ∈ A.ends v}

theorem mem_sweep {w : List α} {q : π} :
    q ∈ A.sweep w ↔ ∃ u v, u ++ v = w ∧ q ∈ A.ends v := Iff.rfl

theorem sweep_nil : A.sweep [] = ∅ := by
  ext q
  simp only [mem_sweep, Set.mem_empty_iff_false, iff_false]
  rintro ⟨u, v, huv, hq⟩
  obtain ⟨-, rfl⟩ := List.append_eq_nil_iff.mp huv
  rw [ends_nil] at hq
  exact hq

theorem sweep_snoc (w : List α) (c : α) :
    A.sweep (w ++ [c])
      = {r | (r ∈ A.first ∨ ∃ q ∈ A.sweep w, A.fol q r) ∧ c ∈ A.sym r} := by
  ext r
  simp only [mem_sweep, Set.mem_ofPred_eq]
  constructor
  · rintro ⟨u, v, huv, hr⟩
    rcases List.eq_nil_or_concat v with rfl | ⟨v, d, rfl⟩
    · rw [ends_nil] at hr
      exact absurd hr (Set.notMem_empty r)
    · rw [List.concat_eq_append, ← List.append_assoc] at huv
      obtain ⟨rfl, hd⟩ := List.append_inj' huv rfl
      obtain rfl : d = c := by simpa using hd
      rw [List.concat_eq_append] at hr
      by_cases hv : v = []
      · subst hv
        rw [List.nil_append, ends_singleton] at hr
        exact ⟨Or.inl hr.1, hr.2⟩
      · rw [ends_snoc hv] at hr
        obtain ⟨⟨q, hq, hqr⟩, hc⟩ := hr
        exact ⟨Or.inr ⟨q, ⟨u, v, rfl, hq⟩, hqr⟩, hc⟩
  · rintro ⟨hr | ⟨q, ⟨u, v, rfl, hq⟩, hqr⟩, hc⟩
    · refine ⟨w, [c], rfl, ?_⟩
      rw [ends_singleton]
      exact ⟨hr, hc⟩
    · refine ⟨u, v ++ [c], by simp, ?_⟩
      have hv : v ≠ [] := by
        rintro rfl
        rw [ends_nil] at hq
        exact hq
      rw [ends_snoc hv]
      exact ⟨⟨q, hq, hqr⟩, hc⟩

/-- A sweep accepts where some non-empty word of the language ends. -/
theorem exists_mem_sweep {w : List α} :
    (∃ q ∈ A.last, q ∈ A.sweep w) ↔ ∃ u v, u ++ v = w ∧ v ∈ A.core := by
  simp only [mem_sweep, mem_core_iff_ends]
  constructor
  · rintro ⟨q, hq, u, v, huv, hv⟩
    exact ⟨u, v, huv, q, hq, hv⟩
  · rintro ⟨u, v, huv, q, hq, hv⟩
    exact ⟨q, hq, u, v, huv, hv⟩

end Frag

end PosAutomaton
