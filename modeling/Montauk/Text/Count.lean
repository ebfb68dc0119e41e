import Montauk.Text.Prefilter
import Montauk.Text.Scanners

/-!
# Counting on the regex face

`regex_count` and what its two shortcuts, the literal prefilter and the
Shift-And field over byte sets, owe to the full field.

Both are sound as far as the pattern scanners in front of them are: the
prefilter as long as no bare anchor stands inside the pattern and the
literal is not the digits of a brace quantifier (`regexCount_eq_scanGnfa`),
the Shift-And field always. The full field itself counts what the
end-position oracle counts, but for empty matches at ends its loops do not
see (`scanGnfa_compiled_iff`).
-/

namespace Montauk

open PosAutomaton

/-! ## The Shift-And field -/

/-- The mask of the sets that admit a byte. -/
def classMask (sets : List ByteSet) (c : UInt8) : BitVec 64 :=
  (List.range sets.length).foldl
    (fun m i => if (sets.getD i 0).has c then m ||| (1#64 <<< i) else m) 0

def classfieldLoop (sets : List ByteSet) : BitVec 64 → Nat → List UInt8 → Nat
  | _, count, [] => count
  | D, count, c :: rest =>
      let D := ((D <<< 1) ||| 1) &&& classMask sets c
      let top := 1#64 <<< (sets.length - 1)
      classfieldLoop sets D (if D &&& top != 0 then count + 1 else count) rest

/-- `scan_classfield`; `none` is the source's `(size_t)-1`. -/
def scanClassfield (hay : List UInt8) (sets : List ByteSet) : Option Nat :=
  if sets.length = 0 ∨ 64 < sets.length then none else some (classfieldLoop sets 0 0 hay)

/-! ## The dispatch -/

/-- The pattern the literal prefilter takes: its literal and the bound on
the length of a match. `none` where `regex_prefiltered` leaves `used` at 0
for the pattern's sake. -/
def prefilterPlan {w : Nat} (pat : List UInt8) (g : Gnfa w) : Option (List UInt8 × Nat) :=
  if g.anchoredStart || g.anchoredEnd || g.nullableAll then none
  else
    let ml := regexMaxlen pat
    if ml < 1 ∨ 60 < ml then none
    else (extractLiteral pat 64).map fun lit => (lit, ml.toNatClampNeg)

/-- `regex_prefiltered`; `alloc` is whether the memo could be allocated. -/
def regexPrefiltered {w : Nat} (alloc : Bool) (hay pat : List UInt8) (g : Gnfa w)
    (I : UInt8 → BitVec w) : Option Nat :=
  match prefilterPlan pat g with
  | none => none
  | some (lit, ml) => if alloc then some (prefilterScan hay lit ml g I) else none

/-- `regex_count`. The memo is asked for twice at most, by the prefilter
and by the full field. -/
def regexCount (alloc₁ alloc₂ : Bool) (s : Search) (hay : List UInt8) : Nat :=
  let pat := cString s.pattern
  if s.g.npos = 0 then scanGnfa alloc₂ hay s.g s.imap
  else if s.icase then scanGnfa alloc₂ hay s.g s.imap
  else
    match regexPrefiltered alloc₁ hay pat s.g s.imap with
    | some r => r
    | none =>
        match (parseClasses pat 64).bind fun sets => scanClassfield hay sets with
        | some c => c
        | none => scanGnfa alloc₂ hay s.g s.imap

/-! ## The full field of a compiled search -/

/-- **The count against the oracle**, for every search on the regex face:
the full field counts the ends of matches exactly when every admissible
empty match sits at an end its loops see. -/
theorem scanGnfa_compiled_iff {pattern : List UInt8} {icase : Bool} {s : Search}
    (hs : s = searchCompile pattern ⟨false, icase⟩ 0) (hv : s.valid = true) (alloc : Bool)
    (hay : List UInt8) :
    scanGnfa alloc hay s.g s.imap = endPositions s.g s.imap hay
      ↔ s.g.EmptyEndsSeen s.imap hay := by
  subst hs
  obtain ⟨t, ht⟩ := searchCompile_regex hv
  exact scanGnfa_eq_endPositions_iff alloc ht.built.empty

/-- `a*$` on `ba`. -/
theorem scanGnfa_compiled_iff_star :
    scanGnfa true [0x62, 0x61] (searchCompile [0x61, 0x2a, 0x24] ⟨false, false⟩ 0).g
        (searchCompile [0x61, 0x2a, 0x24] ⟨false, false⟩ 0).imap
      = endPositions (searchCompile [0x61, 0x2a, 0x24] ⟨false, false⟩ 0).g
          (searchCompile [0x61, 0x2a, 0x24] ⟨false, false⟩ 0).imap [0x62, 0x61]
      ↔ (searchCompile [0x61, 0x2a, 0x24] ⟨false, false⟩ 0).g.EmptyEndsSeen
          (searchCompile [0x61, 0x2a, 0x24] ⟨false, false⟩ 0).imap [0x62, 0x61] :=
  scanGnfa_compiled_iff rfl (by decide +kernel) true [0x62, 0x61]

/-- `^a*` matches the empty word at the start of `b`; the full field counts
no end there. -/
theorem scanGnfa_empty_start :
    (searchCompile [0x5e, 0x61, 0x2a] ⟨false, false⟩ 0).valid = true
      ∧ scanGnfa true [0x62] (searchCompile [0x5e, 0x61, 0x2a] ⟨false, false⟩ 0).g
          (searchCompile [0x5e, 0x61, 0x2a] ⟨false, false⟩ 0).imap = 0
      ∧ endPositions (searchCompile [0x5e, 0x61, 0x2a] ⟨false, false⟩ 0).g
          (searchCompile [0x5e, 0x61, 0x2a] ⟨false, false⟩ 0).imap [0x62] = 1 := by
  decide +kernel

theorem scanGnfa_alloc {w : Nat} (g : Gnfa w) (I : UInt8 → BitVec w) (hay : List UInt8)
    (a b : Bool) : scanGnfa a hay g I = scanGnfa b hay g I := by
  by_cases hearly : (g.nullableAll && !g.anchoredStart && !g.anchoredEnd) = true
  · rw [scanGnfa, scanGnfa, if_pos hearly, if_pos hearly]
  · by_cases hpos : g.npos = 0
    · rw [scanGnfa, scanGnfa, if_neg hearly, if_neg hearly, if_pos hpos, if_pos hpos]
    · have hn : g.nullableAll = true → g.anchoredStart = true ∨ g.anchoredEnd = true := by
        intro hn
        simp only [hn, Bool.true_and, Bool.and_eq_true, Bool.not_eq_true', not_and_or,
          Bool.not_eq_false] at hearly
        exact hearly
      rw [scanGnfa_loops a hn hpos, scanGnfa_loops b hn hpos]

/-! ## Soundness of the Shift-And field -/

section Classfield

variable {sets : List ByteSet} {hay : List UInt8}

/-- The last `i` bytes before offset `j` are admitted by the first `i`
sets, one each. -/
def SetsEnd (sets : List ByteSet) (hay : List UInt8) (i j : Nat) : Prop :=
  i ≤ j ∧ ∀ m < i, (sets.getD m 0).has (hay.getD (j - i + m) 0) = true

theorem setsEnd_succ {i j : Nat} : SetsEnd sets hay (i + 1) (j + 1)
    ↔ SetsEnd sets hay i j ∧ (sets.getD i 0).has (hay.getD j 0) = true := by
  rw [SetsEnd, SetsEnd, Nat.forall_lt_succ_right, Nat.succ_le_succ_iff, Nat.add_sub_add_right,
    and_assoc]
  refine and_congr_right fun hij => and_congr_right fun _ => ?_
  rw [Nat.sub_add_cancel hij]

theorem getLsbD_classMask {c : UInt8} {i : Nat} (hlen : sets.length ≤ 64) :
    (classMask sets c).getLsbD i = true ↔ i < sets.length ∧ (sets.getD i 0).has c = true := by
  rw [classMask, getLsbD_foldl_or (fun i => 1#64 <<< i) (fun i => (sets.getD i 0).has c)]
  have hzero : (0 : BitVec 64).getLsbD i = false := BitVec.getLsbD_zero
  rw [hzero, Bool.false_or, List.any_eq_true]
  constructor
  · rintro ⟨m, hm, hbit⟩
    rw [List.mem_range] at hm
    rw [Bool.and_eq_true] at hbit
    have hpos : (psSingle 64 m).getLsbD i = true := hbit.2
    rw [getLsbD_psSingle (by omega), decide_eq_true_eq] at hpos
    exact hpos ▸ ⟨hm, hbit.1⟩
  · rintro ⟨hi, hc⟩
    refine ⟨i, List.mem_range.mpr hi, Bool.and_eq_true_iff.mpr ⟨hc, ?_⟩⟩
    show (psSingle 64 i).getLsbD i = true
    rw [getLsbD_psSingle (by omega)]
    exact decide_eq_true rfl

/-- The Shift-And word at offset `j`: bit `i` is set when the first `i + 1`
sets admit the bytes read last. -/
def FieldAt (sets : List ByteSet) (hay : List UInt8) (j : Nat) (D : BitVec 64) : Prop :=
  ∀ i, D.getLsbD i = true ↔ i < sets.length ∧ SetsEnd sets hay (i + 1) j

theorem FieldAt.step {j : Nat} {c : UInt8} {D : BitVec 64} (hlen : sets.length ≤ 64)
    (h : FieldAt sets hay j D) (hc : hay[j]? = some c) :
    FieldAt sets hay (j + 1) (((D <<< 1) ||| 1) &&& classMask sets c) := by
  intro i
  have hget : hay.getD j 0 = c := by rw [List.getD_eq_getElem?_getD, hc]; rfl
  have hone : (1 : BitVec 64).getLsbD i = decide (i = 0) := by
    rw [show (1 : BitVec 64) = 1#64 from rfl, BitVec.getLsbD_one]
    simp
  rw [BitVec.getLsbD_and, Bool.and_eq_true, getLsbD_classMask hlen, BitVec.getLsbD_or,
    BitVec.getLsbD_shiftLeft, hone, setsEnd_succ, hget]
  cases i with
  | zero =>
      have h0 : SetsEnd sets hay 0 j := ⟨Nat.zero_le j, fun m hm => absurd hm (Nat.not_lt_zero m)⟩
      simp [h0]
  | succ i =>
      have hi := h i
      simp only [Nat.add_sub_cancel, Nat.succ_ne_zero, decide_false, Bool.or_false]
      constructor
      · rintro ⟨hD, hlt, hhas⟩
        rw [Bool.and_eq_true] at hD
        exact ⟨hlt, (hi.mp hD.2).2, hhas⟩
      · rintro ⟨hlt, hend, hhas⟩
        have hbit := hi.mpr ⟨by omega, hend⟩
        rw [hbit]
        exact ⟨by simp; omega, hlt, hhas⟩

theorem classfieldLoop_eq (hne : sets ≠ []) (hlen : sets.length ≤ 64) {P : Nat → Bool}
    (hP : ∀ e ≤ hay.length, P e = true ↔ SetsEnd sets hay sets.length e) :
    ∀ (rest : List UInt8) (j count : Nat) (D : BitVec 64), hay.drop j = rest →
      FieldAt sets hay j D →
      classfieldLoop sets D count rest = count + (List.range' (j + 1) rest.length).countP P
  | [], j, count, D, _, _ => by simp [classfieldLoop]
  | c :: rest, j, count, D, hrest, hD => by
      have hD' := hD.step hlen (getElem?_of_drop hrest)
      have hpos := List.length_pos_iff.mpr hne
      rw [classfieldLoop]
      generalize (D <<< 1 ||| 1) &&& classMask sets c = D' at hD' ⊢
      have hhit : (D' &&& 1#64 <<< (sets.length - 1) != 0) = P (j + 1) := by
        rw [Bool.eq_iff_iff, hP _ (List.getElem?_eq_some_iff.mp (getElem?_of_drop hrest)).1]
        show (D' &&& psSingle 64 (sets.length - 1) != 0) = true ↔ _
        rw [and_ne_zero_iff]
        have hend : D'.getLsbD (sets.length - 1) = true ↔ SetsEnd sets hay sets.length (j + 1) := by
          rw [hD', Nat.sub_add_cancel hpos]
          exact and_iff_right (by omega)
        rw [← hend]
        constructor
        · rintro ⟨p, hp, htop⟩
          rw [mem_bits, getLsbD_psSingle (by omega), decide_eq_true_eq] at htop
          exact htop ▸ hp
        · intro hbit
          refine ⟨_, hbit, ?_⟩
          rw [mem_bits, getLsbD_psSingle (by omega)]
          exact decide_eq_true rfl
      rw [hhit, classfieldLoop_eq hne hlen hP rest (j + 1) _ D' (drop_succ_of_drop hrest) hD',
        List.length_cons, ← countP_range'_step]

theorem setsEnd_iff {e : Nat} (he : e ≤ hay.length) :
    SetsEnd sets hay sets.length e ↔ ∃ s ≤ e,
      List.Forall₂ (fun (S : ByteSet) c => S.has c = true) sets (slice hay s e) := by
  have hget : ∀ {s m : Nat} (hm : m < (slice hay s e).length),
      (slice hay s e).get ⟨m, hm⟩ = hay.getD (s + m) 0 := by
    intro s m hm
    rw [length_slice he] at hm
    rw [List.get_eq_getElem, List.getD_eq_getElem?_getD, List.getElem?_eq_getElem (by omega)]
    simp only [slice, List.getElem_take, List.getElem_drop, Option.getD_some]
  constructor
  · rintro ⟨hle, hall⟩
    refine ⟨e - sets.length, by omega, List.forall₂_iff_get.mpr ⟨?_, fun m h₁ h₂ => ?_⟩⟩
    · rw [length_slice he]
      omega
    · have hm := hall m h₁
      rw [List.getD_eq_getElem?_getD, List.getElem?_eq_getElem h₁, Option.getD_some] at hm
      rw [hget h₂]
      exact hm
  · rintro ⟨s, hs, hall⟩
    obtain ⟨hlen, hall⟩ := List.forall₂_iff_get.mp hall
    rw [length_slice he] at hlen
    refine ⟨by omega, fun m hm => ?_⟩
    have h₂ : m < (slice hay s e).length := by rw [length_slice he]; omega
    have hbit := hall m hm h₂
    have hsum : e - sets.length + m = s + m := by omega
    rw [hget h₂] at hbit
    rw [hsum, List.getD_eq_getElem?_getD, List.getElem?_eq_getElem hm, Option.getD_some]
    exact hbit

end Classfield

/-! ## The two shortcuts on a compiled search -/

section Shortcuts

variable {w : Nat} {pat : List UInt8} {icase : Bool} {g : Gnfa w} {t : Re}

theorem Built.body (h : Built pat icase g t) (hs : g.anchoredStart = false)
    (he : g.anchoredEnd = false) : (peelAnchors pat).2.2 = pat := by
  have h1 : (pat.head? == some Ch.caret) = false := h.anchoredStart.symm.trans hs
  have h2 := h.anchoredEnd.symm.trans he
  rw [peelAnchors, h1] at h2 ⊢
  simp only [Bool.false_eq_true, if_false] at h2 ⊢
  rw [h2, if_neg Bool.false_ne_true]

theorem Built.match_mem (h : Built pat icase g t) (hc : t.clean = true) {hay : List UInt8}
    {s e : Nat} (hm : g.Match (buildImap g) hay s e) : slice hay s e ∈ t.fieldLang := by
  rw [← h.lang hc, ← gnfaFull_iff]
  exact hm.full

theorem prefilterPlan_some {lit : List UInt8} {ml : Nat} (h : prefilterPlan pat g = some (lit, ml)) :
    (g.anchoredStart = false ∧ g.anchoredEnd = false ∧ g.nullableAll = false)
      ∧ (regexMaxlen pat).toInt = ml ∧ extractLiteral pat 64 = some lit := by
  rw [prefilterPlan] at h
  split at h
  · exact absurd h (by simp)
  · rename_i hflags
    simp only [Bool.or_eq_true, not_or, Bool.not_eq_true] at hflags
    refine ⟨⟨hflags.1.1, hflags.1.2, hflags.2⟩, ?_⟩
    dsimp only at h
    split at h
    · exact absurd h (by simp)
    · rename_i hrange
      have hpos := Int32.le_iff_toInt_le.mp (Int32.not_lt.mp (not_or.mp hrange).1)
      rw [show (1 : Int32).toInt = 1 from rfl] at hpos
      obtain ⟨lit', hlit, heq⟩ := Option.map_eq_some_iff.mp h
      obtain ⟨rfl, rfl⟩ := Prod.mk.inj heq
      refine ⟨?_, hlit⟩
      rw [Int32.toNatClampNeg]
      omega

/-- **The plan is sound**: every match holds the literal and is within the
bound. -/
theorem Built.planned (h : Built pat false g t) (h0 : (0 : UInt8) ∉ pat) {lit : List UInt8} {ml : Nat}
    (hplan : prefilterPlan pat g = some (lit, ml)) (hbare : t.bareAnchor = false)
    (hneg : t.negBound = false) (hbrace : literalInBrace pat = false) :
    lit ≠ [] ∧ ∀ hay s e, g.Match (buildImap g) hay s e →
      e - s ≤ ml ∧ lit <:+: slice hay s e := by
  obtain ⟨⟨hs, he, -⟩, hml, hlit⟩ := prefilterPlan_some hplan
  have hparse := h.parse
  rw [h.body hs he] at hparse
  obtain ⟨bs, s', cs, hitems, rfl, hcs⟩ := parseRe_items hparse
  have hall : ∀ b ∈ bs, b.bareAnchor = false ∧ b.negBound = false := fun b hb =>
    ⟨((catAll_iff (P := fun t => t.bareAnchor = false) rfl (fun _ _ => Bool.or_eq_false_iff) bs
      none).mp (flag_foldl (fun _ _ => rfl) hbare)).2 b hb,
      ((catAll_iff (P := fun t => t.negBound = false) rfl (fun _ _ => Bool.or_eq_false_iff) bs
        none).mp (flag_foldl (fun _ _ => rfl) hneg)).2 b hb⟩
  have hshort := h.short
  rw [h.body hs he] at hshort
  obtain ⟨hend, hflat, hwords⟩ := @regexMaxlenLoop_flat _ _ _ _ hitems (pat.length + 1) 0
    (Nat.lt_succ_self _) (by show 0 + 60 * pat.length < 2147483648; omega) h0 hall (hml ▸ Int.natCast_nonneg ml)
  obtain rfl := hcs hend
  have hclean : (catAll none bs).clean = true :=
    (catAll_iff (P := fun t => t.clean = true) rfl (fun _ _ => Bool.and_eq_true_iff) bs
      none).mpr ⟨fun _ h => absurd h (by simp), hflat.clean⟩
  obtain ⟨hne, hin⟩ := extractLiteral_flat hflat h0 hlit hbrace
  refine ⟨hne, fun hay s e hm => ?_⟩
  have hmem := h.match_mem hclean hm
  rw [List.foldl_nil, fieldLang_catAll, Option.elim_none, one_mul] at hmem
  have hlen := (hwords _ hmem).trans_eq hml
  rw [length_slice hm.bound] at hlen
  exact ⟨by omega, infix_of_litLeaves hin hmem⟩

theorem occursAt_of_infix {hay lit : List UInt8} {s e : Nat} (he : e ≤ hay.length) (hse : s ≤ e)
    (h : lit <:+: slice hay s e) : ∃ p, s ≤ p ∧ p + lit.length ≤ e ∧ occursAt hay lit p = true := by
  obtain ⟨u, v, huv⟩ := h
  have hlen := congrArg List.length huv
  rw [length_slice he, List.length_append, List.length_append] at hlen
  refine ⟨s + u.length, by omega, by omega, occursAt_iff.mpr ⟨by omega, ?_⟩⟩
  have hdrop : slice hay s e ++ hay.drop e = hay.drop s := slice_append_drop hse
  rw [← huv, List.append_assoc, List.append_assoc] at hdrop
  rw [← List.drop_drop, ← hdrop, List.drop_left, List.take_left]

theorem Built.filtered (h : Built pat false g t) (h0 : (0 : UInt8) ∉ pat) {lit : List UInt8} {ml : Nat}
    (hplan : prefilterPlan pat g = some (lit, ml)) (hbare : t.bareAnchor = false)
    (hneg : t.negBound = false) (hbrace : literalInBrace pat = false) (hay : List UInt8) :
    Filtered g (buildImap g) hay lit ml where
  start := (prefilterPlan_some hplan).1.1
  stop := (prefilterPlan_some hplan).1.2.1
  nonempty := (h.planned h0 hplan hbare hneg hbrace).1
  window s e hse hm := by
    obtain ⟨hlen, hin⟩ := (h.planned h0 hplan hbare hneg hbrace).2 hay s e hm
    exact ⟨hlen, occursAt_of_infix hm.bound hm.le hin⟩

/-- **The class field is sound**: a pattern `parse_classes` accepts is
counted as the full field counts it. -/
theorem Built.classfield (h : Built pat false g t) (h0 : (0 : UInt8) ∉ pat) (hpos : g.npos ≠ 0)
    {sets : List ByteSet} (hsets : parseClasses pat 64 = some sets) {hay : List UInt8} {c : Nat}
    (hc : scanClassfield hay sets = some c) (alloc : Bool) :
    c = scanGnfa alloc hay g (buildImap g) := by
  rw [parseClasses] at hsets
  split at hsets
  · exact absurd hsets (by simp)
  rename_i hbare
  rw [not_or] at hbare
  have hpeel := peelAnchors_bare hbare.1 hbare.2
  have hs : g.anchoredStart = false := by rw [h.anchoredStart, hpeel]
  have he : g.anchoredEnd = false := by rw [h.anchoredEnd, hpeel]
  have hparse := h.parse
  rw [h.body hs he] at hparse
  obtain ⟨bs, s', cs, hitems, rfl, hcs⟩ := parseRe_items hparse
  obtain ⟨hend, hlen, ks, heq, hks⟩ := parseClassesLoop_flat hitems (Nat.lt_succ_self _) h0 hsets
  obtain rfl : sets = ks := heq
  obtain rfl := hcs hend
  rw [List.length_nil] at hlen
  rw [scanClassfield] at hc
  split at hc
  · exact absurd hc (by simp)
  rename_i hlen'
  obtain rfl := Option.some.inj hc
  have hne : sets ≠ [] := fun hnil => hlen' (Or.inl (by rw [hnil]; rfl))
  have hclean : (catAll none bs).clean = true := by
    exact (catAll_iff (P := fun t => t.clean = true) rfl (fun _ _ => Bool.and_eq_true_iff) bs
      none).mpr ⟨fun _ h => absurd h (by simp), hks.clean⟩
  -- a word of the field is admitted by the sets, byte by byte
  have hfull : ∀ u, gnfaFull g (buildImap g) u = true
      ↔ List.Forall₂ (fun (S : ByteSet) c => S.has c = true) sets u := by
    intro u
    rw [gnfaFull_iff, h.lang hclean, List.foldl_nil, fieldLang_catAll, Option.elim_none, one_mul,
      mem_prod_leafSets hks]
  have hnul : g.nullableAll = false := by
    rw [Bool.eq_false_iff]
    intro hnul
    have hnil := (hfull []).mp hnul
    exact hne (List.forall₂_nil_right_iff.mp hnil)
  have hP : ∀ e ≤ hay.length, hitAt g (buildImap g) hay e = true ↔ SetsEnd sets hay sets.length e := by
    intro e hel
    rw [hitAt_iff, setsEnd_iff hel]
    constructor
    · rintro ⟨s, hse, hm⟩
      exact ⟨s, hse.le, (hfull _).mp hm.full⟩
    · rintro ⟨s, hse, hall⟩
      have hlt : s < e := by
        have hl := hall.length_eq
        rw [length_slice hel] at hl
        have := List.length_pos_iff.mpr hne
        omega
      exact ⟨s, hlt, hse, hel, fun h => absurd (h.symm.trans hs) (by simp),
        fun h => absurd (h.symm.trans he) (by simp), (hfull _).mpr hall⟩
  have hzero : FieldAt sets hay 0 0 := by
    intro i
    have hbit : (0 : BitVec 64).getLsbD i = false := BitVec.getLsbD_zero
    rw [hbit]
    exact iff_of_false Bool.false_ne_true fun hend => absurd hend.2.1 (Nat.not_succ_le_zero i)
  rw [classfieldLoop_eq hne (by omega) hP hay 0 0 0 rfl hzero, Nat.zero_add,
    scanGnfa_loops alloc (fun h => absurd (h.symm.trans hnul) (by simp)) hpos]

end Shortcuts

/-- **The count of a regex search** is the full field's, whichever arm
takes it, when the prefilter is off or the two scanners in front of it read
the pattern as the parser does: no bare `^` or `$` inside, no upper bound that
an `int` takes for negative, and a literal that does not come from between the
braces of a quantifier. The literal
then occurs in every match and no match is longer than the bound. -/
theorem regexCount_eq_scanGnfa {pattern : List UInt8} {icase : Bool} {s : Search}
    (hs : s = searchCompile pattern ⟨false, icase⟩ 0) (hv : s.valid = true) :
    ∃ t, parseRe icase (peelAnchors (cString pattern)).2.2 = some t ∧
      ((icase = false → prefilterPlan (cString pattern) s.g ≠ none →
          t.bareAnchor = false ∧ t.negBound = false ∧ literalInBrace (cString pattern) = false) →
        ∀ hay, (∀ alloc₁ alloc₂ alloc,
            regexCount alloc₁ alloc₂ s hay = scanGnfa alloc hay s.g s.imap)
          ∧ (icase = false → ∀ lit ml, prefilterPlan (cString pattern) s.g = some (lit, ml) →
              ∀ st e, s.Match hay st e → e - st ≤ ml ∧ lit <:+: slice hay st e)) := by
  subst hs
  obtain ⟨t, ht⟩ := searchCompile_regex hv
  generalize searchCompile pattern ⟨false, icase⟩ 0 = s at hv ht ⊢
  have h0 := zero_notMem_cString pattern
  refine ⟨t, ht.built.parse, fun hcond hay => ⟨fun alloc₁ alloc₂ alloc => ?_, ?_⟩⟩
  · rw [regexCount, ht.source, ht.folds]
    by_cases hpos : s.g.npos = 0
    · rw [if_pos hpos]
      exact scanGnfa_alloc ..
    rw [if_neg hpos]
    cases icase with
    | true => exact scanGnfa_alloc ..
    | false =>
        rw [if_neg Bool.false_ne_true, ht.imap]
        have hbuilt := ht.built
        have hclasses : (match (parseClasses (cString pattern) 64).bind fun sets =>
              scanClassfield hay sets with
            | some c => c
            | none => scanGnfa alloc₂ hay s.g (buildImap s.g))
            = scanGnfa alloc hay s.g (buildImap s.g) := by
          cases hsets : (parseClasses (cString pattern) 64).bind fun sets =>
              scanClassfield hay sets with
          | none => exact scanGnfa_alloc ..
          | some c =>
              obtain ⟨sets, hsets, hc⟩ := Option.bind_eq_some_iff.mp hsets
              exact hbuilt.classfield h0 hpos hsets hc alloc
        rw [regexPrefiltered]
        cases hplan : prefilterPlan (cString pattern) s.g with
        | none => exact hclasses
        | some r =>
            obtain ⟨lit, ml⟩ := r
            cases alloc₁ with
            | false => exact hclasses
            | true =>
                obtain ⟨hbare, hneg, hbrace⟩ := hcond rfl (by rw [hplan]; simp)
                exact prefilterScan_eq (hbuilt.filtered h0 hplan hbare hneg hbrace hay) alloc
                  (prefilterPlan_some hplan).1.2.2 hpos
  · rintro rfl lit ml hplan st e hm
    obtain ⟨hbare, hneg, hbrace⟩ := hcond rfl (by rw [hplan]; simp)
    rw [Search.Match, ht.mode, ht.imap] at hm
    exact (ht.built.planned h0 hplan hbare hneg hbrace).2 hay st e hm

/-- `abc.`, which the prefilter takes with the literal `abc`. -/
theorem regexCount_eq_scanGnfa_dot :
    prefilterPlan [0x61, 0x62, 0x63, 0x2e]
        (searchCompile [0x61, 0x62, 0x63, 0x2e] ⟨false, false⟩ 0).g
      = some ([0x61, 0x62, 0x63], 4)
    ∧ ∀ hay alloc₁ alloc₂ alloc,
        regexCount alloc₁ alloc₂ (searchCompile [0x61, 0x62, 0x63, 0x2e] ⟨false, false⟩ 0) hay
          = scanGnfa alloc hay (searchCompile [0x61, 0x62, 0x63, 0x2e] ⟨false, false⟩ 0).g
              (searchCompile [0x61, 0x62, 0x63, 0x2e] ⟨false, false⟩ 0).imap := by
  refine ⟨by decide +kernel, fun hay => ?_⟩
  have hv : (searchCompile [0x61, 0x62, 0x63, 0x2e] ⟨false, false⟩ 0).valid = true := by
    decide +kernel
  obtain ⟨t, ht, h⟩ := regexCount_eq_scanGnfa rfl hv
  have hflags : (parseRe false (peelAnchors (cString [0x61, 0x62, 0x63, 0x2e])).2.2).map
      (fun t => (t.bareAnchor, t.negBound)) = some (false, false) := by decide +kernel
  rw [ht] at hflags
  obtain ⟨hbare, hneg⟩ := Prod.mk.inj (Option.some.inj hflags)
  exact (h (fun _ _ => ⟨hbare, hneg, by decide +kernel⟩) hay).1

/-- `x{10}` on ten `x`: the full field counts one end, the prefilter looks
for the digits. -/
theorem regexCount_brace_digits :
    (searchCompile [0x78, 0x7b, 0x31, 0x30, 0x7d] ⟨false, false⟩ 0).valid = true
      ∧ regexCount true true (searchCompile [0x78, 0x7b, 0x31, 0x30, 0x7d] ⟨false, false⟩ 0)
          (List.replicate 10 0x78) = 0
      ∧ scanGnfa true (List.replicate 10 0x78)
          (searchCompile [0x78, 0x7b, 0x31, 0x30, 0x7d] ⟨false, false⟩ 0).g
          (searchCompile [0x78, 0x7b, 0x31, 0x30, 0x7d] ⟨false, false⟩ 0).imap = 1 := by
  decide +kernel

end Montauk
