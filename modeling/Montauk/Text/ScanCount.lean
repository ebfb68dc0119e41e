import Montauk.Text.Engine

/-!
# The full-field count

`scanGnfa` against the end-position oracle of the test suite. The three
loops count the ends of *non-empty* matches (`scanGnfa_loops`): the loop
without a memo by induction on the text still ahead, with the sweep of
the position automaton as its invariant; the memoised loop because the
memo is transparent (`reachOf_spec`: an entry in use always holds the
closure of its key, `CacheOk`); the anchored loop with the positions it
may hold under a leading `^`.

The oracle also counts empty matches, so the two agree exactly when every
admissible empty match sits at an end the loops see
(`scanGnfa_eq_endPositions_iff`, `Gnfa.EmptyEndsSeen`).
-/

namespace Montauk

open PosAutomaton

variable {w : Nat} {g : Gnfa w} {I : UInt8 → BitVec w}

/-! ## The oracle -/

/-- `Gnfa.Match`, decided. -/
def Gnfa.matchesAt (g : Gnfa w) (I : UInt8 → BitVec w) (hay : List UInt8) (s e : Nat) : Bool :=
  decide (s ≤ e) && decide (e ≤ hay.length) && (!g.anchoredStart || s == 0)
    && (!g.anchoredEnd || e == hay.length) && gnfaFull g I (slice hay s e)

theorem Gnfa.matchesAt_iff {hay : List UInt8} {s e : Nat} :
    g.matchesAt I hay s e = true ↔ g.Match I hay s e := by
  simp only [matchesAt, Bool.and_eq_true, decide_eq_true_eq, Bool.or_eq_true,
    Bool.not_eq_true', beq_iff_eq]
  constructor
  · rintro ⟨⟨⟨⟨h1, h2⟩, h3⟩, h4⟩, h5⟩
    exact ⟨h1, h2, fun h => h3.resolve_left (by simp [h]),
      fun h => h4.resolve_left (by simp [h]), h5⟩
  · rintro ⟨h1, h2, h3, h4, h5⟩
    refine ⟨⟨⟨⟨h1, h2⟩, ?_⟩, ?_⟩, h5⟩
    · cases h : g.anchoredStart with
      | false => exact Or.inl rfl
      | true => exact Or.inr (h3 h)
    · cases h : g.anchoredEnd with
      | false => exact Or.inl rfl
      | true => exact Or.inr (h4 h)

/-- The end-position oracle of the test suite: the number of ends `e` for
which some start `s <= e` makes `text[s..e)` a match. -/
def endPositions (g : Gnfa w) (I : UInt8 → BitVec w) (hay : List UInt8) : Nat :=
  (List.range (hay.length + 1)).countP fun e =>
    (List.range (e + 1)).any fun s => g.matchesAt I hay s e

/-- Some non-empty match ends at `e`. -/
def hitAt (g : Gnfa w) (I : UInt8 → BitVec w) (hay : List UInt8) (e : Nat) : Bool :=
  (List.range e).any fun s => g.matchesAt I hay s e

theorem hitAt_iff {hay : List UInt8} {e : Nat} :
    hitAt g I hay e = true ↔ ∃ s < e, g.Match I hay s e := by
  simp [hitAt, Gnfa.matchesAt_iff]

/-- The positions of a scan accept at `e` exactly when a non-empty word of
the language ends there. -/
theorem sweep_accepts {D : BitVec w} {hay : List UInt8} {e : Nat} (he : e ≤ hay.length)
    (hD : bits D = (g.frag I).sweep (hay.take e)) :
    (D &&& g.last != 0) = true ↔ ∃ s < e, gnfaFull g I (slice hay s e) = true := by
  rw [and_ne_zero_iff, hD]
  have hswap : (∃ p, p ∈ (g.frag I).sweep (hay.take e) ∧ p ∈ bits g.last)
      ↔ ∃ p ∈ (g.frag I).last, p ∈ (g.frag I).sweep (hay.take e) :=
    exists_congr fun p => and_comm
  rw [hswap, Frag.exists_mem_sweep]
  constructor
  · rintro ⟨u, v, huv, hv⟩
    have hne : v ≠ [] := fun h => Frag.nil_notMem_core (h ▸ hv)
    have hlen := congrArg List.length huv
    rw [List.length_append, List.length_take, Nat.min_eq_left he] at hlen
    have hpos := List.length_pos_iff.mpr hne
    refine ⟨u.length, by omega, (gnfaFull_iff _).mpr ?_⟩
    have hslice : slice hay u.length e = v := by
      have h1 : hay.take u.length ++ slice hay u.length e = hay.take e :=
        take_append_slice (by omega)
      have h2 : hay.take u.length = u := by
        have := congrArg (List.take u.length) huv
        rw [List.take_left', List.take_take, Nat.min_eq_left (by omega)] at this
        · exact this.symm
        · rfl
      rw [h2, ← huv] at h1
      exact List.append_cancel_left h1
    rw [hslice, Frag.mem_lang_of_ne_nil hne]
    exact hv
  · rintro ⟨s, hs, hf⟩
    refine ⟨hay.take s, slice hay s e, take_append_slice (by omega), ?_⟩
    have hne : slice hay s e ≠ [] := by
      rw [← List.length_pos_iff, length_slice he]; omega
    exact (Frag.mem_lang_of_ne_nil hne).mp ((gnfaFull_iff _).mp hf)

theorem take_succ_of_drop {hay rest : List UInt8} {j : Nat} {c : UInt8}
    (h : hay.drop j = c :: rest) :
    hay.take (j + 1) = hay.take j ++ [c] ∧ hay.drop (j + 1) = rest ∧ j < hay.length := by
  have hc : hay[j]? = some c := by
    rw [← List.head?_drop, h]; rfl
  refine ⟨by rw [List.take_add_one, hc]; rfl, by rw [← List.drop_drop, h]; rfl, ?_⟩
  exact (List.getElem?_eq_some_iff.mp hc).1

theorem countP_range'_step (P : Nat → Bool) (j k count : Nat) :
    (if P (j + 1) then count + 1 else count) + (List.range' (j + 1 + 1) k).countP P
      = count + (List.range' (j + 1) (k + 1)).countP P := by
  rw [List.range'_succ, List.countP_cons]
  split <;> omega

/-- The loop without a memo counts the ends from offset `j` on. -/
theorem scanNoCache_eq {hay : List UInt8} (hs : g.anchoredStart = false)
    (he : g.anchoredEnd = false) :
    ∀ (rest : List UInt8) (j count : Nat) (D : BitVec w), hay.drop j = rest →
      bits D = (g.frag I).sweep (hay.take j) →
      scanNoCache g I D count rest
        = count + (List.range' (j + 1) rest.length).countP (hitAt g I hay)
  | [], j, count, D, _, _ => by simp [scanNoCache]
  | c :: rest, j, count, D, hrest, hD => by
      obtain ⟨htake, hdrop, hj⟩ := take_succ_of_drop hrest
      have hD' : bits (reachCompute g D &&& I c) = (g.frag I).sweep (hay.take (j + 1)) := by
        rw [htake]; exact bits_sweep_snoc hD c
      have hhit : (reachCompute g D &&& I c &&& g.last != 0) = hitAt g I hay (j + 1) := by
        rw [Bool.eq_iff_iff, sweep_accepts hj hD', hitAt_iff]
        refine exists_congr fun s => and_congr_right fun hs' =>
          ⟨fun hf => ⟨hs'.le, hj, by simp [hs], by simp [he], hf⟩, fun hm => hm.full⟩
      rw [scanNoCache]
      rw [scanNoCache_eq hs he rest (j + 1) _ _ hdrop hD', hhit, List.length_cons,
        ← countP_range'_step]

/-- An entry in use holds the closure of its key. -/
def CacheOk (g : Gnfa w) (cache : ReachCache w) : Prop :=
  ∀ h, (cache h).used = true → (cache h).reach = reachCompute g (cache h).key

theorem reachProbe_key {cache : ReachCache w} {D : BitVec w} :
    ∀ {n h i : Nat}, reachProbe cache D n h = some i → (cache i).used = true →
      (cache i).key = D
  | 0, _, _, hp, _ => by simp [reachProbe] at hp
  | n + 1, h, i, hp, hu => by
      rw [reachProbe] at hp
      split at hp
      · exact reachProbe_key hp hu
      · rename_i hno
        obtain rfl := Option.some.inj hp
        simpa [hu] using hno

/-- **The memo is transparent**: a lookup returns the closure of the set
it was asked for, table full or not, and keeps the entries right. -/
theorem reachOf_spec {D : BitVec w} {cache : ReachCache w} (hc : CacheOk g cache) :
    (reachOf D g cache).1 = reachCompute g D ∧ CacheOk g (reachOf D g cache).2 := by
  unfold reachOf
  split
  · rename_i h0
    subst h0
    refine ⟨?_, hc⟩
    refine BitVec.eq_of_getLsbD_eq fun p _ => ?_
    rw [Bool.eq_iff_iff, reachCompute, ← mem_bits, ← mem_bits, mem_bits_reachFollows]
    simp
  · split
    · exact ⟨rfl, hc⟩
    · rename_i i hp
      split
      · rename_i hu
        exact ⟨by rw [hc i hu, reachProbe_key hp hu], hc⟩
      · refine ⟨rfl, fun h hu => ?_⟩
        by_cases hh : h = i
        · simp [hh]
        · simp only [if_neg hh] at hu ⊢
          exact hc h hu

/-- The memoised loop counts what the loop without a memo counts. -/
theorem scanMemo_eq : ∀ (rest : List UInt8) (D : BitVec w) (cache : ReachCache w) (count : Nat),
    CacheOk g cache → (scanMemo g I D cache count rest).1 = scanNoCache g I D count rest
      ∧ CacheOk g (scanMemo g I D cache count rest).2
  | [], D, cache, count, hc => ⟨rfl, hc⟩
  | c :: rest, D, cache, count, hc => by
      obtain ⟨hreach, hc'⟩ := reachOf_spec (D := D) hc
      rw [scanMemo, scanNoCache]
      simp only [hreach]
      exact scanMemo_eq rest _ _ _ hc'

theorem cacheOk_empty : CacheOk g (ReachCache.empty w) := by
  intro h hu
  simp [ReachCache.empty] at hu

/-- What the anchored loop holds after `text[0..j)`: everything a scan may
hold, or only the words that start at offset 0. -/
def anchoredHeld (g : Gnfa w) (I : UInt8 → BitVec w) (u : List UInt8) : Set Nat :=
  if g.anchoredStart then (g.frag I).ends u else (g.frag I).sweep u

theorem anchoredHeld_step {hay rest : List UInt8} {j : Nat} {c : UInt8} {D : BitVec w}
    (hrest : hay.drop j = c :: rest) (hD : bits D = anchoredHeld g I (hay.take j)) :
    bits (reachFollows g D (if !g.anchoredStart || j == 0 then g.first else 0) &&& I c)
      = anchoredHeld g I (hay.take (j + 1)) := by
  obtain ⟨htake, -, hj⟩ := take_succ_of_drop hrest
  rw [htake, anchoredHeld]
  rw [anchoredHeld] at hD
  cases hs : g.anchoredStart with
  | false =>
      simp only [hs, Bool.false_eq_true, if_false] at hD ⊢
      simpa using bits_sweep_snoc hD c
  | true =>
      simp only [hs, if_true] at hD ⊢
      rcases Nat.eq_zero_or_pos j with rfl | hpos
      · have hD0 : bits D = ∅ := by simpa [Frag.ends_nil] using hD
        have hf := bits_first (g := g) (I := I) c
        have hb := bits_step (g := g) (I := I) D g.first c
        rw [hD0] at hb
        simp only [Bool.not_true, Bool.false_or, beq_self_eq_true, if_true, List.take_zero,
          List.nil_append]
        rw [hb, Frag.ends_singleton]
        ext r
        simp only [Set.mem_empty_iff_false, false_and, exists_false, or_false]
        rfl
      · have hne : hay.take j ≠ [] := by
          rw [← List.length_pos_iff, List.length_take]; omega
        have hj0 : (j == 0) = false := by simpa using hpos.ne'
        simp only [hj0, Bool.not_true, Bool.or_false, Bool.false_eq_true, if_false]
        exact bits_ends_snoc hne hD c

theorem anchoredHeld_accepts {D : BitVec w} {hay : List UInt8} {e : Nat} (hpos : 0 < e)
    (he : e ≤ hay.length) (hD : bits D = anchoredHeld g I (hay.take e)) :
    (D &&& g.last != 0) = true
      ↔ ∃ s < e, (g.anchoredStart = true → s = 0) ∧ gnfaFull g I (slice hay s e) = true := by
  rw [anchoredHeld] at hD
  cases hs : g.anchoredStart with
  | false =>
      simp only [hs, Bool.false_eq_true, if_false] at hD
      simpa using sweep_accepts he hD
  | true =>
      simp only [hs, if_true] at hD
      have hne : hay.take e ≠ [] := by
        rw [← List.length_pos_iff, List.length_take]; omega
      have h0 : slice hay 0 e = hay.take e := by simp [slice]
      rw [accepts_of_bits hne hD, ← gnfaFull_iff]
      constructor
      · intro hf
        exact ⟨0, hpos, fun _ => rfl, h0 ▸ hf⟩
      · rintro ⟨s, -, hs0, hf⟩
        rw [hs0 rfl, h0] at hf
        exact hf

theorem scanAnchored_eq {hay : List UInt8} :
    ∀ (rest : List UInt8) (j count : Nat) (D : BitVec w), hay.drop j = rest →
      bits D = anchoredHeld g I (hay.take j) →
      scanAnchored g I j D count rest
        = count + (List.range' (j + 1) rest.length).countP (hitAt g I hay)
  | [], j, count, D, _, _ => by simp [scanAnchored]
  | c :: rest, j, count, D, hrest, hD => by
      obtain ⟨-, hdrop, hj⟩ := take_succ_of_drop hrest
      have hD' := anchoredHeld_step hrest hD
      rw [scanAnchored]
      generalize hE : reachFollows g D (if !g.anchoredStart || j == 0 then g.first else 0)
        &&& I c = D' at hD' ⊢
      have hlast : rest.isEmpty = true ↔ j + 1 = hay.length := by
        rw [List.isEmpty_iff, ← hdrop, List.drop_eq_nil_iff]
        omega
      have hhit : (D' &&& g.last != 0 && (!g.anchoredEnd || rest.isEmpty))
          = hitAt g I hay (j + 1) := by
        rw [Bool.eq_iff_iff, Bool.and_eq_true, anchoredHeld_accepts (by omega) hj hD',
          hitAt_iff, Bool.or_eq_true, Bool.not_eq_true', hlast]
        constructor
        · rintro ⟨⟨s, hs, hs0, hf⟩, ha⟩
          exact ⟨s, hs, hs.le, hj, hs0, fun h => ha.resolve_left (by simp [h]), hf⟩
        · rintro ⟨s, hs, hm⟩
          refine ⟨⟨s, hs, hm.start, hm.full⟩, ?_⟩
          cases h : g.anchoredEnd with
          | false => exact Or.inl rfl
          | true => exact Or.inr (hm.stop h)
      rw [hhit, scanAnchored_eq rest (j + 1) _ D' hdrop hD', List.length_cons,
        ← countP_range'_step]

/-- Outside the early returns, the count is the number of ends of
non-empty matches, whichever loop runs. -/
theorem scanGnfa_loops (alloc : Bool) {hay : List UInt8}
    (hn : g.nullableAll = true → g.anchoredStart = true ∨ g.anchoredEnd = true)
    (hpos : g.npos ≠ 0) :
    scanGnfa alloc hay g I = (List.range' 1 hay.length).countP (hitAt g I hay) := by
  have hstart : bits (0 : BitVec w) = anchoredHeld g I (hay.take 0) := by
    rw [List.take_zero, anchoredHeld, Frag.ends_nil, Frag.sweep_nil, ite_self]
    exact bits_zero
  have hfirst : ¬ (g.nullableAll && !g.anchoredStart && !g.anchoredEnd) = true := by
    intro h
    simp only [Bool.and_eq_true, Bool.not_eq_true'] at h
    rcases hn h.1.1 with h' | h' <;> simp [h'] at h
  rw [scanGnfa, if_neg hfirst, if_neg hpos]
  split
  · rw [scanAnchored_eq hay 0 0 0 rfl hstart, Nat.zero_add]
  · rename_i hanch
    simp only [Bool.or_eq_true, not_or, Bool.not_eq_true] at hanch
    rw [anchoredHeld, hanch.1, if_neg (by simp)] at hstart
    have hloop := scanNoCache_eq (I := I) hanch.1 hanch.2 hay 0 0 0 rfl hstart
    rw [Nat.zero_add] at hloop
    split
    · rw [(scanMemo_eq hay 0 _ 0 cacheOk_empty).1, hloop]
    · exact hloop

/-- The oracle counts the ends of non-empty matches and the offsets where
the empty match honours the anchors. -/
theorem endPositions_eq (hay : List UInt8) :
    endPositions g I hay = (List.range (hay.length + 1)).countP
      fun e => hitAt g I hay e || g.matchesAt I hay e e := by
  refine List.countP_congr fun e _ => ?_
  rw [List.range_succ, List.any_append, List.any_cons, List.any_nil, Bool.or_false]
  rfl

theorem countP_or_eq_iff {β : Type} (P Q : β → Bool) :
    ∀ l : List β, (l.countP P = l.countP fun b => P b || Q b)
      ↔ ∀ b ∈ l, Q b = true → P b = true
  | [] => by simp
  | b :: l => by
      have hle : l.countP P ≤ l.countP fun b => P b || Q b :=
        List.countP_mono_left fun b _ h => by simp [h]
      rw [List.countP_cons, List.countP_cons, List.forall_mem_cons, ← countP_or_eq_iff P Q l]
      cases P b with
      | true => simp
      | false =>
          cases Q b with
          | false => simp
          | true => simp; omega

/-- When every empty match is at an end the full-field count sees: the
pattern is not nullable, or has no position, or no anchor, or it is
anchored at the end and the last offset is the end of a non-empty match
(under a leading `^` too it suffices that the text is not empty). -/
def Gnfa.EmptyEndsSeen (g : Gnfa w) (I : UInt8 → BitVec w) (hay : List UInt8) : Prop :=
  g.nullableAll = true → g.npos ≠ 0 → (g.anchoredStart = true ∨ g.anchoredEnd = true) →
    g.anchoredEnd = true ∧
      if g.anchoredStart = true then hay ≠ []
      else ∃ s < hay.length, gnfaFull g I (hay.drop s) = true

theorem matchesAt_self {hay : List UInt8} {e : Nat} (he : e ≤ hay.length) :
    g.matchesAt I hay e e = true ↔ g.nullableAll = true
      ∧ (g.anchoredStart = true → e = 0) ∧ (g.anchoredEnd = true → e = hay.length) := by
  rw [Gnfa.matchesAt_iff]
  have hfull : gnfaFull g I (slice hay e e) = g.nullableAll := by rw [slice_self, gnfaFull]
  constructor
  · rintro ⟨-, -, h1, h2, h3⟩
    exact ⟨hfull ▸ h3, h1, h2⟩
  · rintro ⟨h1, h2, h3⟩
    exact ⟨le_rfl, he, h2, h3, hfull.trans h1⟩

/-- The empty matches a scan loop would have to see are the ends of
non-empty matches exactly under `EmptyEndsSeen`. -/
theorem emptyEndsSeen_iff {hay : List UInt8} (hpos : g.npos ≠ 0)
    (hn : g.nullableAll = true → g.anchoredStart = true ∨ g.anchoredEnd = true) :
    (∀ e ∈ List.range (hay.length + 1), g.matchesAt I hay e e = true →
        hitAt g I hay e = true) ↔ g.EmptyEndsSeen I hay := by
  have hself : ∀ e ≤ hay.length, g.matchesAt I hay e e = true ↔ g.nullableAll = true
      ∧ (g.anchoredStart = true → e = 0) ∧ (g.anchoredEnd = true → e = hay.length) :=
    fun e he => matchesAt_self he
  constructor
  · intro h hnul _ _
    have hE : g.anchoredEnd = true := by
      by_contra hE
      have hS := (hn hnul).resolve_right hE
      have h0 := h 0 (by simp) ((hself 0 (by omega)).mpr ⟨hnul, fun _ => rfl, fun h => absurd h hE⟩)
      simp [hitAt] at h0
    refine ⟨hE, ?_⟩
    split
    · rintro rfl
      have h0 := h 0 (by simp) ((hself 0 (by simp)).mpr ⟨hnul, fun _ => rfl, fun _ => rfl⟩)
      simp [hitAt] at h0
    · rename_i hS
      have hlast := h hay.length (by simp) ((hself _ le_rfl).mpr
        ⟨hnul, fun h => absurd h hS, fun _ => rfl⟩)
      obtain ⟨s, hs, hm⟩ := hitAt_iff.mp hlast
      refine ⟨s, hs, ?_⟩
      have := hm.full
      rwa [slice, List.take_of_length_le (by simp)] at this
  · intro h e he hm
    rw [List.mem_range] at he
    obtain ⟨hnul, hs, hE'⟩ := (hself e (by omega)).mp hm
    obtain ⟨hE, hrest⟩ := h hnul hpos (hn hnul)
    obtain rfl := hE' hE
    rw [hitAt_iff]
    split at hrest
    · rename_i hS
      exact absurd (List.length_eq_zero_iff.mp (hs hS)) hrest
    · rename_i hS
      obtain ⟨s, hs, hf⟩ := hrest
      refine ⟨s, hs, hs.le, le_rfl, fun h => absurd h hS, fun _ => rfl, ?_⟩
      rwa [slice, List.take_of_length_le (by simp)]

/-- A field without positions only matches the empty text. -/
theorem gnfaFull_of_first_zero (hf : g.first = 0) {hay : List UInt8} (hne : hay ≠ []) :
    gnfaFull g I hay = false := by
  cases hay with
  | nil => exact absurd rfl hne
  | cons c rest => simp [gnfaFull, hf]

/-- The early return for a field without positions agrees with the oracle. -/
theorem endPositions_no_positions (hf : g.first = 0) (hn : g.nullableAll = true)
    (hanch : g.anchoredStart = true ∨ g.anchoredEnd = true) (hay : List UInt8) :
    endPositions g I hay
      = if g.anchoredStart && g.anchoredEnd then (if hay.length = 0 then 1 else 0) else 1 := by
  have hhit : ∀ e, hitAt g I hay e = false := by
    intro e
    rw [← Bool.not_eq_true, hitAt_iff]
    rintro ⟨s, hs, hm⟩
    have hne : slice hay s e ≠ [] := by
      rw [← List.length_pos_iff, length_slice hm.bound]; omega
    have := hm.full
    rw [gnfaFull_of_first_zero hf hne] at this
    cases this
  have hcount : endPositions g I hay = (List.range (hay.length + 1)).countP fun e =>
      (!g.anchoredStart || e == 0) && (!g.anchoredEnd || e == hay.length) := by
    rw [endPositions_eq]
    refine List.countP_congr fun e he => ?_
    rw [List.mem_range] at he
    rw [hhit, Bool.false_or, matchesAt_self (by omega)]
    cases g.anchoredStart <;> cases g.anchoredEnd <;> simp [hn]
  have hone : ∀ i ≤ hay.length,
      (List.range (hay.length + 1)).countP (fun e => e == i) = 1 := by
    intro i hi
    rw [← List.count_eq_countP, List.count_range]
    simp; omega
  rw [hcount]
  cases hS : g.anchoredStart <;> cases hE : g.anchoredEnd <;> simp [hS, hE] at hanch ⊢
  · exact hone _ le_rfl
  · exact hone 0 (by omega)
  · cases hay with
    | nil => rfl
    | cons c rest =>
        rw [if_neg (by simp), List.countP_eq_zero]
        intro e _ hboth
        simp only [Bool.and_eq_true, beq_iff_eq, List.length_cons] at hboth
        omega

/-- **The full-field count against the oracle.** The two agree exactly when
every admissible empty match sits at an end the loops count. -/
theorem scanGnfa_eq_endPositions_iff (alloc : Bool) {hay : List UInt8}
    (h0 : g.npos = 0 → g.nullableAll = true ∧ g.first = 0) :
    scanGnfa alloc hay g I = endPositions g I hay ↔ g.EmptyEndsSeen I hay := by
  by_cases hearly : g.nullableAll = true ∧ g.anchoredStart = false ∧ g.anchoredEnd = false
  · obtain ⟨hn, hS, hE⟩ := hearly
    have hall : endPositions g I hay = hay.length + 1 := by
      rw [endPositions_eq, List.countP_eq_length.mpr, List.length_range]
      intro e he
      rw [List.mem_range] at he
      rw [Bool.or_eq_true, matchesAt_self (by omega)]
      exact Or.inr ⟨hn, by simp [hS], by simp [hE]⟩
    rw [hall, scanGnfa, if_pos (by simp [hn, hS, hE])]
    simp [Gnfa.EmptyEndsSeen, hS, hE]
  · have hn : g.nullableAll = true → g.anchoredStart = true ∨ g.anchoredEnd = true := by
      intro hn
      by_contra hno
      simp only [not_or, Bool.not_eq_true] at hno
      exact hearly ⟨hn, hno⟩
    by_cases hpos : g.npos = 0
    · obtain ⟨hnul, hf⟩ := h0 hpos
      rw [endPositions_no_positions hf hnul (hn hnul), scanGnfa, if_pos hpos, if_neg]
      · simp [Gnfa.EmptyEndsSeen, hpos]
      · intro h
        simp only [Bool.and_eq_true, Bool.not_eq_true'] at h
        exact hearly ⟨h.1.1, h.1.2, h.2⟩
    · have hrange : (List.range' 1 hay.length).countP (hitAt g I hay)
          = (List.range (hay.length + 1)).countP (hitAt g I hay) := by
        rw [List.range_eq_range', List.range'_succ, List.countP_cons]
        simp [hitAt]
      rw [scanGnfa_loops alloc hn hpos, endPositions_eq, hrange, countP_or_eq_iff,
        emptyEndsSeen_iff hpos hn]

end Montauk
