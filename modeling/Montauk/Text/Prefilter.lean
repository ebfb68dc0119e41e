import Montauk.Text.Match
import Montauk.Text.ScanCount

/-!
# The literal prefilter

`regex_prefiltered`: the field is run only over regions around the
occurrences of a literal, each region the union of the windows in which a
match around an occurrence can lie. The region loop is first written over
the occurrences themselves (`regionFold`); its invariant, `RegionInv`,
says that everything left of the open region is counted.
-/

namespace Montauk

open PosAutomaton

variable {w : Nat}

/-- `gnfa_range`: the field over `hay[a..b)`, from no position. -/
def gnfaRange (hay : List UInt8) (a b : Nat) (I : UInt8 → BitVec w) (g : Gnfa w)
    (cache : ReachCache w) : Nat × ReachCache w :=
  scanMemo g I 0 cache 0 (slice hay a b)

/-- The state of the region loop: what is counted so far, the open region
if there is one, and the memo. -/
structure Regions (w : Nat) where
  count : Nat
  start : Nat
  stop : Nat
  open? : Bool
  cache : ReachCache w

/-- An occurrence of the literal at `p`: extend the open region, or count it
and open the next. -/
def regionStep (hay : List UInt8) (ml : Nat) (g : Gnfa w) (I : UInt8 → BitVec w)
    (st : Regions w) (p : Nat) : Regions w :=
  let ws := if ml - 1 ≤ p then p - (ml - 1) else 0
  let we := if p + ml < hay.length then p + ml else hay.length
  if !st.open? then { st with start := ws, stop := we, open? := true }
  else if ws ≤ st.stop then { st with stop := if st.stop < we then we else st.stop }
  else
    let (c, cache) := gnfaRange hay st.start st.stop I g st.cache
    { count := st.count + c, start := ws, stop := we, open? := true, cache }

/-- The memchr loop of `regex_prefiltered`, on the literal's probe byte. -/
def prefilterLoop (hay lit : List UInt8) (probeOff ml : Nat) (g : Gnfa w) (I : UInt8 → BitVec w) :
    Nat → Nat → Regions w → Regions w
  | 0, _, st => st
  | fuel + 1, q, st =>
      match memchr hay q hay.length (lit.getD probeOff 0) with
      | none => st
      | some h =>
          let st :=
            if probeOff ≤ h ∧ h - probeOff + lit.length ≤ hay.length
                ∧ (hay.drop (h - probeOff)).take lit.length = lit then
              regionStep hay ml g I st (h - probeOff)
            else st
          prefilterLoop hay lit probeOff ml g I fuel (h + 1) st

/-- The offset of the literal's probe byte: the rarest one, when it is at
least twice as rare as the first. -/
def probeOffset (lit : List UInt8) (hist : UInt8 → Nat) : Nat :=
  let off := offMinByData lit hist
  if off ≠ 0 ∧ hist (lit.getD 0 0) ≤ hist (lit.getD off 0) * 2 then 0 else off

/-- The region scan for a literal and a bound on the length of a match. -/
def prefilterScan (hay lit : List UInt8) (ml : Nat) (g : Gnfa w) (I : UInt8 → BitVec w) : Nat :=
  let st := prefilterLoop hay lit (probeOffset lit (byteHist hay)) ml g I (hay.length + 1) 0
    ⟨0, 0, 0, false, ReachCache.empty w⟩
  if st.open? then st.count + (gnfaRange hay st.start st.stop I g st.cache).1 else st.count

/-! ## The loop as a fold over occurrences -/

variable {g : Gnfa w} {I : UInt8 → BitVec w} {hay lit : List UInt8} {ml : Nat}

/-- The literal occurs at `p`. -/
def occursAt (hay lit : List UInt8) (p : Nat) : Bool :=
  decide (p + lit.length ≤ hay.length) && ((hay.drop p).take lit.length == lit)

theorem occursAt_iff {p : Nat} : occursAt hay lit p = true
    ↔ p + lit.length ≤ hay.length ∧ (hay.drop p).take lit.length = lit := by
  rw [occursAt, Bool.and_eq_true, decide_eq_true_eq, beq_iff_eq]

/-- The region loop over the offsets of a range that hold an occurrence. -/
def regionFold (hay lit : List UInt8) (ml : Nat) (g : Gnfa w) (I : UInt8 → BitVec w)
    (offs : List Nat) (st : Regions w) : Regions w :=
  (offs.filter (occursAt hay lit)).foldl (regionStep hay ml g I) st

theorem regionFold_skip {a b : Nat} {rest : List Nat} {st : Regions w}
    (h : ∀ p, a ≤ p → p < a + b → occursAt hay lit p = false) :
    regionFold hay lit ml g I (List.range' a b ++ rest) st = regionFold hay lit ml g I rest st := by
  have hnil : (List.range' a b).filter (occursAt hay lit) = [] := by
    rw [List.filter_eq_nil_iff]
    intro p hp
    have hp := List.mem_range'_1.mp hp
    simp [h p hp.1 hp.2]
  rw [regionFold, List.filter_append, hnil, List.nil_append, regionFold]

/-- Where the probe byte is not the literal's, the literal does not occur. -/
theorem occursAt_false_of_probe {probeOff p : Nat} (ho : probeOff < lit.length)
    (h : hay[p + probeOff]? ≠ some (lit.getD probeOff 0)) : occursAt hay lit p = false := by
  rw [← Bool.not_eq_true, occursAt_iff]
  rintro ⟨-, heq⟩
  have := exactAt_none_of_anchor (i := p) ho h
  rw [exactAt, if_pos heq] at this
  exact absurd this (by simp)

/-- The memchr loop visits the occurrences in order; a probe byte in front
of `probeOff` belongs to none. -/
theorem prefilterLoop_eq {probeOff : Nat} (ho : probeOff < lit.length) :
    ∀ (fuel q : Nat) (st : Regions w), hay.length - q < fuel →
      prefilterLoop hay lit probeOff ml g I fuel q st
        = regionFold hay lit ml g I
            (List.range' (q - probeOff) (hay.length - (q - probeOff))) st
  | 0, q, st, h => absurd h (Nat.not_lt_zero _)
  | fuel + 1, q, st, hf => by
      rw [prefilterLoop]
      cases hm : memchr hay q hay.length (lit.getD probeOff 0) with
      | none =>
          have hnone := memchr_none hm
          have hskip : regionFold hay lit ml g I
                (List.range' (q - probeOff) (hay.length - (q - probeOff)) ++ []) st
              = regionFold hay lit ml g I [] st := by
            refine regionFold_skip fun i h1 h2 => ?_
            by_cases hi : i + probeOff < hay.length
            · exact occursAt_false_of_probe ho (hnone _ (by omega) hi)
            · refine occursAt_false_of_probe ho ?_
              rw [List.getElem?_eq_none (by omega)]
              simp
          rw [List.append_nil] at hskip
          rw [hskip]
          rfl
      | some h =>
          obtain ⟨h1, h2, h3⟩ := memchr_some _ _ h rfl hm
          dsimp only
          by_cases hfront : h < probeOff
          · have hzero : h + 1 - probeOff = q - probeOff := by omega
            rw [if_neg fun hc => absurd hc.1 (Nat.not_le.mpr hfront),
              prefilterLoop_eq ho fuel (h + 1) st (by omega), hzero]
          · have hsplit : List.range' (q - probeOff) (hay.length - (q - probeOff))
                = List.range' (q - probeOff) (h - probeOff - (q - probeOff))
                  ++ ((h - probeOff)
                    :: List.range' (h + 1 - probeOff) (hay.length - (h + 1 - probeOff))) := by
              have hlen : hay.length - (q - probeOff) = (h - probeOff - (q - probeOff))
                  + ((hay.length - (h + 1 - probeOff)) + 1) := by omega
              rw [hlen, ← List.range'_append_1, List.range'_succ]
              congr 2
              · omega
              · congr 1
                omega
            rw [hsplit, regionFold_skip fun i hi1 hi2 =>
              occursAt_false_of_probe ho (h3 (i + probeOff) (by omega) (by omega))]
            rw [prefilterLoop_eq ho fuel (h + 1) _ (by omega), regionFold, regionFold,
              List.filter_cons]
            by_cases hocc : occursAt hay lit (h - probeOff) = true
            · have hcond := occursAt_iff.mp hocc
              rw [if_pos hocc, if_pos ⟨by omega, hcond⟩, List.foldl_cons]
            · rw [if_neg hocc, if_neg fun hc => hocc (occursAt_iff.mpr hc.2)]

theorem probeOffset_lt (hne : lit ≠ []) (hist : UInt8 → Nat) : probeOffset lit hist < lit.length := by
  rw [probeOffset]
  split
  · exact List.length_pos_iff.mpr hne
  · exact offMinByData_lt hist hne

/-! ## Regions -/

/-- The number of ends of non-empty matches in `(a, b]`. -/
def endsIn (g : Gnfa w) (I : UInt8 → BitVec w) (hay : List UInt8) (a b : Nat) : Nat :=
  (List.range' (a + 1) (b - a)).countP (hitAt g I hay)

theorem endsIn_split {a b c : Nat} (hab : a ≤ b) (hbc : b ≤ c) :
    endsIn g I hay a c = endsIn g I hay a b + endsIn g I hay b c := by
  have hlen : c - a = (b - a) + (c - b) := by omega
  rw [endsIn, hlen, ← List.range'_append_1, List.countP_append, endsIn, endsIn]
  have hstart : a + 1 + (b - a) = b + 1 := by omega
  rw [hstart]

theorem endsIn_zero {a b : Nat} (h : ∀ e, a < e → e ≤ b → hitAt g I hay e = false) :
    endsIn g I hay a b = 0 := by
  rw [endsIn, List.countP_eq_zero]
  intro e he
  have he := List.mem_range'_1.mp he
  simp [h e (by omega) (by omega)]

theorem slice_slice {a b s e : Nat} (hse : s ≤ e) (hb : a + e ≤ b) :
    slice (slice hay a b) s e = slice hay (a + s) (a + e) := by
  rw [slice, slice, slice, List.drop_take, List.drop_drop, List.take_take]
  congr 1
  omega

theorem match_slice {a b s e : Nat} (hs : g.anchoredStart = false) (he : g.anchoredEnd = false)
    (hab : a ≤ b) (hb : b ≤ hay.length) (hbe : a + e ≤ b) :
    g.Match I (slice hay a b) s e ↔ g.Match I hay (a + s) (a + e) := by
  have hlen : (slice hay a b).length = b - a := length_slice hb
  constructor
  · intro h
    have hle := h.le
    refine ⟨by omega, by omega, by simp [hs], by simp [he], ?_⟩
    rw [← slice_slice hle hbe]
    exact h.full
  · intro h
    have hle := h.le
    refine ⟨by omega, by omega, by simp [hs], by simp [he], ?_⟩
    rw [slice_slice (by omega) hbe]
    exact h.full

/-- A run of the field over a region counts the ends in it whose match
starts in it. -/
theorem gnfaRange_eq (hs : g.anchoredStart = false) (hend : g.anchoredEnd = false) {a b : Nat}
    (hab : a ≤ b) (hb : b ≤ hay.length) {cache : ReachCache w} (hc : CacheOk g cache) :
    (gnfaRange hay a b I g cache).1
        = (List.range' (a + 1) (b - a)).countP
            (fun e => (List.range' a (e - a)).any fun s => g.matchesAt I hay s e)
      ∧ CacheOk g (gnfaRange hay a b I g cache).2 := by
  obtain ⟨hcount, hc'⟩ := scanMemo_eq (I := I) (slice hay a b) 0 cache 0 hc
  refine ⟨?_, hc'⟩
  have hstart : bits (0 : BitVec w) = (g.frag I).sweep ((slice hay a b).take 0) := by
    rw [List.take_zero, Frag.sweep_nil]
    exact bits_zero
  have hlen : (slice hay a b).length = b - a := length_slice hb
  rw [gnfaRange, hcount, scanNoCache_eq hs hend (slice hay a b) 0 0 0 rfl hstart, Nat.zero_add, hlen]
  have hmap : List.range' (a + 1) (b - a) = (List.range' (0 + 1) (b - a)).map (a + ·) := by
    rw [List.map_add_range']
  rw [hmap, List.countP_map]
  refine List.countP_congr fun e hmem => ?_
  have he := List.mem_range'_1.mp hmem
  rw [Function.comp_apply, hitAt_iff, List.any_eq_true]
  constructor
  · rintro ⟨s, hse, hm⟩
    have := (match_slice hs hend hab hb (by omega)).mp hm
    exact ⟨a + s, List.mem_range'_1.mpr ⟨by omega, by omega⟩, Gnfa.matchesAt_iff.mpr this⟩
  · rintro ⟨s, hmem, hm⟩
    have hs' := List.mem_range'_1.mp hmem
    have hsa : a + (s - a) = s := by omega
    have hm' : g.Match I hay (a + (s - a)) (a + e) := by
      rw [hsa]
      exact Gnfa.matchesAt_iff.mp hm
    exact ⟨s - a, by omega, (match_slice hs hend hab hb (by omega)).mpr hm'⟩

/-- What makes the prefilter sound: the field has no anchor, every
non-empty match is at most `ml` long and holds the literal. -/
structure Filtered (g : Gnfa w) (I : UInt8 → BitVec w) (hay lit : List UInt8) (ml : Nat) : Prop where
  start : g.anchoredStart = false
  stop : g.anchoredEnd = false
  nonempty : lit ≠ []
  window : ∀ s e, s < e → g.Match I hay s e →
    e - s ≤ ml ∧ ∃ p, s ≤ p ∧ p + lit.length ≤ e ∧ occursAt hay lit p = true

/-- The window of an occurrence: where a match around it can lie. -/
def winStart (ml p : Nat) : Nat := p - (ml - 1)

def winStop (hay : List UInt8) (ml p : Nat) : Nat := min (p + ml) hay.length

theorem Filtered.in_window (h : Filtered g I hay lit ml) {s e : Nat} (hse : s < e)
    (hm : g.Match I hay s e) : ∃ p, p < hay.length ∧ occursAt hay lit p = true
      ∧ winStart ml p ≤ s ∧ e ≤ winStop hay ml p := by
  obtain ⟨hlen, p, hsp, hpe, hocc⟩ := h.window s e hse hm
  have hb := hm.bound
  have hl : 0 < lit.length := List.length_pos_iff.mpr h.nonempty
  exact ⟨p, by omega, hocc, by rw [winStart]; omega, by rw [winStop]; omega⟩

/-- The region loop at offset `k`: no occurrence was met yet, or every one
met lies left of the open region or inside it, and the ends left of it
are counted. -/
structure RegionInv (g : Gnfa w) (I : UInt8 → BitVec w) (hay lit : List UInt8) (ml k : Nat)
    (st : Regions w) : Prop where
  cache : CacheOk g st.cache
  closed : st.open? = false → st.count = 0 ∧ ∀ p < k, occursAt hay lit p = false
  le : st.open? = true → st.start ≤ st.stop ∧ st.stop ≤ hay.length
  first : st.open? = true → ∃ p < k, st.start = winStart ml p
  placed : st.open? = true → ∀ p < k, occursAt hay lit p = true →
    winStop hay ml p < st.start ∨ (st.start ≤ winStart ml p ∧ winStop hay ml p ≤ st.stop)
  counted : st.open? = true → st.count = endsIn g I hay 0 st.start

theorem winStart_mono (ml : Nat) {p q : Nat} (h : p ≤ q) : winStart ml p ≤ winStart ml q := by
  rw [winStart, winStart]
  omega

theorem RegionInv.close (hf : Filtered g I hay lit ml) {k : Nat} {st : Regions w}
    (h : RegionInv g I hay lit ml k st) (ho : st.open? = true)
    (hnext : ∀ p, k ≤ p → occursAt hay lit p = true → st.stop < winStart ml p) :
    st.count + (gnfaRange hay st.start st.stop I g st.cache).1 = endsIn g I hay 0 st.stop := by
  obtain ⟨hle, hlen⟩ := h.le ho
  rw [(gnfaRange_eq hf.start hf.stop hle hlen h.cache).1, h.counted ho,
    endsIn_split (Nat.zero_le st.start) hle]
  congr 1
  refine List.countP_congr fun e hmem => ?_
  have he := List.mem_range'_1.mp hmem
  rw [hitAt_iff, List.any_eq_true]
  constructor
  · rintro ⟨s, hs, hm⟩
    have hs := List.mem_range'_1.mp hs
    exact ⟨s, by omega, Gnfa.matchesAt_iff.mp hm⟩
  · rintro ⟨s, hse, hm⟩
    obtain ⟨p, -, hocc, hws, hwe⟩ := hf.in_window hse hm
    refine ⟨s, List.mem_range'_1.mpr ?_, Gnfa.matchesAt_iff.mpr hm⟩
    rcases Nat.lt_or_ge p k with hpk | hpk
    · rcases h.placed ho p hpk hocc with hleft | ⟨hin, -⟩
      · omega
      · omega
    · have := hnext p hpk hocc
      omega

theorem RegionInv.gap (hf : Filtered g I hay lit ml) {k : Nat} {st : Regions w}
    (h : RegionInv g I hay lit ml k st) (ho : st.open? = true) {b : Nat}
    (hnext : ∀ p, k ≤ p → occursAt hay lit p = true → b ≤ winStart ml p) :
    endsIn g I hay st.stop b = 0 := by
  refine endsIn_zero fun e hlt hle => ?_
  rw [← Bool.not_eq_true, hitAt_iff]
  rintro ⟨s, hse, hm⟩
  obtain ⟨p, -, hocc, hws, hwe⟩ := hf.in_window hse hm
  rcases Nat.lt_or_ge p k with hpk | hpk
  · have hst := (h.le ho).1
    rcases h.placed ho p hpk hocc with hleft | ⟨-, hin⟩
    · omega
    · omega
  · have := hnext p hpk hocc
    omega

theorem regionStep_eq (st : Regions w) (p : Nat) :
    regionStep hay ml g I st p
      = if !st.open? then
          { st with start := winStart ml p, stop := winStop hay ml p, open? := true }
        else if winStart ml p ≤ st.stop then
          { st with stop := max st.stop (winStop hay ml p) }
        else
          { count := st.count + (gnfaRange hay st.start st.stop I g st.cache).1
            start := winStart ml p, stop := winStop hay ml p, open? := true
            cache := (gnfaRange hay st.start st.stop I g st.cache).2 } := by
  have hws : (if ml - 1 ≤ p then p - (ml - 1) else 0) = winStart ml p := by
    rw [winStart]
    split <;> omega
  have hwe : (if p + ml < hay.length then p + ml else hay.length) = winStop hay ml p := by
    rw [winStop]
    split <;> omega
  have hmax : (if st.stop < winStop hay ml p then winStop hay ml p else st.stop)
      = max st.stop (winStop hay ml p) := by
    split <;> omega
  rw [regionStep, hws, hwe]
  dsimp only
  rw [hmax]

theorem RegionInv.step (hf : Filtered g I hay lit ml) {p : Nat} {st : Regions w}
    (h : RegionInv g I hay lit ml p st) (hp : p < hay.length)
    (hocc : occursAt hay lit p = true) :
    RegionInv g I hay lit ml (p + 1) (regionStep hay ml g I st p) := by
  have hml : winStart ml p ≤ winStop hay ml p := by
    rw [winStart, winStop]
    omega
  have hwe : winStop hay ml p ≤ hay.length := Nat.min_le_right _ _
  rw [regionStep_eq]
  cases ho : st.open? with
  | false =>
      obtain ⟨hzero, hnone⟩ := h.closed ho
      rw [Bool.not_false, if_pos rfl]
      refine ⟨h.cache, fun hc => absurd hc (by simp), fun _ => ⟨hml, hwe⟩,
        fun _ => ⟨p, Nat.lt_succ_self p, rfl⟩, fun _ q hq hqocc => ?_, fun _ => ?_⟩
      · rcases Nat.lt_succ_iff_lt_or_eq.mp hq with hlt | rfl
        · exact absurd hqocc (by rw [hnone q hlt]; exact Bool.false_ne_true)
        · exact Or.inr ⟨le_rfl, le_rfl⟩
      · refine hzero.trans (endsIn_zero fun e _ hle => ?_).symm
        rw [← Bool.not_eq_true, hitAt_iff]
        rintro ⟨s, hse, hm⟩
        obtain ⟨q, -, hqocc, hws, -⟩ := hf.in_window hse hm
        rcases Nat.lt_or_ge q p with hlt | hge
        · exact absurd hqocc (by rw [hnone q hlt]; exact Bool.false_ne_true)
        · have := winStart_mono ml hge
          dsimp only at hle
          omega
  | true =>
      obtain ⟨hle, hlen⟩ := h.le ho
      obtain ⟨p₀, hp₀, hstart⟩ := h.first ho
      have hmono := winStart_mono ml (Nat.le_of_lt hp₀)
      rw [Bool.not_true, if_neg Bool.false_ne_true]
      by_cases hjoin : winStart ml p ≤ st.stop
      · rw [if_pos hjoin]
        refine ⟨h.cache, fun hc => absurd hc (by simp),
          fun _ => ⟨le_max_of_le_left hle, max_le hlen hwe⟩,
          fun _ => ⟨p₀, Nat.lt_succ_of_lt hp₀, hstart⟩, fun _ q hq hqocc => ?_,
          fun _ => h.counted ho⟩
        rcases Nat.lt_succ_iff_lt_or_eq.mp hq with hlt | rfl
        · rcases h.placed ho q hlt hqocc with hleft | ⟨h1, h2⟩
          · exact Or.inl hleft
          · exact Or.inr ⟨h1, h2.trans (le_max_left _ _)⟩
        · exact Or.inr ⟨by dsimp only; omega, le_max_right _ _⟩
      · rw [if_neg hjoin]
        have hnext : ∀ q, p ≤ q → occursAt hay lit q = true → st.stop < winStart ml q := by
          intro q hq _
          have := winStart_mono ml hq
          omega
        refine ⟨(gnfaRange_eq hf.start hf.stop hle hlen h.cache).2,
          fun hc => absurd hc (by simp), fun _ => ⟨hml, hwe⟩,
          fun _ => ⟨p, Nat.lt_succ_self p, rfl⟩, fun _ q hq hqocc => ?_, fun _ => ?_⟩
        · rcases Nat.lt_succ_iff_lt_or_eq.mp hq with hlt | rfl
          · rcases h.placed ho q hlt hqocc with hleft | ⟨-, h2⟩
            · exact Or.inl (by dsimp only; omega)
            · exact Or.inl (by dsimp only; omega)
          · exact Or.inr ⟨le_rfl, le_rfl⟩
        · dsimp only
          rw [h.close hf ho hnext, endsIn_split (Nat.zero_le _) (Nat.le_of_lt (Nat.not_le.mp hjoin)),
            h.gap hf ho fun q hq _ => winStart_mono ml hq, Nat.add_zero]

/-- The whole region loop, by induction on the offsets still ahead. -/
theorem RegionInv.fold (hf : Filtered g I hay lit ml) :
    ∀ (n k : Nat) (st : Regions w), k + n = hay.length → RegionInv g I hay lit ml k st →
      RegionInv g I hay lit ml hay.length (regionFold hay lit ml g I (List.range' k n) st)
  | 0, k, st, hk, h => by
      obtain rfl : k = hay.length := by omega
      exact h
  | n + 1, k, st, hk, h => by
      rw [List.range'_succ, regionFold, List.filter_cons]
      by_cases hocc : occursAt hay lit k = true
      · rw [if_pos hocc, List.foldl_cons]
        exact RegionInv.fold hf n (k + 1) _ (by omega) (h.step hf (by omega) hocc)
      · rw [if_neg hocc]
        have hocc' : occursAt hay lit k = false := Bool.eq_false_iff.mpr hocc
        refine RegionInv.fold hf n (k + 1) st (by omega)
          ⟨h.cache, fun hc => ⟨(h.closed hc).1, fun p hp => ?_⟩, h.le, fun ho => ?_,
            fun ho p hp hpocc => ?_, h.counted⟩
        · rcases Nat.lt_succ_iff_lt_or_eq.mp hp with hlt | rfl
          · exact (h.closed hc).2 p hlt
          · exact hocc'
        · obtain ⟨p, hp, hs⟩ := h.first ho
          exact ⟨p, Nat.lt_succ_of_lt hp, hs⟩
        · rcases Nat.lt_succ_iff_lt_or_eq.mp hp with hlt | rfl
          · exact h.placed ho p hlt hpocc
          · exact absurd hpocc hocc

/-- **The region scan** counts what the full field counts. -/
theorem prefilterScan_eq (hf : Filtered g I hay lit ml) (alloc : Bool)
    (hnul : g.nullableAll = false) (hpos : g.npos ≠ 0) :
    prefilterScan hay lit ml g I = scanGnfa alloc hay g I := by
  have hocc : ∀ p, hay.length ≤ p → occursAt hay lit p = false := by
    intro p hp
    have hl : 0 < lit.length := List.length_pos_iff.mpr hf.nonempty
    rw [← Bool.not_eq_true, occursAt_iff]
    rintro ⟨h, -⟩
    omega
  have hstart : RegionInv g I hay lit ml 0 ⟨0, 0, 0, false, ReachCache.empty w⟩ :=
    ⟨cacheOk_empty, fun _ => ⟨rfl, fun p hp => absurd hp (Nat.not_lt_zero p)⟩,
      fun h => absurd h Bool.false_ne_true, fun h => absurd h Bool.false_ne_true,
      fun h => absurd h Bool.false_ne_true, fun h => absurd h Bool.false_ne_true⟩
  have hinv := hstart.fold hf hay.length 0 _ (Nat.zero_add _)
  have hscan : scanGnfa alloc hay g I = endsIn g I hay 0 hay.length :=
    scanGnfa_loops alloc (fun h => absurd (hnul ▸ h) Bool.false_ne_true) hpos
  have ho := probeOffset_lt hf.nonempty (byteHist hay)
  have hloop : prefilterLoop hay lit (probeOffset lit (byteHist hay)) ml g I (hay.length + 1) 0
      ⟨0, 0, 0, false, ReachCache.empty w⟩ = _ :=
    prefilterLoop_eq ho (hay.length + 1) 0 _ (by omega)
  rw [Nat.zero_sub, Nat.sub_zero] at hloop
  rw [hscan, prefilterScan, hloop]
  generalize regionFold hay lit ml g I (List.range' 0 hay.length)
    ⟨0, 0, 0, false, ReachCache.empty w⟩ = st at hinv ⊢
  cases hst : st.open? with
  | true =>
      have hle := hinv.le hst
      rw [if_pos rfl, hinv.close hf hst fun p hp hpocc => absurd hpocc (by rw [hocc p hp]; simp),
        endsIn_split (Nat.zero_le _) hle.2, hinv.gap hf hst fun p hp hpocc =>
          absurd hpocc (by rw [hocc p hp]; simp), Nat.add_zero]
  | false =>
      obtain ⟨hzero, hnone⟩ := hinv.closed hst
      rw [if_neg Bool.false_ne_true, hzero]
      refine (endsIn_zero fun e _ _ => ?_).symm
      rw [← Bool.not_eq_true, hitAt_iff]
      rintro ⟨s, hse, hm⟩
      obtain ⟨p, hp, hpocc, -⟩ := hf.in_window hse hm
      exact absurd hpocc (by rw [hnone p hp]; exact Bool.false_ne_true)

end Montauk
