import Montauk.Text.Engine

/-!
# Compiled searches

The public face of `match.c`: `sublimation_search_compile` with its three
faces, the whole-input match and the leftmost-longest search
`sublimation_search_find_from`. `Search.Match` says what a match of a
compiled search is, face by face, and `searchFindFrom_spec` that the search
reports the first start at or after an offset with its greatest end, for
every face. Each scanning loop is first brought to one shape, the first
offset of a range that passes a test (`FirstAt`).
-/

namespace Montauk

def searchMaxPattern : Nat := 1023

def searchAnchorHistMin : Nat := 2 ^ 20

inductive Mode where
  | exact
  | regex
  | fuzzy
deriving DecidableEq

/-- The compile flags: `SUBLIMATION_SEARCH_FIXED`, `SUBLIMATION_SEARCH_ICASE`. -/
structure SearchFlags where
  fixed : Bool
  icase : Bool
deriving DecidableEq

/-- A compiled search (`sublimation_search`). -/
structure Search where
  pattern : List UInt8
  mode : Mode
  k : Nat
  icase : Bool
  valid : Bool
  nwords : Nat
  g : Gnfa (64 * nwords)
  imap : UInt8 → BitVec (64 * nwords)

/-- The C string at the front of a buffer. -/
def cString (p : List UInt8) : List UInt8 := p.takeWhile (· != 0)

/-- `sublimation_search_compile`. The regex face compiles the pattern up to
its first NUL; the field of an invalid search is never read. -/
def searchCompile (pattern : List UInt8) (flags : SearchFlags) (k : Int) : Search :=
  let out : Search :=
    { pattern := [], mode := .exact, k := k.toNat, icase := flags.icase, valid := false
      nwords := 1, g := Gnfa.zero _, imap := fun _ => 0 }
  if searchMaxPattern < pattern.length then out
  else
    let out := { out with pattern }
    if 0 < k then { out with mode := .fuzzy, valid := !pattern.isEmpty }
    else if flags.fixed then { out with mode := .exact, valid := !pattern.isEmpty }
    else
      match buildGnfa (cString pattern) flags.icase with
      | none => { out with mode := .regex }
      | some ⟨nwords, g⟩ =>
          { pattern, mode := .regex, k := k.toNat, icase := flags.icase, valid := true
            nwords, g, imap := buildImap g }

/-! ## Windows -/

/-- `for j: if (fold(hay[j]) != fold(pat[j])) break;` ran to the end. -/
def foldedPrefix (icase : Bool) : List UInt8 → List UInt8 → Bool
  | _, [] => true
  | [], _ :: _ => false
  | h :: hs, p :: ps => if fold h icase ≠ fold p icase then false else foldedPrefix icase hs ps

/-- The mismatch count of a window, left once it passes `k`. -/
def mismatches (icase : Bool) (k : Nat) : Nat → List UInt8 → List UInt8 → Nat
  | mism, _, [] => mism
  | mism, [], _ :: _ => mism
  | mism, h :: hs, p :: ps =>
      if fold h icase ≠ fold p icase then
        if k < mism + 1 then mism + 1 else mismatches icase k (mism + 1) hs ps
      else mismatches icase k mism hs ps

def searchFullMatch (s : Search) (hay : List UInt8) : Bool :=
  if !s.valid then false
  else
    match s.mode with
    | .regex => gnfaFull s.g s.imap hay
    | .fuzzy =>
        if hay.length ≠ s.pattern.length then false
        else decide (mismatches s.icase s.k 0 hay s.pattern ≤ s.k)
    | .exact =>
        if hay.length ≠ s.pattern.length then false else foldedPrefix s.icase hay s.pattern

/-! ## The rare-byte scan -/

/-- `memchr` on `hay[p..stop)`. -/
def memchr (hay : List UInt8) (p stop : Nat) (c : UInt8) : Option Nat :=
  (List.range' p (stop - p)).find? fun i => hay[i]? == some c

/-- `byte_hist`: the histogram of the first 256 KiB. -/
def byteHist (hay : List UInt8) (c : UInt8) : Nat := (hay.take (2 ^ 18)).count c

/-- `off_min_by_data`: the offset of the pattern byte that is rarest in the
sample, the first among equals. -/
def offMinByData (pat : List UInt8) (hist : UInt8 → Nat) : Nat :=
  ((List.range' 1 (pat.length - 1)).foldl
    (fun (best, bc) i =>
      if hist (pat.getD i 0) < bc then (i, hist (pat.getD i 0)) else (best, bc))
    (0, hist (pat.getD 0 0))).1

/-- The memchr loop of the exact face: `p` walks the anchor byte, `aoff`
into the pattern. Each round moves `p` forward, so `stop - p` bounds it. -/
def exactScan (hay pat : List UInt8) (aoff stop : Nat) : Nat → Nat → Option (Nat × Nat)
  | 0, _ => none
  | fuel + 1, p =>
      if p < stop then
        match memchr hay p stop (pat.getD aoff 0) with
        | none => none
        | some hit =>
            let start := hit - aoff
            if (hay.drop start).take pat.length = pat then some (start, start + pat.length)
            else exactScan hay pat aoff stop fuel (hit + 1)
      else none

/-! ## Leftmost search -/

/-- The offsets from `start` below `limit` that a loop visits, first hit. -/
def firstOffset (start limit : Nat) (f : Nat → Option Nat) : Option (Nat × Nat) :=
  (List.range' start (limit - start)).findSome? fun i => (f i).map fun e => (i, e)

/-- `sublimation_search_find_from`: the start and the end, `none` for `-1`. -/
def searchFindFrom (s : Search) (hay : List UInt8) (start : Nat) : Option (Nat × Nat) :=
  let n := hay.length
  let m := s.pattern.length
  if !s.valid || n < start then none
  else if s.mode = .regex then
    firstOffset start (if s.g.anchoredStart then 1 else n + 1)
      fun i => gnfaStartLongest s.g s.imap hay i
  else if m = 0 then some (start, start)
  else if n < m then none
  else if s.mode = .fuzzy then
    firstOffset start (n + 1 - m) fun i =>
      if mismatches s.icase s.k 0 (hay.drop i) s.pattern ≤ s.k then some (i + m) else none
  else if !s.icase then
    let aoff := if searchAnchorHistMin ≤ n then offMinByData s.pattern (byteHist hay) else 0
    if n < start + m then none
    else exactScan hay s.pattern aoff (n - m + aoff + 1) (n + 1) (start + aoff)
  else
    firstOffset start (n + 1 - m) fun i =>
      if foldedPrefix true (hay.drop i) s.pattern then some (i + m) else none

def searchFind (s : Search) (hay : List UInt8) : Option (Nat × Nat) := searchFindFrom s hay 0

/-! ## What a match is -/

/-- The number of places where two equally long words differ, up to case. -/
def hamming (icase : Bool) (u v : List UInt8) : Nat :=
  (List.zip u v).countP fun q => fold q.1 icase != fold q.2 icase

/-- A match of a compiled search, on its face. -/
def Search.Match (s : Search) (hay : List UInt8) (st e : Nat) : Prop :=
  match s.mode with
  | .exact => e = st + s.pattern.length ∧ e ≤ hay.length
      ∧ (slice hay st e).map (fold · s.icase) = s.pattern.map (fold · s.icase)
  | .fuzzy => e = st + s.pattern.length ∧ e ≤ hay.length
      ∧ hamming s.icase (slice hay st e) s.pattern ≤ s.k
  | .regex => s.g.Match s.imap hay st e

/-- The least start at or after `from` of a span in `M`, with its greatest
end; `none` when there is no such span. -/
def LeftmostLongest (M : Nat → Nat → Prop) (start : Nat) : Option (Nat × Nat) → Prop
  | none => ∀ st e, start ≤ st → ¬ M st e
  | some (st, e) => start ≤ st ∧ M st e ∧ (∀ st' e', start ≤ st' → M st' e' → st ≤ st')
      ∧ ∀ e', M st e' → e' ≤ e

/-! ## The first offset of a range -/

theorem firstOffset_none {a b : Nat} {f : Nat → Option Nat} :
    firstOffset a b f = none ↔ ∀ i, a ≤ i → i < b → f i = none := by
  rw [firstOffset, List.findSome?_eq_none_iff]
  simp only [List.mem_range'_1, Option.map_eq_none_iff]
  constructor
  · intro h i ha hb
    exact h i ⟨ha, by omega⟩
  · rintro h i ⟨ha, hb⟩
    exact h i ha (by omega)

theorem firstOffset_step {a b : Nat} (hab : a < b) (f : Nat → Option Nat) :
    firstOffset a b f = ((f a).map fun e => (a, e)).or (firstOffset (a + 1) b f) := by
  have hlen : b - a = (b - (a + 1)) + 1 := by omega
  rw [firstOffset, hlen, List.range'_succ, List.findSome?_cons]
  cases f a with
  | none => rfl
  | some e => rfl

theorem firstOffset_skip {b : Nat} {f : Nat → Option Nat} :
    ∀ (n a : Nat), (∀ i, a ≤ i → i < a + n → f i = none) →
      firstOffset a b f = firstOffset (a + n) b f
  | 0, _, _ => rfl
  | n + 1, a, h => by
      by_cases hab : a < b
      · rw [firstOffset_step hab, h a le_rfl (by omega), Option.map_none, Option.none_or,
          firstOffset_skip n (a + 1) fun i h1 h2 => h i (by omega) (by omega)]
        congr 1
        omega
      · rw [firstOffset_none.mpr fun i h1 h2 => by omega,
          firstOffset_none.mpr fun i h1 h2 => by omega]

theorem firstOffset_some {b : Nat} {f : Nat → Option Nat} :
    ∀ (n a i e : Nat), b - a = n → firstOffset a b f = some (i, e) →
      a ≤ i ∧ i < b ∧ f i = some e ∧ ∀ j, a ≤ j → j < i → f j = none
  | 0, a, i, e, hn, h => by
      rw [firstOffset_none.mpr fun i h1 h2 => by omega] at h
      exact absurd h (by simp)
  | n + 1, a, i, e, hn, h => by
      rw [firstOffset_step (by omega)] at h
      cases ha : f a with
      | some e' =>
          rw [ha] at h
          obtain ⟨rfl, rfl⟩ := Prod.mk.inj (Option.some.inj h)
          exact ⟨le_rfl, by omega, ha, fun j h1 h2 => by omega⟩
      | none =>
          rw [ha, Option.map_none, Option.none_or] at h
          obtain ⟨h1, h2, h3, h4⟩ := firstOffset_some n (a + 1) i e (by omega) h
          refine ⟨by omega, h2, h3, fun j hj hji => ?_⟩
          rcases Nat.eq_or_lt_of_le hj with rfl | hlt
          · exact ha
          · exact h4 j hlt hji

/-- The greatest end of a span of `M` from `i`, if there is one. -/
def Longest (M : Nat → Nat → Prop) (i : Nat) : Option Nat → Prop
  | none => ∀ e, ¬ M i e
  | some e => M i e ∧ ∀ e', M i e' → e' ≤ e

/-- A loop that finds the longest span from each offset in turn finds the
leftmost longest one. -/
theorem leftmostLongest_firstOffset {M : Nat → Nat → Prop} {a b : Nat} {f : Nat → Option Nat}
    (hf : ∀ i, a ≤ i → i < b → Longest M i (f i)) (hM : ∀ i e, a ≤ i → M i e → i < b) :
    LeftmostLongest M a (firstOffset a b f) := by
  cases h : firstOffset a b f with
  | none =>
      intro i e ha hm
      have hi := hM i e ha hm
      have hlong := hf i ha hi
      rw [firstOffset_none.mp h i ha hi] at hlong
      exact hlong e hm
  | some r =>
      obtain ⟨i, e⟩ := r
      obtain ⟨ha, hb, hi, hleft⟩ := firstOffset_some _ a i e rfl h
      have hlong := hf i ha hb
      rw [hi] at hlong
      refine ⟨ha, hlong.1, fun j e' hj hm => ?_, hlong.2⟩
      by_contra hlt
      have hjlong := hf j hj (by omega)
      rw [hleft j hj (by omega)] at hjlong
      exact hjlong e' hm

/-! ## Windows against their specification -/

theorem foldedPrefix_iff {icase : Bool} :
    ∀ (hs ps : List UInt8), foldedPrefix icase hs ps = true
      ↔ ps.length ≤ hs.length
        ∧ (hs.take ps.length).map (fold · icase) = ps.map (fold · icase)
  | _, [] => by simp [foldedPrefix]
  | [], _ :: _ => by simp [foldedPrefix]
  | h :: hs, p :: ps => by
      rw [foldedPrefix]
      by_cases hp : fold h icase = fold p icase
      · rw [if_neg (not_not.mpr hp), foldedPrefix_iff hs ps]
        simp [hp]
      · rw [if_pos hp]
        simp [hp]

theorem hamming_cons (icase : Bool) (h p : UInt8) (hs ps : List UInt8) :
    hamming icase (h :: hs) (p :: ps)
      = hamming icase hs ps + if fold h icase = fold p icase then 0 else 1 := by
  rw [hamming, List.zip_cons_cons, List.countP_cons, hamming]
  by_cases hp : fold h icase = fold p icase <;> simp [hp]

theorem mismatches_le_iff {icase : Bool} {k : Nat} :
    ∀ (hs ps : List UInt8) (mism : Nat), ps.length ≤ hs.length → mism ≤ k →
      (mismatches icase k mism hs ps ≤ k ↔ mism + hamming icase hs ps ≤ k)
  | hs, [], mism, _, hm => by
      have hnil : hamming icase hs [] = 0 := by rw [hamming, List.zip_nil_right]; rfl
      rw [mismatches, hnil, Nat.add_zero]
  | [], p :: ps, mism, hl, _ => absurd hl (by simp)
  | h :: hs, p :: ps, mism, hl, hm => by
      have hl' : ps.length ≤ hs.length := by simpa using hl
      rw [mismatches, hamming_cons]
      by_cases hp : fold h icase = fold p icase
      · rw [if_neg (not_not.mpr hp), if_pos hp, mismatches_le_iff hs ps mism hl' hm, Nat.add_zero]
      · rw [if_pos hp, if_neg hp]
        by_cases hk : k < mism + 1
        · rw [if_pos hk]
          omega
        · rw [if_neg hk, mismatches_le_iff hs ps (mism + 1) hl' (by omega)]
          omega

theorem hamming_take (icase : Bool) :
    ∀ u v : List UInt8, hamming icase (u.take v.length) v = hamming icase u v
  | _, [] => by simp [hamming]
  | [], _ :: _ => rfl
  | h :: u, p :: v => by
      rw [List.length_cons, List.take_succ_cons, hamming_cons, hamming_cons, hamming_take icase u v]

theorem slice_add (hay : List UInt8) (i m : Nat) : slice hay i (i + m) = (hay.drop i).take m := by
  rw [slice, Nat.add_sub_cancel_left]

/-! ## The rare-byte scan -/

theorem memchr_none {hay : List UInt8} {p stop : Nat} {c : UInt8} (h : memchr hay p stop c = none) :
    ∀ i, p ≤ i → i < stop → hay[i]? ≠ some c := by
  intro i h1 h2
  rw [memchr, List.find?_eq_none] at h
  have := h i (List.mem_range'_1.mpr ⟨h1, by omega⟩)
  simpa using this

theorem memchr_some {hay : List UInt8} {stop : Nat} {c : UInt8} :
    ∀ (n p hit : Nat), stop - p = n → memchr hay p stop c = some hit →
      p ≤ hit ∧ hit < stop ∧ ∀ i, p ≤ i → i < hit → hay[i]? ≠ some c
  | 0, p, hit, hn, h => by
      rw [memchr, hn] at h
      exact absurd h (by simp)
  | n + 1, p, hit, hn, h => by
      rw [memchr, hn, List.range'_succ, List.find?_cons] at h
      have hn' : stop - (p + 1) = n := by omega
      split at h
      · obtain rfl := Option.some.inj h
        exact ⟨le_rfl, by omega, fun i h1 h2 => by omega⟩
      · rename_i hno
        obtain ⟨h1, h2, h3⟩ := memchr_some n (p + 1) hit hn' (by rw [memchr, hn']; exact h)
        refine ⟨by omega, h2, fun i hi hlt => ?_⟩
        rcases Nat.eq_or_lt_of_le hi with rfl | hgt
        · simpa using hno
        · exact h3 i hgt hlt

/-- A loop that keeps its best offset or takes the one at hand ends with
one of those it saw. -/
theorem foldl_pick {P : Nat → Prop} {f : Nat × Nat → Nat → Nat × Nat}
    (hf : ∀ acc i, (f acc i).1 = acc.1 ∨ (f acc i).1 = i) :
    ∀ (l : List Nat) (acc : Nat × Nat), (∀ i ∈ l, P i) → P acc.1 → P (l.foldl f acc).1
  | [], _, _, hacc => hacc
  | i :: l, acc, hl, hacc => by
      rw [List.foldl_cons]
      refine foldl_pick hf l _ (fun j hj => hl j (List.mem_cons_of_mem i hj)) ?_
      rcases hf acc i with h | h
      · rwa [h]
      · rw [h]
        exact hl i List.mem_cons_self

theorem offMinByData_lt {pat : List UInt8} (hist : UInt8 → Nat) (hne : pat ≠ []) :
    offMinByData pat hist < pat.length := by
  have hpos : 0 < pat.length := List.length_pos_iff.mpr hne
  refine foldl_pick (P := fun i => i < pat.length) ?_ _ _ (fun i hi => ?_) hpos
  · rintro ⟨best, bc⟩ i
    dsimp only
    split
    · exact Or.inr rfl
    · exact Or.inl rfl
  · have := (List.mem_range'_1.mp hi).2
    omega

/-- The test the exact face makes at an offset. -/
def exactAt (hay pat : List UInt8) (i : Nat) : Option Nat :=
  if (hay.drop i).take pat.length = pat then some (i + pat.length) else none

/-- Where the anchor byte is not the pattern's, there is no occurrence. -/
theorem exactAt_none_of_anchor {hay pat : List UInt8} {aoff i : Nat} (ha : aoff < pat.length)
    (h : hay[i + aoff]? ≠ some (pat.getD aoff 0)) : exactAt hay pat i = none := by
  rw [exactAt, if_neg]
  intro heq
  apply h
  have hget : ((hay.drop i).take pat.length)[aoff]? = hay[i + aoff]? := by
    rw [List.getElem?_take_of_lt ha, List.getElem?_drop]
  rw [← hget, heq, List.getElem?_eq_getElem ha, List.getD_eq_getElem?_getD,
    List.getElem?_eq_getElem ha]
  rfl

/-- The memchr loop visits every offset that can hold an occurrence. -/
theorem exactScan_eq {hay pat : List UInt8} {aoff limit : Nat} (ha : aoff < pat.length) :
    ∀ (fuel i : Nat), limit - i ≤ fuel →
      exactScan hay pat aoff (limit + aoff) fuel (i + aoff)
        = firstOffset i limit (exactAt hay pat)
  | 0, i, hf => by
      rw [exactScan, firstOffset_none.mpr fun j h1 h2 => by omega]
  | fuel + 1, i, hf => by
      rw [exactScan]
      by_cases hlt : i < limit
      · rw [if_pos (by omega)]
        cases hm : memchr hay (i + aoff) (limit + aoff) (pat.getD aoff 0) with
        | none =>
            have hnone := memchr_none hm
            refine (firstOffset_none.mpr fun j h1 h2 => ?_).symm
            exact exactAt_none_of_anchor ha (hnone (j + aoff) (by omega) (by omega))
        | some hit =>
            obtain ⟨h1, h2, h3⟩ := memchr_some _ _ hit rfl hm
            have hskip : firstOffset i limit (exactAt hay pat)
                = firstOffset (hit - aoff) limit (exactAt hay pat) := by
              have := firstOffset_skip (b := limit) (f := exactAt hay pat) (hit - aoff - i) i
                fun j hj hji => exactAt_none_of_anchor ha (h3 (j + aoff) (by omega) (by omega))
              rw [this]
              congr 1
              omega
            have hstep := firstOffset_step (a := hit - aoff) (b := limit) (by omega)
              (exactAt hay pat)
            rw [hskip, hstep]
            dsimp only
            by_cases heq : (hay.drop (hit - aoff)).take pat.length = pat
            · rw [if_pos heq, exactAt, if_pos heq]
              rfl
            · have hnext : hit + 1 = (hit - aoff + 1) + aoff := by omega
              rw [if_neg heq, exactAt, if_neg heq, hnext, exactScan_eq ha fuel _ (by omega)]
              rfl
      · rw [if_neg (by omega), firstOffset_none.mpr fun j h1 h2 => by omega]

/-! ## The search, face by face -/

/-- A match of an invalid or empty search never comes up: what
`sublimation_search_compile` guarantees of a valid one. -/
theorem pattern_ne_nil_of_valid {pattern : List UInt8} {flags : SearchFlags} {k : Int}
    (hv : (searchCompile pattern flags k).valid = true)
    (hm : (searchCompile pattern flags k).mode ≠ .regex) :
    (searchCompile pattern flags k).pattern ≠ [] := by
  rw [searchCompile] at hv hm ⊢
  split at hv
  · exact absurd hv Bool.false_ne_true
  rename_i hlen
  rw [if_neg hlen] at hm ⊢
  split at hv
  · rename_i hk
    rw [if_pos hk]
    simpa using hv
  rename_i hk
  rw [if_neg hk] at hm ⊢
  split at hv
  · rename_i hfix
    rw [if_pos hfix]
    simpa using hv
  · rename_i hfix
    rw [if_neg hfix] at hm ⊢
    split at hm
    · exact absurd rfl hm
    · exact absurd rfl hm

theorem longest_fuzzy {s : Search} (hmode : s.mode = .fuzzy) {hay : List UInt8} {i : Nat}
    (hi : i + s.pattern.length ≤ hay.length) :
    Longest (s.Match hay) i (if mismatches s.icase s.k 0 (hay.drop i) s.pattern ≤ s.k
      then some (i + s.pattern.length) else none) := by
  have hM : ∀ e, s.Match hay i e ↔ e = i + s.pattern.length
      ∧ mismatches s.icase s.k 0 (hay.drop i) s.pattern ≤ s.k := by
    intro e
    rw [Search.Match, hmode, mismatches_le_iff _ _ _ (by rw [List.length_drop]; omega)
      (Nat.zero_le _), Nat.zero_add]
    constructor
    · rintro ⟨rfl, -, h⟩
      rw [slice_add, hamming_take] at h
      exact ⟨rfl, h⟩
    · rintro ⟨rfl, h⟩
      refine ⟨rfl, hi, ?_⟩
      rw [slice_add, hamming_take]
      exact h
  split
  · rename_i h
    exact ⟨(hM _).mpr ⟨rfl, h⟩, fun e' he' => ((hM e').mp he').1.le⟩
  · rename_i h
    exact fun e he => h ((hM e).mp he).2

theorem longest_exact {s : Search} (hmode : s.mode = .exact) {hay : List UInt8} {i : Nat}
    (hi : i + s.pattern.length ≤ hay.length) :
    Longest (s.Match hay) i (if foldedPrefix s.icase (hay.drop i) s.pattern
      then some (i + s.pattern.length) else none) := by
  have hM : ∀ e, s.Match hay i e ↔ e = i + s.pattern.length
      ∧ foldedPrefix s.icase (hay.drop i) s.pattern = true := by
    intro e
    rw [Search.Match, hmode, foldedPrefix_iff]
    constructor
    · rintro ⟨rfl, -, h⟩
      rw [slice_add] at h
      exact ⟨rfl, by rw [List.length_drop]; omega, h⟩
    · rintro ⟨rfl, -, h⟩
      refine ⟨rfl, hi, ?_⟩
      rw [slice_add]
      exact h
  split
  · rename_i h
    exact ⟨(hM _).mpr ⟨rfl, h⟩, fun e' he' => ((hM e').mp he').1.le⟩
  · rename_i h
    exact fun e he => h ((hM e).mp he).2

theorem exactAt_eq (hay pat : List UInt8) (i : Nat) (hi : i + pat.length ≤ hay.length) :
    exactAt hay pat i
      = if foldedPrefix false (hay.drop i) pat then some (i + pat.length) else none := by
  have hid : ∀ l : List UInt8, l.map (fold · false) = l := fun l => by simp [fold]
  have hcond : foldedPrefix false (hay.drop i) pat = true
      ↔ (hay.drop i).take pat.length = pat := by
    rw [foldedPrefix_iff, hid, hid]
    refine and_iff_right ?_
    rw [List.length_drop]
    omega
  rw [exactAt]
  by_cases h : (hay.drop i).take pat.length = pat
  · rw [if_pos h, if_pos (hcond.mpr h)]
  · rw [if_neg h, if_neg (mt hcond.mp h)]

theorem match_window {s : Search} (hmode : s.mode ≠ .regex) {hay : List UInt8} {i e : Nat}
    (h : s.Match hay i e) : i < hay.length + 1 - s.pattern.length := by
  have hwin : e = i + s.pattern.length ∧ e ≤ hay.length := by
    rw [Search.Match] at h
    cases hm : s.mode with
    | exact => rw [hm] at h; exact ⟨h.1, h.2.1⟩
    | fuzzy => rw [hm] at h; exact ⟨h.1, h.2.1⟩
    | regex => exact absurd hm hmode
  omega

theorem match_bound {s : Search} {hay : List UInt8} {i e : Nat} (h : s.Match hay i e) :
    i ≤ e ∧ e ≤ hay.length := by
  rw [Search.Match] at h
  cases hm : s.mode with
  | exact =>
      rw [hm] at h
      exact ⟨by have := h.1; omega, h.2.1⟩
  | fuzzy =>
      rw [hm] at h
      exact ⟨by have := h.1; omega, h.2.1⟩
  | regex =>
      rw [hm] at h
      exact ⟨h.le, h.bound⟩

theorem longest_regex {s : Search} (hmode : s.mode = .regex) {hay : List UInt8} {i : Nat}
    (hi : i ≤ hay.length) (hs : s.g.anchoredStart = true → i = 0) :
    Longest (s.Match hay) i (gnfaStartLongest s.g s.imap hay i) := by
  have hM : ∀ e, s.Match hay i e ↔ s.g.EndAt s.imap hay i e := by
    intro e
    rw [Search.Match, hmode]
    exact ⟨fun h => ⟨h.le, h.bound, h.stop, h.full⟩, fun h => ⟨h.le, h.bound, hs, h.stop, h.full⟩⟩
  obtain ⟨hge, hend⟩ := gnfaStartLongest_spec (g := s.g) (I := s.imap) hi
  cases h : gnfaStartLongest s.g s.imap hay i with
  | none =>
      intro e he
      obtain ⟨b, hb, -⟩ := hge e ((hM e).mp he)
      rw [h] at hb
      exact absurd hb (by simp)
  | some b =>
      refine ⟨(hM b).mpr (hend b h), fun e he => ?_⟩
      obtain ⟨b', hb', hle⟩ := hge e ((hM e).mp he)
      obtain rfl := Option.some.inj (h.symm.trans hb')
      exact hle

theorem searchFindFrom_regex {s : Search} (hmode : s.mode = .regex) (hay : List UInt8)
    (start : Nat) :
    LeftmostLongest (s.Match hay) start
      (firstOffset start (if s.g.anchoredStart then 1 else hay.length + 1)
        fun i => gnfaStartLongest s.g s.imap hay i) := by
  refine leftmostLongest_firstOffset (fun i _ hi => ?_) (fun i e _ hm => ?_)
  · cases hS : s.g.anchoredStart with
    | true =>
        rw [hS, if_pos rfl] at hi
        obtain rfl : i = 0 := by omega
        exact longest_regex hmode (Nat.zero_le _) fun _ => rfl
    | false =>
        rw [hS, if_neg Bool.false_ne_true] at hi
        exact longest_regex hmode (by omega) fun h => absurd (hS ▸ h) Bool.false_ne_true
  · have hb := match_bound hm
    split
    · rename_i hS
      rw [Search.Match, hmode] at hm
      rw [hm.start hS]
      exact Nat.one_pos
    · omega

theorem searchFindFrom_fuzzy {s : Search} (hmode : s.mode = .fuzzy) (hay : List UInt8)
    (start : Nat) :
    LeftmostLongest (s.Match hay) start
      (firstOffset start (hay.length + 1 - s.pattern.length) fun i =>
        if mismatches s.icase s.k 0 (hay.drop i) s.pattern ≤ s.k
          then some (i + s.pattern.length) else none) :=
  leftmostLongest_firstOffset (fun i _ hi => longest_fuzzy hmode (by omega))
    fun i e _ hm => match_window (by rw [hmode]; exact Mode.noConfusion) hm

theorem searchFindFrom_exact {s : Search} (hmode : s.mode = .exact) (hay : List UInt8)
    (start : Nat) :
    LeftmostLongest (s.Match hay) start
      (firstOffset start (hay.length + 1 - s.pattern.length) fun i =>
        if foldedPrefix s.icase (hay.drop i) s.pattern
          then some (i + s.pattern.length) else none) :=
  leftmostLongest_firstOffset (fun i _ hi => longest_exact hmode (by omega))
    fun i e _ hm => match_window (by rw [hmode]; exact Mode.noConfusion) hm

/-- The rare-byte scan of the exact face, anchored anywhere in the pattern. -/
theorem searchFindFrom_anchor {s : Search} (hmode : s.mode = .exact) (hic : s.icase = false)
    {hay : List UInt8} {start aoff : Nat} (hm : s.pattern.length ≤ hay.length)
    (ha : aoff < s.pattern.length) :
    LeftmostLongest (s.Match hay) start
      (exactScan hay s.pattern aoff (hay.length - s.pattern.length + aoff + 1) (hay.length + 1)
        (start + aoff)) := by
  have hstop : hay.length - s.pattern.length + aoff + 1
      = (hay.length + 1 - s.pattern.length) + aoff := by omega
  rw [hstop, exactScan_eq ha _ _ (by omega)]
  refine leftmostLongest_firstOffset (fun i _ hi => ?_)
    fun i e _ hm => match_window (by rw [hmode]; exact Mode.noConfusion) hm
  rw [exactAt_eq hay s.pattern i (by omega)]
  have hi' : i + s.pattern.length ≤ hay.length := by omega
  have hlong := longest_exact hmode hi'
  rwa [hic] at hlong

/-- **The search** reports the leftmost match at or after an offset, with
its greatest end. -/
theorem searchFindFrom_leftmost {s : Search} (hv : s.valid = true)
    (hne : s.mode ≠ .regex → s.pattern ≠ []) (hay : List UInt8) (start : Nat) :
    LeftmostLongest (s.Match hay) start (searchFindFrom s hay start) := by
  rw [searchFindFrom]
  dsimp only
  by_cases hfar : hay.length < start
  · rw [if_pos (by simp [hfar])]
    intro st e hst hm
    have := match_bound hm
    omega
  rw [if_neg (by simp [hv, hfar])]
  by_cases hre : s.mode = .regex
  · rw [if_pos hre]
    exact searchFindFrom_regex hre hay start
  rw [if_neg hre, if_neg fun h => hne hre (List.length_eq_zero_iff.mp h)]
  by_cases hshort : hay.length < s.pattern.length
  · rw [if_pos hshort]
    intro st e _ hm
    have := match_window hre hm
    omega
  rw [if_neg hshort]
  by_cases hfz : s.mode = .fuzzy
  · rw [if_pos hfz]
    exact searchFindFrom_fuzzy hfz hay start
  rw [if_neg hfz]
  have hex : s.mode = .exact := by
    cases hm : s.mode with
    | exact => rfl
    | regex => exact absurd hm hre
    | fuzzy => exact absurd hm hfz
  cases hic : s.icase with
  | true =>
      rw [if_neg (by simp)]
      have := searchFindFrom_exact hex hay start
      rwa [hic] at this
  | false =>
      rw [if_pos (by simp)]
      by_cases hroom : hay.length < start + s.pattern.length
      · rw [if_pos hroom]
        intro st e hst hm
        have := match_window hre hm
        omega
      · rw [if_neg hroom]
        refine searchFindFrom_anchor hex hic (Nat.not_lt.mp hshort) ?_
        split
        · exact offMinByData_lt _ (hne hre)
        · exact List.length_pos_iff.mpr (hne hre)

/-- The whole-input match is a match from the first byte to the last. -/
theorem searchFullMatch_iff {s : Search} (hv : s.valid = true) (hay : List UInt8) :
    searchFullMatch s hay = true ↔ s.Match hay 0 hay.length := by
  have hslice : slice hay 0 hay.length = hay := by simp [slice]
  have hnv : ¬ (!s.valid) = true := by simp [hv]
  rw [searchFullMatch, if_neg hnv, Search.Match]
  cases hm : s.mode with
  | regex =>
      dsimp only
      constructor
      · intro h
        exact ⟨Nat.zero_le _, le_rfl, fun _ => rfl, fun _ => rfl, by rw [hslice]; exact h⟩
      · intro h
        have := h.full
        rwa [hslice] at this
  | exact =>
      dsimp only
      rw [hslice, Nat.zero_add]
      by_cases hlen : hay.length = s.pattern.length
      · rw [if_neg (not_not.mpr hlen), foldedPrefix_iff, List.take_of_length_le hlen.le]
        exact ⟨fun h => ⟨hlen, le_rfl, h.2⟩, fun h => ⟨hlen.ge, h.2.2⟩⟩
      · rw [if_pos hlen]
        exact iff_of_false Bool.false_ne_true fun h => hlen h.1
  | fuzzy =>
      dsimp only
      rw [hslice, Nat.zero_add]
      by_cases hlen : hay.length = s.pattern.length
      · rw [if_neg (not_not.mpr hlen), decide_eq_true_eq,
          mismatches_le_iff _ _ _ hlen.ge (Nat.zero_le _), Nat.zero_add]
        exact ⟨fun h => ⟨hlen, le_rfl, h⟩, fun h => h.2.2⟩
      · rw [if_pos hlen]
        exact iff_of_false Bool.false_ne_true fun h => hlen h.1

/-- **Leftmost-longest search, on every face**: for every valid compiled
search, every input and every offset. -/
theorem searchFindFrom_spec {pattern : List UInt8} {flags : SearchFlags} {k : Int}
    (hv : (searchCompile pattern flags k).valid = true) (hay : List UInt8) (start : Nat) :
    LeftmostLongest ((searchCompile pattern flags k).Match hay) start
      (searchFindFrom (searchCompile pattern flags k) hay start) :=
  searchFindFrom_leftmost hv (pattern_ne_nil_of_valid hv) hay start

/-- `a+` on `xaab`. -/
theorem searchFindFrom_spec_plus :
    (searchCompile [0x61, 0x2b] ⟨false, false⟩ 0).valid = true
      ∧ LeftmostLongest ((searchCompile [0x61, 0x2b] ⟨false, false⟩ 0).Match
          [0x78, 0x61, 0x61, 0x62]) 0
          (searchFindFrom (searchCompile [0x61, 0x2b] ⟨false, false⟩ 0) [0x78, 0x61, 0x61, 0x62] 0) :=
  ⟨by decide +kernel, searchFindFrom_spec (by decide +kernel) _ 0⟩

example : searchFindFrom (searchCompile [0x61, 0x2b] ⟨false, false⟩ 0)
    [0x78, 0x61, 0x61, 0x62] 0 = some (1, 3) := by decide +kernel

end Montauk
