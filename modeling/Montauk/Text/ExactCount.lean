import Montauk.Text.Match

/-!
# Counting occurrences on the exact face

`exact_count` picks one of three scans by the bytes of the pattern and a
sampled histogram of the input: Boyer-Moore-Horspool, one anchor byte, or
two. Every read of the input is checked here: a scan that reads past the
end, or does not end within a round for each byte, has no value.

The two anchor scans are the same walk over the hits of a byte, so
`eachHit_eq` says once what such a walk visits; the skip table has one
lemma, `skipTable_le`, that makes a jump safe.
-/

namespace Montauk

/-! ## The scans -/

/-- The loop of `byte_hist`. -/
def histLoop (hay : List UInt8) : Nat → Nat → (UInt8 → Nat) → Option (UInt8 → Nat)
  | 0, _, hist => some hist
  | n + 1, i, hist => do
      let c ← hay[i]?
      histLoop hay n (i + 1) (Function.update hist c (hist c + 1))

/-- `n < (1u << 18) ? n : (1u << 18)`. -/
def sampleSize (n : Nat) : Nat := if n < 2 ^ 18 then n else 2 ^ 18

/-- `byte_hist`, with its reads. -/
def sampleHist (hay : List UInt8) : Option (UInt8 → Nat) :=
  histLoop hay (sampleSize hay.length) 0 fun _ => 0

/-- `anchor_t`. -/
structure Anchor where
  byte : UInt8
  off : Nat

/-- `memchr(hay + p, c, n - p)`. Past the end the length wraps around. -/
def memchrEnd (hay : List UInt8) (p : Nat) (c : UInt8) : Option (Option Nat) :=
  if p ≤ hay.length then some (memchr hay p hay.length c) else none

/-- `memcmp(hay + i, pat, m) == 0`. -/
def memcmpEq (hay pat : List UInt8) (i : Nat) : Option Bool :=
  if i + pat.length ≤ hay.length then some (slice hay i (i + pat.length) == pat) else none

/-- The loop of the anchor scans: `p` moves behind each hit of the byte. At
`p = end` the search finds nothing, so the guard of the `for` is not
needed. -/
def eachHit {σ : Type} (hay : List UInt8) (c : UInt8) (body : σ → Nat → Option σ) :
    Nat → Nat → σ → Option σ
  | 0, _, _ => none
  | fuel + 1, p, s => do
      match ← memchrEnd hay p c with
      | none => some s
      | some hit => eachHit hay c body fuel (hit + 1) (← body s hit)

/-- The body of `scan_anchor` at a hit `j`. -/
def anchorHit (hay pat : List UInt8) (a : Anchor) (count j : Nat) : Option Nat := do
  if a.off ≤ j ∧ j - a.off + pat.length ≤ hay.length then
    if ← memcmpEq hay pat (j - a.off) then some (count + 1) else some count
  else some count

def scanAnchor (hay pat : List UInt8) (a : Anchor) : Option Nat :=
  if pat.length = 0 ∨ hay.length < pat.length then some 0
  else eachHit hay a.byte (anchorHit hay pat a) (hay.length + 1) a.off 0

/-- The body of `scan_anchor2` at a hit `j` of the first anchor. -/
def anchorHit2 (hay pat : List UInt8) (a b : Anchor) (count j : Nat) : Option Nat := do
  if a.off ≤ j ∧ j - a.off + pat.length ≤ hay.length then
    let start := j - a.off
    if (← hay[start + b.off]?) = b.byte then
      if ← memcmpEq hay pat start then some (count + 1) else some count
    else some count
  else some count

def scanAnchor2 (hay pat : List UInt8) (a b : Anchor) : Option Nat :=
  if pat.length = 0 ∨ hay.length < pat.length then some 0
  else eachHit hay a.byte (anchorHit2 hay pat a b) (hay.length + 1) a.off 0

/-- The bad-character table of `scan_bmh`. -/
def skipTable (pat : List UInt8) : UInt8 → Nat :=
  (List.range (pat.length - 1)).foldl
    (fun skip i => Function.update skip (pat.getD i 0) (pat.length - 1 - i)) fun _ => pat.length

/-- The `while` of `scan_bmh`. -/
def bmhLoop (hay pat : List UInt8) (skip : UInt8 → Nat) : Nat → Nat → Nat → Option Nat
  | 0, _, _ => none
  | fuel + 1, i, count => do
      if i + pat.length ≤ hay.length then
        let hit ← memcmpEq hay pat i
        let c ← hay[i + pat.length - 1]?
        bmhLoop hay pat skip fuel (i + skip c) (if hit then count + 1 else count)
      else some count

def scanBmh (hay pat : List UInt8) : Option Nat :=
  if pat.length = 0 ∨ hay.length < pat.length then some 0
  else bmhLoop hay pat (skipTable pat) (hay.length + 1) 0 0

/-- `i > avoid ? i - avoid : avoid - i`. -/
def apart (i avoid : Nat) : Nat := if avoid < i then i - avoid else avoid - i

/-- `off_second_by_data`: the rarest byte at least two places from the
first anchor. -/
def offSecondByData (pat : List UInt8) (avoid : Nat) (hist : UInt8 → Nat) : Nat :=
  ((List.range pat.length).foldl
    (fun (best, bc) i =>
      if apart i avoid < 2 then (best, bc)
      else if hist (pat.getD i 0) < bc then (i, hist (pat.getD i 0)) else (best, bc))
    (avoid, 0xffffffff)).1

def exactCount (hay pat : List UInt8) : Option Nat := do
  if pat.length = 0 ∨ hay.length < pat.length then some 0
  else
    let hist ← sampleHist hay
    let rare := sampleSize hay.length / 32
    let o1 := offMinByData pat hist
    if rare < hist (pat.getD o1 0) then scanBmh hay pat
    else
      let o2 := offSecondByData pat o1 hist
      if o2 ≠ o1 ∧ hist (pat.getD o2 0) ≤ rare then
        scanAnchor2 hay pat ⟨pat.getD o1 0, o1⟩ ⟨pat.getD o2 0, o2⟩
      else scanAnchor hay pat ⟨pat.getD o1 0, o1⟩

/-- The number of offsets where the pattern occurs, overlapping ones
included. -/
def occurrences (hay pat : List UInt8) : Nat :=
  (List.range (hay.length + 1)).countP fun i => slice hay i (i + pat.length) == pat

/-! ## The sampled histogram -/

theorem histLoop_eq {hay : List UInt8} :
    ∀ (n i : Nat) (hist : UInt8 → Nat), i + n ≤ hay.length →
      histLoop hay n i hist = some fun c => hist c + (slice hay i (i + n)).count c
  | 0, i, hist, _ => by simp [histLoop, slice]
  | n + 1, i, hist, h => by
      have hi : i < hay.length := by omega
      have hcons : slice hay i (i + (n + 1)) = hay[i] :: slice hay (i + 1) (i + 1 + n) := by
        rw [slice_add, slice_add, List.drop_eq_getElem_cons hi, List.take_succ_cons]
      rw [histLoop, List.getElem?_eq_getElem hi, Option.bind_eq_bind, Option.bind_some,
        histLoop_eq n (i + 1) _ (by omega), hcons]
      congr 1
      funext c
      rw [List.count_cons, Function.update_apply]
      by_cases hc : c = hay[i]
      · rw [if_pos hc, hc, beq_self_eq_true, if_pos rfl]
        omega
      · rw [if_neg hc, if_neg (by simpa using Ne.symm hc)]
        rfl

theorem sampleHist_eq (hay : List UInt8) : sampleHist hay = some (byteHist hay) := by
  have hlen : sampleSize hay.length = min (2 ^ 18) hay.length := by
    rw [sampleSize]
    split <;> omega
  rw [sampleHist, histLoop_eq _ _ _ (by rw [hlen]; omega), hlen]
  congr 1
  funext c
  rw [byteHist, slice_add, List.drop_zero, ← List.take_eq_take_min, Nat.zero_add]

/-! ## The walk over the hits of a byte -/

/-- The offsets from `p` on where `c` stands. -/
def hits (hay : List UInt8) (p : Nat) (c : UInt8) : List Nat :=
  (List.range' p (hay.length - p)).filter fun i => hay[i]? == some c

theorem hits_step {hay : List UInt8} {p : Nat} (hp : p < hay.length) (c : UInt8) :
    hits hay p c = if hay[p]? == some c then p :: hits hay (p + 1) c else hits hay (p + 1) c := by
  have hlen : hay.length - p = (hay.length - (p + 1)) + 1 := by omega
  rw [hits, hlen, List.range'_succ, List.filter_cons, hits]

theorem hits_skip {hay : List UInt8} {c : UInt8} :
    ∀ (d p : Nat), p + d ≤ hay.length → (∀ i, p ≤ i → i < p + d → hay[i]? ≠ some c) →
      hits hay p c = hits hay (p + d) c
  | 0, _, _, _ => rfl
  | d + 1, p, h, hno => by
      rw [hits_step (by omega), if_neg (by simpa using hno p le_rfl (by omega)),
        hits_skip d (p + 1) (by omega) fun i h1 h2 => hno i (by omega) (by omega)]
      congr 1
      omega

theorem memchr_hits {hay : List UInt8} {p : Nat} (hp : p ≤ hay.length) (c : UInt8) :
    hits hay p c = ((memchr hay p hay.length c).map fun hit => hit :: hits hay (hit + 1) c).getD []
      := by
  cases hm : memchr hay p hay.length c with
  | none =>
      have hno := memchr_none hm
      rw [hits_skip (hay.length - p) p (by omega) fun i h1 h2 => hno i h1 (by omega), hits]
      simp [Nat.add_sub_cancel' hp]
  | some hit =>
      obtain ⟨h1, h2, h3⟩ := memchr_some _ _ hit rfl hm
      have hget : hay[hit]? = some c := by
        have := List.find?_some hm
        simpa using this
      rw [hits_skip (hit - p) p (by omega) fun i hi hlt => h3 i hi (by omega),
        Nat.add_sub_cancel' h1, hits_step h2, if_pos (by simpa using hget)]
      rfl

theorem eachHit_eq {σ : Type} {hay : List UInt8} {c : UInt8} {body : σ → Nat → Option σ} :
    ∀ (fuel p : Nat) (s : σ), hay.length < p + fuel → p ≤ hay.length →
      eachHit hay c body fuel p s = (hits hay p c).foldlM body s
  | 0, p, s, hf, hp => by omega
  | fuel + 1, p, s, hf, hp => by
      rw [eachHit, memchrEnd, if_pos hp, Option.bind_eq_bind, Option.bind_some, memchr_hits hp]
      cases hm : memchr hay p hay.length c with
      | none => rfl
      | some hit =>
          obtain ⟨h1, h2, -⟩ := memchr_some _ _ hit rfl hm
          rw [Option.map_some, Option.getD_some, List.foldlM_cons]
          refine congrArg ((body s hit).bind ·) ?_
          funext s'
          exact eachHit_eq fuel (hit + 1) s' (by omega) (by omega)

theorem foldlM_count {β : Type} {P : β → Bool} {body : Nat → β → Option Nat} :
    ∀ (l : List β) (n : Nat),
      (∀ x ∈ l, ∀ n, body n x = some (if P x then n + 1 else n)) →
      l.foldlM body n = some (n + l.countP P)
  | [], n, _ => by simp
  | x :: l, n, h => by
      rw [List.foldlM_cons, h x List.mem_cons_self, Option.bind_eq_bind, Option.bind_some,
        foldlM_count l _ fun y hy => h y (List.mem_cons_of_mem x hy), List.countP_cons]
      split
      · rw [Nat.add_assoc, Nat.add_comm 1]
      · rw [Nat.add_zero]

/-! ## Occurrences -/

theorem slice_eq_bound {hay pat : List UInt8} {i : Nat} (hne : pat ≠ [])
    (h : slice hay i (i + pat.length) = pat) : i + pat.length ≤ hay.length := by
  have hlen := congrArg List.length h
  have hpos := List.length_pos_iff.mpr hne
  rw [slice_add, List.length_take, List.length_drop] at hlen
  omega

theorem getElem?_of_slice {hay pat : List UInt8} {i d : Nat} (hd : d < pat.length)
    (h : slice hay i (i + pat.length) = pat) : hay[i + d]? = some (pat.getD d 0) := by
  have hget : (slice hay i (i + pat.length))[d]? = hay[i + d]? := by
    rw [slice_add, List.getElem?_take_of_lt hd, List.getElem?_drop]
  rw [← hget, h, List.getElem?_eq_getElem hd, List.getD_eq_getElem?_getD,
    List.getElem?_eq_getElem hd]
  rfl

/-- Occurrences that start at `i` or behind it. -/
def occurrencesFrom (hay pat : List UInt8) (i : Nat) : Nat :=
  (List.range' i (hay.length + 1 - i)).countP fun i => slice hay i (i + pat.length) == pat

theorem occurrencesFrom_zero (hay pat : List UInt8) :
    occurrencesFrom hay pat 0 = occurrences hay pat := by
  rw [occurrencesFrom, occurrences, List.range_eq_range', Nat.sub_zero]

theorem occurrencesFrom_end {hay pat : List UInt8} {i : Nat} (hne : pat ≠ [])
    (hi : hay.length < i + pat.length) : occurrencesFrom hay pat i = 0 := by
  rw [occurrencesFrom, List.countP_eq_zero]
  intro j hj hocc
  have := slice_eq_bound hne (by simpa using hocc)
  rw [List.mem_range'_1] at hj
  omega

theorem occurrencesFrom_step {hay pat : List UInt8} {i : Nat} (hi : i ≤ hay.length) :
    occurrencesFrom hay pat i
      = (if slice hay i (i + pat.length) == pat then 1 else 0) + occurrencesFrom hay pat (i + 1) := by
  have hlen : hay.length + 1 - i = (hay.length + 1 - (i + 1)) + 1 := by omega
  rw [occurrencesFrom, hlen, List.range'_succ, List.countP_cons, occurrencesFrom, Nat.add_comm]

/-- Offsets without an occurrence can be skipped. -/
theorem occurrencesFrom_skip {hay pat : List UInt8} :
    ∀ (d i : Nat), i + d ≤ hay.length + 1 →
      (∀ j, i ≤ j → j < i + d → slice hay j (j + pat.length) ≠ pat) →
      occurrencesFrom hay pat i = occurrencesFrom hay pat (i + d)
  | 0, _, _, _ => rfl
  | d + 1, i, h, hno => by
      have hfirst := hno i le_rfl (by omega)
      rw [occurrencesFrom_step (by omega), if_neg (by simpa using hfirst), Nat.zero_add,
        occurrencesFrom_skip d (i + 1) (by omega) fun j h1 h2 => hno j (by omega) (by omega)]
      congr 1
      omega

/-! ## The anchor scans -/

/-- A walk over the hits of a pattern byte meets every occurrence once. -/
theorem countP_hits {hay pat : List UInt8} {off : Nat} (hoff : off < pat.length)
    (hle : pat.length ≤ hay.length) {P : Nat → Bool}
    (hP : ∀ j, off ≤ j → hay[j]? = some (pat.getD off 0) →
      P j = (slice hay (j - off) (j - off + pat.length) == pat)) :
    (hits hay off (pat.getD off 0)).countP P = occurrences hay pat := by
  have hne : pat ≠ [] := List.length_pos_iff.mp (by omega)
  have hmap : List.range' off (hay.length - off)
      = (List.range (hay.length - off)).map (off + ·) := by
    rw [List.range_eq_range', List.map_add_range', Nat.add_zero]
  have hcut : List.range (hay.length + 1)
      = List.range (hay.length - off) ++ List.range' (hay.length - off) (off + 1) := by
    have happ : List.range' 0 (hay.length - off) ++ List.range' (0 + (hay.length - off)) (off + 1)
        = List.range' 0 (hay.length - off + (off + 1)) := List.range'_append_1
    rw [Nat.zero_add] at happ
    rw [List.range_eq_range', List.range_eq_range', happ]
    congr 1
    omega
  have htail : (List.range' (hay.length - off) (off + 1)).countP
      (fun i => slice hay i (i + pat.length) == pat) = 0 := by
    rw [List.countP_eq_zero]
    intro i hi hocc
    have := slice_eq_bound hne (by simpa using hocc)
    rw [List.mem_range'_1] at hi
    omega
  rw [hits, List.countP_filter, hmap, List.countP_map, occurrences, hcut, List.countP_append,
    htail, Nat.add_zero]
  refine List.countP_congr fun i _ => ?_
  rw [Function.comp_apply, Bool.and_eq_true, beq_iff_eq]
  constructor
  · rintro ⟨hp, hget⟩
    rwa [hP _ (by omega) hget, Nat.add_sub_cancel_left] at hp
  · intro hocc
    have hget := getElem?_of_slice hoff (by simpa using hocc)
    rw [Nat.add_comm] at hget
    exact ⟨by rwa [hP _ (by omega) hget, Nat.add_sub_cancel_left], hget⟩

/-- A scan for the anchor whose body counts the occurrences that the hits belong
to counts them all. -/
theorem eachHit_count {hay pat : List UInt8} {off : Nat} (hoff : off < pat.length) {body : Nat → Nat → Option Nat}
    (hbody : ∀ j n, off ≤ j → body n j = some (if slice hay (j - off) (j - off + pat.length) == pat then n + 1 else n)) :
    (if pat.length = 0 ∨ hay.length < pat.length then some 0
      else eachHit hay (pat.getD off 0) body (hay.length + 1) off 0) = some (occurrences hay pat) := by
  have hne : pat ≠ [] := List.length_pos_iff.mp (by omega)
  by_cases hshort : hay.length < pat.length
  · rw [if_pos (Or.inr hshort), ← occurrencesFrom_zero, occurrencesFrom_end hne (by omega)]
  rw [if_neg (by omega), eachHit_eq _ _ _ (by omega) (by omega),
    foldlM_count (P := fun j => slice hay (j - off) (j - off + pat.length) == pat), Nat.zero_add,
    countP_hits hoff (by omega) fun _ _ _ => rfl]
  intro j hj n
  exact hbody j n (List.mem_range'_1.mp (List.mem_filter.mp hj).1).1

theorem scanAnchor_eq {hay pat : List UInt8} {off : Nat} (hoff : off < pat.length) :
    scanAnchor hay pat ⟨pat.getD off 0, off⟩ = some (occurrences hay pat) := by
  have hne : pat ≠ [] := List.length_pos_iff.mp (by omega)
  refine eachHit_count hoff fun j n hge => ?_
  rw [anchorHit]
  dsimp only
  by_cases hroom : j - off + pat.length ≤ hay.length
  · rw [if_pos ⟨hge, hroom⟩, memcmpEq, if_pos hroom]
    dsimp only [Option.bind_eq_bind, Option.bind_some]
    split <;> rfl
  · rw [if_neg fun h => hroom h.2, if_neg]
    intro hocc
    exact hroom (slice_eq_bound hne (by simpa using hocc))

theorem scanAnchor2_eq {hay pat : List UInt8} {off off2 : Nat} (hoff : off < pat.length)
    (hoff2 : off2 < pat.length) :
    scanAnchor2 hay pat ⟨pat.getD off 0, off⟩ ⟨pat.getD off2 0, off2⟩
      = some (occurrences hay pat) := by
  have hne : pat ≠ [] := List.length_pos_iff.mp (by omega)
  refine eachHit_count hoff fun j n hge => ?_
  rw [anchorHit2]
  dsimp only
  by_cases hroom : j - off + pat.length ≤ hay.length
  · have hget : hay[j - off + off2]? = some (hay.getD (j - off + off2) 0) := by
      rw [List.getD_eq_getElem?_getD, List.getElem?_eq_getElem (by omega)]
      rfl
    rw [if_pos ⟨hge, hroom⟩, hget, memcmpEq, if_pos hroom]
    dsimp only [Option.bind_eq_bind, Option.bind_some]
    by_cases hsecond : hay.getD (j - off + off2) 0 = pat.getD off2 0
    · rw [if_pos hsecond]
      split <;> rfl
    · -- the second anchor fails, so the window is no occurrence
      rw [if_neg hsecond, if_neg]
      intro hocc
      have := getElem?_of_slice hoff2 (by simpa using hocc)
      rw [hget] at this
      exact hsecond (Option.some.inj this)
  · rw [if_neg fun h => hroom h.2, if_neg]
    intro hocc
    exact hroom (slice_eq_bound hne (by simpa using hocc))

/-! ## The skip table -/

/-- Every entry is a positive jump, at most the whole pattern, and no
longer than the distance of an inner pattern byte from the last. -/
theorem skipTable_le {pat : List UInt8} (hne : pat ≠ []) (c : UInt8) :
    0 < skipTable pat c ∧ skipTable pat c ≤ pat.length
      ∧ ∀ i, i + 1 < pat.length → pat.getD i 0 = c → skipTable pat c ≤ pat.length - 1 - i := by
  have hpos := List.length_pos_iff.mpr hne
  have hloop : ∀ n, n ≤ pat.length - 1 →
      0 < ((List.range n).foldl (fun skip i => Function.update skip (pat.getD i 0)
          (pat.length - 1 - i)) fun _ => pat.length) c
        ∧ ((List.range n).foldl (fun skip i => Function.update skip (pat.getD i 0)
          (pat.length - 1 - i)) fun _ => pat.length) c ≤ pat.length
        ∧ ∀ i, i < n → pat.getD i 0 = c →
          ((List.range n).foldl (fun skip i => Function.update skip (pat.getD i 0)
            (pat.length - 1 - i)) fun _ => pat.length) c ≤ pat.length - 1 - i := by
    intro n
    induction n with
    | zero => exact fun _ => ⟨hpos, le_rfl, fun i hi => absurd hi (Nat.not_lt_zero i)⟩
    | succ n ih =>
        intro hn
        obtain ⟨h1, h2, h3⟩ := ih (by omega)
        rw [List.range_succ, List.foldl_append, List.foldl_cons, List.foldl_nil,
          Function.update_apply]
        by_cases hc : c = pat.getD n 0
        · rw [if_pos hc]
          exact ⟨by omega, by omega, fun i hi _ => by omega⟩
        · rw [if_neg hc]
          refine ⟨h1, h2, fun i hi hic => ?_⟩
          rcases Nat.lt_succ_iff_lt_or_eq.mp hi with hlt | rfl
          · exact h3 i hlt hic
          · exact absurd hic.symm hc
  obtain ⟨h1, h2, h3⟩ := hloop (pat.length - 1) le_rfl
  exact ⟨h1, h2, fun i hi hic => h3 i (by omega) hic⟩

/-- **A jump is safe**: no occurrence starts between a window and the next
one. -/
theorem no_occurrence_skipped {hay pat : List UInt8} {i j : Nat} {c : UInt8} (hne : pat ≠ [])
    (hc : hay[i + pat.length - 1]? = some c) (hi : i < j) (hj : j < i + skipTable pat c) :
    slice hay j (j + pat.length) ≠ pat := by
  intro hocc
  obtain ⟨-, hle, hdist⟩ := skipTable_le hne c
  -- the window's last byte is the pattern's byte at `m - 1 - (j - i)`
  have hlast : j + (pat.length - 1 - (j - i)) = i + pat.length - 1 := by omega
  have hget := getElem?_of_slice (d := pat.length - 1 - (j - i)) (by omega) hocc
  rw [hlast, hc] at hget
  have := hdist (pat.length - 1 - (j - i)) (by omega) (Option.some.inj hget).symm
  omega

theorem bmhLoop_eq {hay pat : List UInt8} (hne : pat ≠ []) :
    ∀ (fuel i count : Nat), hay.length ≤ i + fuel →
      bmhLoop hay pat (skipTable pat) (fuel + 1) i count
        = some (count + occurrencesFrom hay pat i) := by
  have hpos := List.length_pos_iff.mpr hne
  intro fuel
  induction fuel with
  | zero =>
      intro i count hf
      rw [bmhLoop, if_neg (by omega), occurrencesFrom_end hne (by omega), Nat.add_zero]
  | succ fuel ih =>
      intro i count hf
      rw [bmhLoop]
      by_cases hroom : i + pat.length ≤ hay.length
      · have hin : i + pat.length - 1 < hay.length := by omega
        have hget := List.getElem?_eq_getElem hin
        obtain ⟨hs1, hs2, -⟩ := skipTable_le hne hay[i + pat.length - 1]
        have hskip := occurrencesFrom_skip (skipTable pat hay[i + pat.length - 1] - 1) (i + 1)
          (by omega) fun j h1 h2 => no_occurrence_skipped hne hget (by omega) (by omega)
        have hnext : i + 1 + (skipTable pat hay[i + pat.length - 1] - 1)
            = i + skipTable pat hay[i + pat.length - 1] := by omega
        rw [hnext] at hskip
        rw [if_pos hroom, memcmpEq, if_pos hroom, hget]
        dsimp only [Option.bind_eq_bind, Option.bind_some]
        rw [ih _ _ (by omega), occurrencesFrom_step (by omega : i ≤ hay.length), hskip]
        split
        · congr 1
          omega
        · rw [Nat.zero_add]
      · rw [if_neg hroom, occurrencesFrom_end hne (by omega), Nat.add_zero]

theorem scanBmh_eq {hay pat : List UInt8} (hne : pat ≠ []) :
    scanBmh hay pat = some (occurrences hay pat) := by
  have hpos := List.length_pos_iff.mpr hne
  rw [scanBmh]
  by_cases hshort : hay.length < pat.length
  · rw [if_pos (Or.inr hshort), ← occurrencesFrom_zero, occurrencesFrom_end hne (by omega)]
  · rw [if_neg (by omega), bmhLoop_eq hne _ _ _ (by omega), occurrencesFrom_zero, Nat.zero_add]

/-! ## The pick -/

theorem offSecondByData_lt {pat : List UInt8} {avoid : Nat} (havoid : avoid < pat.length)
    (hist : UInt8 → Nat) : offSecondByData pat avoid hist < pat.length := by
  refine foldl_pick (P := fun i => i < pat.length) ?_ _ _ (fun i hi => List.mem_range.mp hi) havoid
  rintro ⟨best, bc⟩ i
  dsimp only
  split
  · exact Or.inl rfl
  · split
    · exact Or.inr rfl
    · exact Or.inl rfl

/-- **The exact count**: for every non-empty pattern and every input, the
scan that is picked reads inside the input, ends, and counts the offsets
where the pattern occurs, overlapping ones included. -/
theorem exactCount_eq {pat : List UInt8} (hne : pat ≠ []) (hay : List UInt8) :
    exactCount hay pat = some (occurrences hay pat) := by
  have hpos := List.length_pos_iff.mpr hne
  rw [exactCount]
  by_cases hshort : hay.length < pat.length
  · rw [if_pos (Or.inr hshort), ← occurrencesFrom_zero, occurrencesFrom_end hne (by omega)]
  rw [if_neg (by omega), sampleHist_eq]
  dsimp only [Option.bind_eq_bind, Option.bind_some]
  have ho1 := offMinByData_lt (byteHist hay) hne
  split
  · exact scanBmh_eq hne
  · split
    · exact scanAnchor2_eq ho1 (offSecondByData_lt ho1 _)
    · exact scanAnchor_eq ho1

/-- `aa` in `aaa`. -/
theorem exactCount_eq_aa :
    exactCount [0x61, 0x61, 0x61] [0x61, 0x61]
      = some (occurrences [0x61, 0x61, 0x61] [0x61, 0x61]) :=
  exactCount_eq (by simp) _

example : exactCount [0x61, 0x61, 0x61] [0x61, 0x61] = some 2 := by decide +kernel

end Montauk
