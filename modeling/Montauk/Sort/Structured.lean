import Montauk.Sort.Classify
import Montauk.Sort.Light
import Montauk.Sort.SpectralMerge

/-!
# Sorting what has structure

What the sort does with an array that the classifier found a structure in: it
reverses a descending one, turns a rotated one back by three reversals, sorts
the two sides of a phase boundary and merges them, and leaves an array that is
nearly sorted to the spectral merge, to binary insertion or to the light
quicksort. Reversals and rotations are right only because of the verdict; the
other ways sort any array (`sortPhased_spec`, `sortNearlySorted_spec`).
-/

namespace Montauk.Sort

variable {α ρ : Type}

/-! ## Reversals -/

/-- `reverse`. -/
def reverseAll (arr : List α) : Option (List α) := reverseLoop (arr.length + 1) 0 (arr.length - 1) arr

def fixRotation (rot : Nat) (arr : List α) : Option (List α) :=
  if rot = 0 ∨ arr.length ≤ rot then some arr
  else do
    let n := arr.length
    let arr ← reverseLoop (n + 1) 0 (rot - 1) arr
    let arr ← reverseLoop (n + 1) rot (n - 1) arr
    reverseLoop (n + 1) 0 (n - 1) arr

variable {arr xs ys : List α}

theorem reverseAll_eq (arr : List α) : reverseAll arr = some arr.reverse := by
  have h := reverseLoop_spec (n := arr.length + 1) [] arr [] (Nat.lt_succ_self _)
  rwa [List.append_nil, List.nil_append, List.append_nil, List.nil_append, List.length_nil,
    Nat.zero_add] at h

theorem fixRotation_eq (hxs : xs ≠ []) (hys : ys ≠ []) :
    fixRotation xs.length (xs ++ ys) = some (ys ++ xs) := by
  have hx := List.length_pos_of_ne_nil hxs
  have hy := List.length_pos_of_ne_nil hys
  have hlen : (xs ++ ys).length = xs.length + ys.length := List.length_append
  have hfirst := reverseLoop_spec (n := (xs ++ ys).length + 1) [] xs ys (by omega)
  have hsecond := reverseLoop_spec (n := (xs ++ ys).length + 1) xs.reverse ys [] (by omega)
  have hmid : (xs.reverse ++ ys.reverse).length = (xs ++ ys).length := by
    rw [List.length_append, List.length_reverse, List.length_reverse, hlen]
  have hthird := reverseLoop_spec (n := (xs ++ ys).length + 1) [] (xs.reverse ++ ys.reverse) [] (by omega)
  rw [List.nil_append, List.nil_append, List.length_nil, Nat.zero_add] at hfirst
  rw [List.append_nil, List.append_nil, List.length_reverse, ← hlen] at hsecond
  rw [List.append_nil, List.append_nil, List.nil_append, List.nil_append, List.length_nil, Nat.zero_add,
    hmid, List.reverse_append, List.reverse_reverse, List.reverse_reverse] at hthird
  rw [fixRotation, if_neg (by omega)]
  simp only [hfirst, hsecond, hthird, Option.bind_eq_bind, Option.bind_some]

theorem phased_gallop {p : α → Bool} (h : Cut p xs ys) (boundary : Nat) (hb : xs.length ≤ boundary)
    (hlen : boundary ≤ (xs ++ ys).length) :
    ∃ lastOfs ofs, gallopLoop p (xs ++ ys) (fun ofs => ofs) boundary (boundary + 1) 0 1 = some (lastOfs, ofs) ∧
      lastOfs ≤ xs.length ∧ xs.length ≤ min ofs boundary := by
  by_cases hnone : xs.length = 0
  · refine ⟨0, 1, ?_, Nat.zero_le _, by omega⟩
    rw [gallopLoop]
    by_cases hmore : 1 < boundary
    · obtain ⟨z, hz, hp⟩ := h.load (i := 1) (by omega)
      rw [if_pos hmore, hz, Option.bind_eq_bind, Option.bind_some, hp, if_neg]
      rw [decide_eq_true_eq]
      omega
    · rw [if_neg hmore]
  · have hload : ∀ j < boundary, ∃ z, load (xs ++ ys) j = some z ∧ (p z = true ↔ j < xs.length) := by
      intro j hj
      obtain ⟨z, hz, hp⟩ := h.load (i := j) (by omega)
      exact ⟨z, hz, by rw [hp, decide_eq_true_iff]⟩
    obtain ⟨⟨lastOfs, ofs⟩, hrun, hpassed, -, hstops⟩ : ∃ r, gallopLoop p (xs ++ ys) (fun ofs => ofs) boundary
          (boundary + 1) 0 1 = some r ∧ GallopStop (fun j => j < xs.length) boundary r :=
      gallopLoop_spec hload (by omega) (by omega) (by omega)
    dsimp only at hpassed hstops
    exact ⟨lastOfs, ofs, hrun, by omega, by omega⟩

variable [SubInt α]

/-! ## The two sides of a phase boundary -/

/-- The merge from the front: what is left of the first side is in `tmp` from
`a` on. -/
def phasedMergeFront (tmp : List α) : Nat → Nat → Nat → Nat → List α → Option (List α)
  | 0, _, _, _, _ => none
  | fuel + 1, a, b, w, arr =>
      if a < tmp.length ∧ b < arr.length then do
        let x ← load tmp a
        let y ← load arr b
        if SubInt.value x ≤ SubInt.value y then do
          let arr ← store arr w x
          phasedMergeFront tmp fuel (a + 1) b (w + 1) arr
        else do
          let arr ← store arr w y
          phasedMergeFront tmp fuel a (b + 1) (w + 1) arr
      else do
        let rest ← loadN tmp a (tmp.length - a)
        storeN arr w rest

/-- The merge from the back: what is left of the second side is the first `b`
elements of `tmp`. -/
def phasedMergeBack (skip : Nat) (tmp : List α) : Nat → Nat → Nat → Nat → List α → Option (List α)
  | 0, _, _, _, _ => none
  | fuel + 1, a, b, w, arr =>
      if 0 < a ∧ 0 < b then do
        let x ← load arr (skip + a - 1)
        let y ← load tmp (b - 1)
        if SubInt.value y < SubInt.value x then do
          let arr ← store arr (w - 1) x
          phasedMergeBack skip tmp fuel (a - 1) b (w - 1) arr
        else do
          let arr ← store arr (w - 1) y
          phasedMergeBack skip tmp fuel a (b - 1) (w - 1) arr
      else do
        let rest ← loadN tmp 0 b
        storeN arr (w - b) rest

/-- What the machine gives a sort of a structured array: the buffer of the
phased merge, and the scratch of the spectral merge by depth. -/
structure MergeMem where
  buffer : Bool
  spectral : Nat → Bool

/-- The gallop for the place of the second side's first element, and the merge
of what is behind it. -/
def phasedMerge (resistance : Int → Int → ρ) (gt : ρ → ρ → Bool) (mem : MergeMem) (boundary : Nat)
    (arr : List α) : Option (List α) := do
  let n := arr.length
  let last ← loadBelow arr boundary
  let key ← load arr boundary
  if SubInt.value last ≤ SubInt.value key then some arr
  else do
    let (skip, ofs) ← gallopLoop (fun x => decide (SubInt.value x < SubInt.value key)) arr (fun ofs => ofs)
      boundary (boundary + 1) 0 1
    let skip ← gallopBisect (fun x => decide (SubInt.value x < SubInt.value key)) arr (n + 1) skip
      (min ofs boundary)
    if !mem.buffer then subSpectralMerge resistance gt SubInt.value (n + 1) mem.spectral arr
    else if boundary - skip ≤ n - boundary then do
      let tmp ← loadN arr skip (boundary - skip)
      phasedMergeFront tmp (n + 1) 0 boundary skip arr
    else do
      let tmp ← loadN arr boundary (n - boundary)
      phasedMergeBack skip tmp (n + 1) (boundary - skip) (n - boundary) n arr

/-- `sort_phased`; `sortFirst` and `sortSecond` are the calls of the radix
sort. -/
def sortPhased (sortFirst sortSecond : List α → Option (List α)) (resistance : Int → Int → ρ)
    (gt : ρ → ρ → Bool) (mem : MergeMem) (boundary : Nat) (arr : List α) : Option (List α) := do
  let n := arr.length
  let front ← loadN arr 0 boundary
  let arr ← (if 1 < boundary ∧ countDescents (front.map SubInt.value) ≠ 0 then
    onWindow arr 0 boundary sortFirst else some arr)
  let arr ← (if 1 < n - boundary then onWindow arr boundary (n - boundary) sortSecond else some arr)
  phasedMerge resistance gt mem boundary arr

/-! ## What is nearly sorted -/

/-- `while (sqrt_n * sqrt_n < n) sqrt_n++;` -/
def sqrtLoop (n : Nat) : Nat → Nat → Option Nat
  | 0, _ => none
  | fuel + 1, s => if s * s < n then sqrtLoop n fuel (s + 1) else some s

def sortNearlySorted {F : Type} (resistance : Int → Int → ρ) (gt : ρ → ρ → Bool) (mem : MergeMem)
    (p : Profile F) (arr : List α) : Option (List α) :=
  if 0 < p.rotationPoint then fixRotation p.rotationPoint arr
  else if p.runCount ≤ 16 then
    subSpectralMerge resistance gt SubInt.value (arr.length + 1) mem.spectral arr
  else do
    let sqrtN ← sqrtLoop arr.length (arr.length + 1) 1
    if p.maxDescentGap ≤ (sqrtN : Int) then binaryIsort arr else lightSort arr

/-! ## Reversals sort -/

/-- An array without an ascent. -/
theorem reverseAll_spec (h : arr.Pairwise fun x y => SubInt.value y ≤ SubInt.value x) :
    ∃ out, reverseAll arr = some out ∧ StableSort SubInt.value arr out :=
  ⟨arr.reverse, reverseAll_eq arr,
    SubInt.stableSort arr.reverse_perm (List.pairwise_reverse.mpr h)⟩

theorem fixRotation_spec {rot : Nat} (hpos : 0 < rot) (h : Rotated (arr.map SubInt.value) rot) :
    ∃ out, fixRotation rot arr = some out ∧ StableSort SubInt.value arr out := by
  obtain ⟨us, vs, heq, hlen, hne, hu, hv, huv⟩ := h.split
  obtain ⟨xs, ys, rfl, rfl, rfl⟩ := List.map_eq_append_iff.mp heq
  rw [List.length_map] at hlen
  subst hlen
  refine ⟨ys ++ xs, fixRotation_eq (List.ne_nil_of_length_pos hpos) fun hnil => hne (by rw [hnil]; rfl), ?_⟩
  refine SubInt.stableSort List.perm_append_comm ?_
  have hx : Ascending SubInt.value xs := List.pairwise_map.mp hu
  have hy : Ascending SubInt.value ys := List.pairwise_map.mp hv
  exact hy.append hx fun y hmy x hmx => huv _ (List.mem_map_of_mem hmx) _ (List.mem_map_of_mem hmy)

/-! ## The merge of the two sides -/

variable {tmp pre post L M G P R : List α} {fuel a b w skip : Nat}

theorem phasedMergeFront_spec (htmp : tmp = pre ++ L) (harr : arr = M ++ G ++ R) (hgap : G.length = L.length)
    (ha : a = pre.length) (hb : b = M.length + G.length) (hw : w = M.length)
    (hfuel : L.length + R.length < fuel) :
    phasedMergeFront tmp fuel a b w arr = some (M ++ mergeBy SubInt.value L R) := by
  induction fuel generalizing pre L M G R a b w arr with
  | zero => exact absurd hfuel (Nat.not_lt_zero _)
  | succ fuel ih =>
      have htlen : tmp.length = pre.length + L.length := by rw [htmp, List.length_append]
      have halen : arr.length = M.length + G.length + R.length := by
        rw [harr, List.length_append, List.length_append]
      rw [phasedMergeFront]
      by_cases hmore : a < tmp.length ∧ b < arr.length
      · rw [if_pos hmore]
        obtain ⟨x, L, rfl⟩ := List.exists_cons_of_length_pos (by omega : 0 < L.length)
        obtain ⟨y, R, rfl⟩ := List.exists_cons_of_length_pos (by omega : 0 < R.length)
        obtain ⟨g, G, rfl⟩ := List.exists_cons_of_length_eq_add_one hgap
        simp only [List.length_cons] at hgap hb hfuel
        have hx : load tmp a = some x := by rw [htmp, load_append ha]
        have hy : load arr b = some y := by
          rw [harr]
          exact load_append (by rw [hb, List.length_append, List.length_cons])
        have hstore : ∀ v, store arr w v = some (M ++ v :: (G ++ y :: R)) := by
          intro v
          rw [harr, List.append_assoc, List.cons_append]
          exact store_append hw
        rw [hx, Option.bind_eq_bind, Option.bind_some, hy, Option.bind_some]
        by_cases hle : SubInt.value x ≤ SubInt.value y
        · rw [if_pos hle, hstore, Option.bind_eq_bind, Option.bind_some, mergeBy_cons_le hle]
          have hb' : b = (M ++ [x]).length + G.length := by
            rw [List.length_append, List.length_singleton]
            omega
          have hfuel' : L.length + (y :: R).length < fuel := by
            rw [List.length_cons]
            omega
          have hnext := @ih (M ++ x :: (G ++ y :: R)) (pre ++ [x]) L (M ++ [x]) G (y :: R) (a + 1) b (w + 1)
            (by simp [htmp]) (by simp) (by omega) (by simp [ha]) hb' (by simp [hw]) hfuel'
          rw [hnext, List.append_assoc]
          rfl
        · rw [if_neg hle, hstore, Option.bind_eq_bind, Option.bind_some, mergeBy_cons_lt (Int.not_le.mp hle)]
          have hb' : b + 1 = (M ++ [y]).length + (G ++ [y]).length := by
            simp only [List.length_append, List.length_singleton]
            omega
          have hfuel' : (x :: L).length + R.length < fuel := by
            rw [List.length_cons]
            omega
          have hnext := @ih (M ++ y :: (G ++ y :: R)) pre (x :: L) (M ++ [y]) (G ++ [y]) R a (b + 1) (w + 1)
            htmp (by simp) (by simp [hgap]) ha hb' (by simp [hw]) hfuel'
          rw [hnext, List.append_assoc]
          rfl
      · have hread : loadN tmp a (tmp.length - a) = some L := by
          rw [htmp]
          exact loadN_suffix ha (by rw [List.length_append]; omega)
        rw [if_neg hmore, hread, Option.bind_eq_bind, Option.bind_some, harr, storeN_append hw hgap.symm]
        by_cases hnone : L.length = 0
        · rw [List.eq_nil_of_length_eq_zero hnone, List.append_nil, mergeBy_nil_left]
        · rw [List.eq_nil_of_length_eq_zero (by omega : R.length = 0), List.append_nil, mergeBy_nil_right]

/-- What is in front (`P`), what is left of the first side, gap, and merged. -/
theorem phasedMergeBack_spec (htmp : tmp = R ++ post) (harr : arr = P ++ L ++ G ++ M)
    (hgap : G.length = R.length) (hL : Ascending SubInt.value L) (hR : Ascending SubInt.value R)
    (hskip : skip = P.length) (ha : a = L.length) (hb : b = R.length)
    (hw : w = P.length + L.length + G.length) (hfuel : L.length + R.length < fuel) :
    phasedMergeBack skip tmp fuel a b w arr = some (P ++ mergeBy SubInt.value L R ++ M) := by
  induction fuel generalizing post L M G R a b w arr with
  | zero => exact absurd hfuel (Nat.not_lt_zero _)
  | succ fuel ih =>
      rw [phasedMergeBack]
      by_cases hmore : 0 < a ∧ 0 < b
      · rw [if_pos hmore]
        obtain ⟨L, x, rfl⟩ := exists_concat (by omega : 0 < L.length)
        obtain ⟨R, y, rfl⟩ := exists_concat (by omega : 0 < R.length)
        obtain ⟨G, g, rfl⟩ := exists_concat (by rw [hgap, List.length_append, List.length_singleton]; omega :
          0 < G.length)
        simp only [List.length_append, List.length_singleton] at hgap ha hb hw hfuel
        have hx : load arr (skip + a - 1) = some x := by
          have hsplit : arr = P ++ L ++ x :: (G ++ [g] ++ M) := by simp [harr]
          rw [hsplit]
          exact load_append (by rw [List.length_append]; omega)
        have hy : load tmp (b - 1) = some y := by
          rw [htmp, List.append_assoc]
          exact load_append (by omega)
        have hstore : ∀ v, store arr (w - 1) v = some (P ++ L ++ [x] ++ G ++ v :: M) := by
          intro v
          have hsplit : arr = (P ++ L ++ [x] ++ G) ++ g :: M := by simp [harr]
          rw [hsplit]
          exact store_append (by simp only [List.length_append, List.length_singleton]; omega)
        rw [hx, Option.bind_eq_bind, Option.bind_some, hy, Option.bind_some]
        by_cases hlt : SubInt.value y < SubInt.value x
        · have hall : ∀ z ∈ R ++ [y], SubInt.value z < SubInt.value x :=
            fun z hz => Int.lt_of_le_of_lt (hR.le_last z hz) hlt
          rw [if_pos hlt, hstore, Option.bind_eq_bind, Option.bind_some, mergeBy_concat_left hall]
          have hw' : w - 1 = P.length + L.length + ([x] ++ G).length := by
            rw [List.length_append, List.length_singleton]
            omega
          have hfuel' : L.length + (R ++ [y]).length < fuel := by
            rw [List.length_append, List.length_singleton]
            omega
          have hnext := @ih (P ++ L ++ [x] ++ G ++ x :: M) post L (x :: M) ([x] ++ G) (R ++ [y]) (a - 1) b
            (w - 1) htmp (by simp) (by simp; omega) hL.left hR (by omega) (by simpa using hb) hw' hfuel'
          rw [hnext]
          simp
        · have hall : ∀ z ∈ L ++ [x], SubInt.value z ≤ SubInt.value y :=
            fun z hz => Int.le_trans (hL.le_last z hz) (Int.not_lt.mp hlt)
          rw [if_neg hlt, hstore, Option.bind_eq_bind, Option.bind_some, mergeBy_concat_right hall]
          have hw' : w - 1 = P.length + (L ++ [x]).length + G.length := by
            rw [List.length_append, List.length_singleton]
            omega
          have hfuel' : (L ++ [x]).length + R.length < fuel := by
            rw [List.length_append, List.length_singleton]
            omega
          have hnext := @ih (P ++ L ++ [x] ++ G ++ y :: M) ([y] ++ post) (L ++ [x]) (y :: M) G R a (b - 1)
            (w - 1) (by simp [htmp]) (by simp) (by omega) hL hR.left (by simpa using ha) (by omega) hw' hfuel'
          rw [hnext]
          simp
      · have hread : loadN tmp 0 b = some R := by
          rw [htmp]
          exact loadN_front hb
        rw [if_neg hmore, hread, Option.bind_eq_bind, Option.bind_some, harr,
          storeN_append (by rw [List.length_append]; omega) hgap.symm]
        by_cases hnone : L.length = 0
        · rw [List.eq_nil_of_length_eq_zero hnone, List.append_nil, mergeBy_nil_left]
        · rw [List.eq_nil_of_length_eq_zero (by omega : R.length = 0), List.append_nil, mergeBy_nil_right]

variable (resistance : Int → Int → ρ) (gt : ρ → ρ → Bool)

theorem phasedMerge_spec (mem : MergeMem) (hxs : xs ≠ []) (hys : ys ≠ [])
    (hx : Ascending SubInt.value xs) (hy : Ascending SubInt.value ys) :
    ∃ out, phasedMerge resistance gt mem xs.length (xs ++ ys) = some out ∧
      StableSort SubInt.value (xs ++ ys) out := by
  obtain ⟨front, last, rfl⟩ := exists_concat (List.length_pos_of_ne_nil hxs)
  obtain ⟨key, rest, rfl⟩ := List.exists_cons_of_length_pos (List.length_pos_of_ne_nil hys)
  have hlast : loadBelow (front ++ [last] ++ key :: rest) (front ++ [last]).length = some last := by
    rw [List.append_assoc]
    exact loadBelow_append (by rw [List.length_append, List.length_singleton])
  rw [phasedMerge, hlast, Option.bind_eq_bind, Option.bind_some, load_append rfl, Option.bind_some]
  by_cases hle : SubInt.value last ≤ SubInt.value key
  · rw [if_pos hle]
    refine ⟨_, rfl, .refl (hx.append hy fun x hmx y hmy => ?_)⟩
    exact Int.le_trans (hx.le_last x hmx) (Int.le_trans hle (hy.head_le y hmy))
  · rw [if_neg hle]
    have hstable := (StableSort.refl hx).mergeBy (.refl hy)
    have hlastmem : last ∈ front ++ [last] := List.mem_append_right _ (List.mem_singleton.mpr rfl)
    generalize front ++ [last] = xs at *
    obtain ⟨us, vs, rfl, hus, hvs⟩ := hx.split_lt (SubInt.value key)
    -- the elements below the first one of the second side stay
    have hcut : Cut (fun x => decide (SubInt.value x < SubInt.value key)) us (vs ++ key :: rest) := by
      refine ⟨fun x hmem => decide_eq_true (hus x hmem), fun y hmem => decide_eq_false ?_⟩
      rcases List.mem_append.mp hmem with hmem | hmem
      · exact Int.not_lt.mpr (hvs y hmem)
      · exact Int.not_lt.mpr (hy.head_le y hmem)
    have hvpos : 0 < vs.length := by
      rcases List.mem_append.mp hlastmem with hmem | hmem
      · exact absurd (Int.le_of_lt (hus last hmem)) hle
      · exact List.length_pos_of_mem hmem
    have hlen : (us ++ vs).length = us.length + vs.length := List.length_append
    have hall : (us ++ vs ++ key :: rest).length = us.length + vs.length + (key :: rest).length := by
      rw [List.length_append, hlen]
    obtain ⟨lastOfs, ofs, hgallop, hlow, hhigh⟩ := phased_gallop hcut (us ++ vs).length
      (by omega) (by rw [← List.append_assoc, hall]; omega)
    have hbisect : gallopBisect (fun x => decide (SubInt.value x < SubInt.value key)) (us ++ (vs ++ key :: rest))
        ((us ++ vs ++ key :: rest).length + 1) lastOfs (min ofs (us ++ vs).length) = some us.length :=
      gallopBisect_spec hcut (by omega) hlow hhigh (by rw [← List.append_assoc]; omega)
    rw [← List.append_assoc] at hgallop hbisect
    rw [hgallop]
    dsimp only
    rw [Option.bind_eq_bind, Option.bind_some, hbisect, Option.bind_eq_bind, Option.bind_some]
    rw [mergeBy_append_left fun x hmem => Int.le_of_lt (hus x hmem)] at hstable
    by_cases hbuffer : mem.buffer = true
    · rw [hbuffer, if_neg (by decide)]
      have hover : (us ++ vs).length - us.length = vs.length := by omega
      have hrest : (us ++ vs ++ key :: rest).length - (us ++ vs).length = (key :: rest).length := by omega
      rw [hover, hrest]
      split
      · rw [loadN_append rfl rfl, Option.bind_eq_bind, Option.bind_some]
        exact ⟨_, phasedMergeFront_spec (List.nil_append vs).symm rfl rfl rfl hlen rfl (by omega), hstable⟩
      · rw [loadN_suffix rfl rfl, Option.bind_eq_bind, Option.bind_some]
        have hrun : phasedMergeBack us.length (key :: rest) ((us ++ vs ++ key :: rest).length + 1) vs.length
            (key :: rest).length (us ++ vs ++ key :: rest).length (us ++ vs ++ key :: rest)
            = some (us ++ mergeBy SubInt.value vs (key :: rest) ++ []) :=
          phasedMergeBack_spec (List.append_nil _).symm (List.append_nil _).symm rfl hx.right hy rfl rfl rfl
            hall (by omega)
        rw [List.append_nil] at hrun
        exact ⟨_, hrun, hstable⟩
    · rw [Bool.eq_false_iff.mpr hbuffer, if_pos (by decide)]
      exact subSpectralMerge_stable resistance gt SubInt.value _ mem.spectral _ (Nat.lt_succ_self _)

theorem ascending_of_countDescents {xs : List Int} (h : countDescents xs = 0) :
    xs.Pairwise fun x y => x ≤ y := by
  induction xs with
  | nil => exact List.Pairwise.nil
  | cons x xs ih =>
      cases xs with
      | nil => exact List.pairwise_singleton _ x
      | cons y rest =>
          rw [countDescents, Nat.add_eq_zero_iff] at h
          have hxy : x ≤ y := by
            by_contra hlt
            rw [if_pos (Int.not_le.mp hlt)] at h
            exact absurd h.1 Nat.one_ne_zero
          have hrest := ih h.2
          refine List.pairwise_cons.mpr ⟨fun z hz => ?_, hrest⟩
          exact Int.le_trans hxy (@Ascending.head_le Int Int _ (fun z => z) y rest hrest z hz)

theorem side_sorted {f : List α → Option (List α)} (xs w ys : List α) {c : Prop} [Decidable c] {i n : Nat}
    (hf : ∀ w, ∃ w', f w = some w' ∧ StableSort SubInt.value w w') (hi : i = xs.length) (hn : n = w.length)
    (hc : ¬ c → Ascending SubInt.value w) :
    ∃ w', (if c then onWindow (xs ++ w ++ ys) i n f else some (xs ++ w ++ ys)) = some (xs ++ w' ++ ys) ∧
      StableSort SubInt.value w w' := by
  by_cases hdo : c
  · obtain ⟨w', hrun, hsort⟩ := hf w
    refine ⟨w', ?_, hsort⟩
    rw [if_pos hdo]
    exact onWindow_append hi hn hrun hsort.length_eq
  · rw [if_neg hdo]
    exact ⟨w, rfl, .refl (hc hdo)⟩

/-- **`sort_phased`** sorts, wherever the boundary is. -/
theorem sortPhased_spec {sortFirst sortSecond : List α → Option (List α)}
    (hfirst : ∀ w, ∃ w', sortFirst w = some w' ∧ StableSort SubInt.value w w')
    (hsecond : ∀ w, ∃ w', sortSecond w = some w' ∧ StableSort SubInt.value w w') (mem : MergeMem)
    {boundary : Nat} (hpos : 0 < boundary) (hlt : boundary < arr.length) :
    ∃ out, sortPhased sortFirst sortSecond resistance gt mem boundary arr = some out ∧
      StableSort SubInt.value arr out := by
  obtain ⟨xs, ys, rfl, rfl⟩ : ∃ xs ys, arr = xs ++ ys ∧ boundary = xs.length :=
    ⟨arr.take boundary, arr.drop boundary, (List.take_append_drop _ _).symm, by
      rw [List.length_take]
      omega⟩
  have hlen : (xs ++ ys).length - xs.length = ys.length := by
    rw [List.length_append]
    omega
  have hypos : 0 < ys.length := by omega
  obtain ⟨xs', hrun, hxs⟩ := side_sorted [] xs ys (c := 1 < xs.length ∧ countDescents (xs.map SubInt.value) ≠ 0)
    hfirst rfl rfl fun hno => by
      by_cases hone : 1 < xs.length
      · exact List.pairwise_map.mp (ascending_of_countDescents (not_not.mp fun h => hno ⟨hone, h⟩))
      · exact (stableSort_short SubInt.value (by omega : xs.length < 2)).sorted
  rw [List.nil_append, List.nil_append, List.length_nil] at hrun
  obtain ⟨ys', hrun', hys⟩ := side_sorted xs' ys [] (c := 1 < ys.length) hsecond hxs.length_eq.symm rfl
    fun hno => (stableSort_short SubInt.value (by omega : ys.length < 2)).sorted
  rw [List.append_nil, List.append_nil] at hrun'
  obtain ⟨out, hmerge, hsort⟩ := phasedMerge_spec resistance gt mem
    (List.ne_nil_of_length_pos (by rw [hxs.length_eq]; exact hpos))
    (List.ne_nil_of_length_pos (by rw [hys.length_eq]; exact hypos)) hxs.sorted hys.sorted
  rw [hxs.length_eq] at hmerge
  refine ⟨out, ?_, hxs.of_append hys hsort⟩
  rw [sortPhased, loadN_front rfl]
  simp only [hlen, hrun, hrun', hmerge, Option.bind_eq_bind, Option.bind_some]

theorem sqrtLoop_returns (n fuel s : Nat) (hs : 0 < s) (hfuel : 0 < fuel) (hroom : n < fuel + s) :
    ∃ r, sqrtLoop n fuel s = some r := by
  induction fuel generalizing s with
  | zero => exact absurd hfuel (Nat.lt_irrefl 0)
  | succ fuel ih =>
      rw [sqrtLoop]
      by_cases hless : s * s < n
      · have hle : s ≤ s * s := Nat.le_mul_of_pos_left s hs
        rw [if_pos hless]
        exact ih (s + 1) (Nat.succ_pos s) (by omega) (by omega)
      · rw [if_neg hless]
        exact ⟨s, rfl⟩

/-- **`sort_nearly_sorted`** sorts, when a rotation point is one. -/
theorem sortNearlySorted_spec {F : Type} (mem : MergeMem) (p : Profile F)
    (hrot : 0 < p.rotationPoint → Rotated (arr.map SubInt.value) p.rotationPoint) :
    ∃ out, sortNearlySorted resistance gt mem p arr = some out ∧ StableSort SubInt.value arr out := by
  rw [sortNearlySorted]
  by_cases hpos : 0 < p.rotationPoint
  · rw [if_pos hpos]
    exact fixRotation_spec hpos (hrot hpos)
  · rw [if_neg hpos]
    split
    · exact subSpectralMerge_stable resistance gt SubInt.value _ mem.spectral arr (Nat.lt_succ_self _)
    · obtain ⟨s, hs⟩ := sqrtLoop_returns arr.length (arr.length + 1) 1 Nat.one_pos (Nat.succ_pos _)
        (by omega)
      rw [hs, Option.bind_eq_bind, Option.bind_some]
      split
      · exact binaryIsort_spec arr
      · exact lightSort_spec arr

end Montauk.Sort
