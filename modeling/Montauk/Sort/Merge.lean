import Montauk.Sort.Gallop

/-!
# Merging adjacent runs

`merge_lo` and `merge_hi` merge two adjacent ascending runs of one array. The
shorter one is copied to the scratch buffer first; the merged elements then
fill the gap it leaves, from the front (`merge_lo`) or from the back
(`merge_hi`). Both compare one element at a time until one run wins
`min_gallop` times in a row, and then copy whole stretches found by galloping.

The invariant of either (`LoAt`, `HiAt`) names the parts the array consists of:
what is merged, the gap, and what is left of the run that was not copied. A
step of the loops copies a stretch of one run, and the merge equations say that
what is left to merge is the rest.

`merge_pair` drops what is already in place at both ends and picks the cheaper
direction.
-/

namespace Montauk.Sort

variable {α κ : Type} [LinearOrder κ]

def subMinGallop : Nat := 7

/-- Where a merge stands: the array, the pointers into it and into the
scratch, what is left of the runs, and the gallop threshold. `merge_hi` keeps
its pointers one past the element they are at. -/
structure MergeState (α : Type) where
  arr : List α
  c1 : Nat
  c2 : Nat
  dest : Nat
  lr : Nat
  rr : Nat
  minGallop : Nat

/-- `cnt1 >= SUB_MIN_GALLOP || cnt2 >= SUB_MIN_GALLOP`. -/
def keepGalloping (cnt1 cnt2 : Nat) : Bool := subMinGallop ≤ cnt1 || subMinGallop ≤ cnt2

/-- The gallop threshold after a round of galloping. -/
def tuneGallop (minGallop cnt1 cnt2 : Nat) : Nat :=
  if keepGalloping cnt1 cnt2 then (if 1 < minGallop then minGallop - 1 else minGallop)
  else minGallop + 1

/-! ## merge_lo -/

/-- `memcpy(dest, c1, n)` from the scratch. -/
def MergeState.loLeft (tmp : List α) (n : Nat) (s : MergeState α) : Option (MergeState α) := do
  let vs ← loadN tmp s.c1 n
  let arr ← storeN s.arr s.dest vs
  some { s with arr, dest := s.dest + n, c1 := s.c1 + n, lr := s.lr - n }

/-- `memmove(dest, c2, n)` within the array. -/
def MergeState.loRight (n : Nat) (s : MergeState α) : Option (MergeState α) := do
  let vs ← loadN s.arr s.c2 n
  let arr ← storeN s.arr s.dest vs
  some { s with arr, dest := s.dest + n, c2 := s.c2 + n, rr := s.rr - n }

/-- The one-at-a-time loop of `merge_lo`; the flag is `goto done_lo`. -/
def mergeLoOne (key : α → κ) (tmp : List α) :
    Nat → Nat → Nat → MergeState α → Option (Bool × MergeState α)
  | 0, _, _, _ => none
  | n + 1, cnt1, cnt2, s => do
      let y ← load s.arr s.c2
      let x ← load tmp s.c1
      if key y < key x then
        let s ← s.loRight 1
        if s.rr = 0 then some (true, s)
        else if 0 ||| cnt2 + 1 < s.minGallop then mergeLoOne key tmp n 0 (cnt2 + 1) s
        else some (false, s)
      else
        let s ← s.loLeft tmp 1
        if s.lr = 1 then some (true, s)
        else if cnt1 + 1 ||| 0 < s.minGallop then mergeLoOne key tmp n (cnt1 + 1) 0 s
        else some (false, s)

/-- A stretch of the left run that is not larger than the right run's next
element: `cnt1`, and the state with the stretch copied. -/
def MergeState.loStretchLeft (key : α → κ) (tmp : List α) (s : MergeState α) :
    Option (Nat × MergeState α) := do
  let y ← load s.arr s.c2
  let left ← loadN tmp s.c1 s.lr
  let cnt1 ← gallopRight key (key y) left 0
  if 0 < cnt1 then (s.loLeft tmp cnt1).map (cnt1, ·) else some (cnt1, s)

/-- A stretch of the right run that is smaller than the left run's next
element: `cnt2`, and the state with the stretch copied. -/
def MergeState.loStretchRight (key : α → κ) (tmp : List α) (s : MergeState α) :
    Option (Nat × MergeState α) := do
  let x ← load tmp s.c1
  let right ← loadN s.arr s.c2 s.rr
  let cnt2 ← gallopLeft key (key x) right 0
  if 0 < cnt2 then (s.loRight cnt2).map (cnt2, ·) else some (cnt2, s)

/-- The galloping loop of `merge_lo`. -/
def mergeLoGallop (key : α → κ) (tmp : List α) :
    Nat → MergeState α → Option (Bool × MergeState α)
  | 0, _ => none
  | n + 1, s => do
      let (cnt1, s) ← s.loStretchLeft key tmp
      if 0 < cnt1 ∧ s.lr ≤ 1 then some (true, s)
      else
        let s ← s.loRight 1
        if s.rr = 0 then some (true, s)
        else
          let (cnt2, s) ← s.loStretchRight key tmp
          if 0 < cnt2 ∧ s.rr = 0 then some (true, s)
          else
            let s ← s.loLeft tmp 1
            if s.lr = 1 then some (true, s)
            else
              let s := { s with minGallop := tuneGallop s.minGallop cnt1 cnt2 }
              if keepGalloping cnt1 cnt2 then mergeLoGallop key tmp n s else some (false, s)

/-- The outer loop of `merge_lo`. -/
def mergeLoLoop (key : α → κ) (tmp : List α) : Nat → MergeState α → Option (MergeState α)
  | 0, _ => none
  | n + 1, s =>
      if 1 < s.lr ∧ 0 < s.rr then do
        let (done, s) ← mergeLoOne key tmp (s.arr.length + 1) 0 0 s
        if done then some s
        else
          let (done, s) ← mergeLoGallop key tmp (s.arr.length + 1) s
          if done then some s
          else mergeLoLoop key tmp n { s with minGallop := s.minGallop + 1 }
      else some s

/-- What `done_lo` does. -/
def mergeLoDone (tmp : List α) (s : MergeState α) : Option (List α) :=
  if s.lr = 1 then do
    let t ← s.loRight s.rr
    let x ← load tmp t.c1
    store t.arr t.dest x
  else if 0 < s.lr then do
    let t ← s.loLeft tmp s.lr
    some t.arr
  else some s.arr

/-- `merge_lo` with room for `cap` elements of scratch: the merged window and
the gallop threshold. -/
def mergeLo (key : α → κ) (cap leftLen rightLen minGallop : Nat) (arr : List α) :
    Option (List α × Nat) :=
  if leftLen ≤ cap then do
    let tmp ← loadN arr 0 leftLen
    let s ← mergeLoLoop key tmp (arr.length + 1)
      { arr, c1 := 0, c2 := leftLen, dest := 0, lr := leftLen, rr := rightLen, minGallop }
    let arr ← mergeLoDone tmp s
    some (arr, s.minGallop)
  else none

/-! ## merge_hi -/

/-- `memmove(dest + 1, c1 + 1, n)` within the array, behind the pointers. -/
def MergeState.hiLeft (n : Nat) (s : MergeState α) : Option (MergeState α) :=
  if n ≤ s.c1 ∧ n ≤ s.dest then do
    let vs ← loadN s.arr (s.c1 - n) n
    let arr ← storeN s.arr (s.dest - n) vs
    some { s with arr, dest := s.dest - n, c1 := s.c1 - n, lr := s.lr - n }
  else none

/-- `memcpy(dest + 1, c2 + 1, n)` from the scratch. -/
def MergeState.hiRight (tmp : List α) (n : Nat) (s : MergeState α) : Option (MergeState α) :=
  if n ≤ s.c2 ∧ n ≤ s.dest then do
    let vs ← loadN tmp (s.c2 - n) n
    let arr ← storeN s.arr (s.dest - n) vs
    some { s with arr, dest := s.dest - n, c2 := s.c2 - n, rr := s.rr - n }
  else none

/-- The one-at-a-time loop of `merge_hi`; the flag is `goto done_hi`. -/
def mergeHiOne (key : α → κ) (tmp : List α) :
    Nat → Nat → Nat → MergeState α → Option (Bool × MergeState α)
  | 0, _, _, _ => none
  | n + 1, cnt1, cnt2, s => do
      let y ← loadBelow tmp s.c2
      let x ← loadBelow s.arr s.c1
      if key y < key x then
        let s ← s.hiLeft 1
        if s.lr = 0 then some (true, s)
        else if cnt1 + 1 ||| 0 < s.minGallop then mergeHiOne key tmp n (cnt1 + 1) 0 s
        else some (false, s)
      else
        let s ← s.hiRight tmp 1
        if s.rr = 1 then some (true, s)
        else if 0 ||| cnt2 + 1 < s.minGallop then mergeHiOne key tmp n 0 (cnt2 + 1) s
        else some (false, s)

/-- A stretch of the left run that is larger than the right run's last
element: `cnt1`, and the state with the stretch copied. -/
def MergeState.hiStretchLeft (key : α → κ) (tmp : List α) (s : MergeState α) :
    Option (Nat × MergeState α) := do
  let y ← loadBelow tmp s.c2
  let left ← loadN s.arr 0 s.lr
  let pos ← gallopRight key (key y) left (s.lr - 1)
  let cnt1 := s.lr - pos
  if 0 < cnt1 then (s.hiLeft cnt1).map (cnt1, ·) else some (cnt1, s)

/-- A stretch of the right run that is not smaller than the left run's last
element: `cnt2`, and the state with the stretch copied. -/
def MergeState.hiStretchRight (key : α → κ) (tmp : List α) (s : MergeState α) :
    Option (Nat × MergeState α) := do
  let x ← loadBelow s.arr s.c1
  let right ← loadN tmp 0 s.rr
  let pos ← gallopLeft key (key x) right (s.rr - 1)
  let cnt2 := s.rr - pos
  if 0 < cnt2 then (s.hiRight tmp cnt2).map (cnt2, ·) else some (cnt2, s)

/-- The galloping loop of `merge_hi`. -/
def mergeHiGallop (key : α → κ) (tmp : List α) :
    Nat → MergeState α → Option (Bool × MergeState α)
  | 0, _ => none
  | n + 1, s => do
      let (cnt1, s) ← s.hiStretchLeft key tmp
      if 0 < cnt1 ∧ s.lr = 0 then some (true, s)
      else
        let s ← s.hiRight tmp 1
        if s.rr = 1 then some (true, s)
        else
          let (cnt2, s) ← s.hiStretchRight key tmp
          if 0 < cnt2 ∧ s.rr ≤ 1 then some (true, s)
          else
            let s ← s.hiLeft 1
            if s.lr = 0 then some (true, s)
            else
              let s := { s with minGallop := tuneGallop s.minGallop cnt1 cnt2 }
              if keepGalloping cnt1 cnt2 then mergeHiGallop key tmp n s else some (false, s)

/-- The outer loop of `merge_hi`. -/
def mergeHiLoop (key : α → κ) (tmp : List α) : Nat → MergeState α → Option (MergeState α)
  | 0, _ => none
  | n + 1, s =>
      if 0 < s.lr ∧ 1 < s.rr then do
        let (done, s) ← mergeHiOne key tmp (s.arr.length + 1) 0 0 s
        if done then some s
        else
          let (done, s) ← mergeHiGallop key tmp (s.arr.length + 1) s
          if done then some s
          else mergeHiLoop key tmp n { s with minGallop := s.minGallop + 1 }
      else some s

/-- What `done_hi` does. -/
def mergeHiDone (tmp : List α) (s : MergeState α) : Option (List α) :=
  if s.rr = 1 then do
    let t ← s.hiLeft s.lr
    let y ← loadBelow tmp t.c2
    storeBelow t.arr t.dest y
  else if 0 < s.rr then do
    let vs ← loadN tmp 0 s.rr
    storeN s.arr 0 vs
  else some s.arr

def mergeHi (key : α → κ) (cap leftLen rightLen minGallop : Nat) (arr : List α) :
    Option (List α × Nat) :=
  if rightLen ≤ cap then do
    let tmp ← loadN arr leftLen rightLen
    let s ← mergeHiLoop key tmp (arr.length + 1)
      { arr, c1 := leftLen, c2 := rightLen, dest := leftLen + rightLen, lr := leftLen,
        rr := rightLen, minGallop }
    let arr ← mergeHiDone tmp s
    some (arr, s.minGallop)
  else none

/-! ## merge_pair -/

/-- The direction that copies the shorter run to the scratch. -/
def mergeShorter (key : α → κ) (cap leftLen rightLen minGallop : Nat) (arr : List α) :
    Option (List α × Nat) :=
  if leftLen ≤ rightLen then mergeLo key cap leftLen rightLen minGallop arr
  else mergeHi key cap leftLen rightLen minGallop arr

/-- `merge_pair` on the window of the two runs. -/
def mergePair (key : α → κ) (cap len1 len2 minGallop : Nat) (arr : List α) :
    Option (List α × Nat) :=
  if len1 = 0 ∨ len2 = 0 then some (arr, minGallop)
  else do
    let y ← load arr len1
    let left ← loadN arr 0 len1
    let k ← gallopRight key (key y) left 0
    if len1 - k = 0 then some (arr, minGallop)
    else
      let x ← load arr (len1 - 1)
      let right ← loadN arr len1 len2
      let len2' ← gallopLeft key (key x) right (if 0 < len2 then len2 - 1 else 0)
      if len2' = 0 then some (arr, minGallop)
      else
        let w ← loadN arr k (len1 - k + len2')
        let (w, minGallop) ← mergeShorter key cap (len1 - k) len2' minGallop w
        let arr ← storeN arr k w
        some (arr, minGallop)

/-! ## From the front -/

variable {key : α → κ} {tmp out M G pre L R X Y : List α} {s : MergeState α}

/-- The parts of the array during `merge_lo`: merged, gap, right rest; the left
rest is in the scratch. -/
structure LoAt (tmp : List α) (s : MergeState α) (M G pre L R : List α) : Prop where
  arr : s.arr = M ++ G ++ R
  tmp : tmp = pre ++ L
  gap : G.length = L.length
  dest : s.dest = M.length
  c1 : s.c1 = pre.length
  c2 : s.c2 = M.length + G.length
  lr : s.lr = L.length
  rr : s.rr = R.length

/-- What is left to do, when the largest element is the last one on the left. -/
structure LoMerge (key : α → κ) (out M L R : List α) : Prop where
  left : Ascending key L
  right : Ascending key R
  top : ∃ L0 z, L = L0 ++ [z] ∧ ∀ r ∈ R, key r < key z
  out : out = M ++ mergeBy key L R

theorem MergeState.loLeft_eq {n : Nat} {vs arr : List α} (hread : loadN tmp s.c1 n = some vs)
    (hwrite : storeN s.arr s.dest vs = some arr) :
    s.loLeft tmp n
      = some { s with arr, dest := s.dest + n, c1 := s.c1 + n, lr := s.lr - n } := by
  rw [loLeft, hread]
  show (storeN s.arr s.dest vs).bind _ = _
  rw [hwrite]
  rfl

theorem MergeState.loRight_eq {n : Nat} {vs arr : List α} (hread : loadN s.arr s.c2 n = some vs)
    (hwrite : storeN s.arr s.dest vs = some arr) :
    s.loRight n
      = some { s with arr, dest := s.dest + n, c2 := s.c2 + n, rr := s.rr - n } := by
  rw [loRight, hread]
  show (storeN s.arr s.dest vs).bind _ = _
  rw [hwrite]
  rfl

theorem LoAt.loLeft (h : LoAt tmp s M G pre (X ++ L) R) {n : Nat} (hn : n = X.length) :
    ∃ s', s.loLeft tmp n = some s' ∧ LoAt tmp s' (M ++ X) (G.drop n) (pre ++ X) L R := by
  subst hn
  obtain ⟨harr, htmp, hgap, hdest, hc1, hc2, hlr, hrr⟩ := h
  rw [List.length_append] at hgap hlr
  have hread : loadN tmp s.c1 X.length = some X := by
    rw [htmp, ← List.append_assoc]
    exact loadN_append hc1 rfl
  have hwrite : storeN s.arr s.dest X = some (M ++ X ++ (G.drop X.length ++ R)) := by
    rw [harr, List.append_assoc, storeN_append_drop hdest (by rw [List.length_append]; omega),
      List.drop_append_of_le_length (by omega)]
  refine ⟨_, MergeState.loLeft_eq hread hwrite, ?_⟩
  constructor
  all_goals try simp only [List.length_append, List.length_drop, List.append_assoc]
  · exact htmp
  · omega
  · omega
  · omega
  · omega
  · omega
  · exact hrr

theorem LoAt.loRight (h : LoAt tmp s M G pre L (Y ++ R)) {n : Nat} (hn : n = Y.length) :
    ∃ s' G', s.loRight n = some s' ∧ LoAt tmp s' (M ++ Y) G' pre L R := by
  subst hn
  obtain ⟨harr, htmp, hgap, hdest, hc1, hc2, hlr, hrr⟩ := h
  rw [List.length_append] at hrr
  have hread : loadN s.arr s.c2 Y.length = some Y := by
    rw [harr, ← List.append_assoc]
    exact loadN_append (by rw [List.length_append, hc2]) rfl
  have hmove : (G ++ (Y ++ R)).drop Y.length = (G ++ Y).drop Y.length ++ R := by
    rw [← List.append_assoc, List.drop_append_of_le_length (by rw [List.length_append]; omega)]
  have hwrite : storeN s.arr s.dest Y = some (M ++ Y ++ ((G ++ Y).drop Y.length ++ R)) := by
    rw [harr, List.append_assoc, storeN_append_drop hdest (by simp only [List.length_append]; omega),
      hmove]
  refine ⟨_, (G ++ Y).drop Y.length, MergeState.loRight_eq hread hwrite, ?_⟩
  constructor
  all_goals try simp only [List.length_append, List.length_drop, List.append_assoc]
  · exact htmp
  · omega
  · omega
  · exact hc1
  · omega
  · exact hlr
  · omega

theorem LoMerge.takeLeft {y : α} (h : LoMerge key out M (X ++ L) (y :: R)) (hne : L ≠ [])
    (hle : ∀ x ∈ X, key x ≤ key y) : LoMerge key out (M ++ X) L (y :: R) where
  left := h.left.right
  right := h.right
  top := by
    obtain ⟨L0, z, hz, htop⟩ := h.top
    obtain ⟨L1, z', hL⟩ := List.eq_nil_or_concat L |>.resolve_left hne
    rw [List.concat_eq_append] at hL
    rw [hL, ← List.append_assoc] at hz
    obtain ⟨-, hzz⟩ := List.append_inj' hz rfl
    rw [List.singleton_inj] at hzz
    exact ⟨L1, z', hL, hzz ▸ htop⟩
  out := by rw [h.out, mergeBy_append_left hle, List.append_assoc]

theorem LoMerge.takeRight {x : α} (h : LoMerge key out M (x :: L) (Y ++ R))
    (hlt : ∀ y ∈ Y, key y < key x) : LoMerge key out (M ++ Y) (x :: L) R where
  left := h.left
  right := h.right.right
  top := by
    obtain ⟨L0, z, hz, htop⟩ := h.top
    exact ⟨L0, z, hz, fun r hr => htop r (List.mem_append_right _ hr)⟩
  out := by rw [h.out, mergeBy_append_right hlt, List.append_assoc]

theorem LoMerge.ne_nil (h : LoMerge key out M L R) : L ≠ [] := by
  obtain ⟨L0, z, rfl, -⟩ := h.top
  exact List.append_ne_nil_of_right_ne_nil _ (by simp)

/-- The state of `merge_lo` between two copies. -/
def LoInv (key : α → κ) (tmp out : List α) (s : MergeState α) : Prop :=
  ∃ M G pre L R, LoAt tmp s M G pre L R ∧ LoMerge key out M L R

/-- What a loop of `merge_lo` leaves: the state it stops in, closer to the end,
and what the flag says about it. -/
def LoRuns (key : α → κ) (tmp out : List α) (s : MergeState α)
    (r : Option (Bool × MergeState α)) : Prop :=
  ∃ done s', r = some (done, s') ∧ LoInv key tmp out s' ∧ s'.lr + s'.rr < s.lr + s.rr
    ∧ (done = true → s'.lr = 1 ∨ s'.rr = 0) ∧ (done = false → 1 < s'.lr ∧ 0 < s'.rr)

theorem LoRuns.stop {s s' : MergeState α} (h : LoInv key tmp out s')
    (hless : s'.lr + s'.rr < s.lr + s.rr) (hdone : s'.lr = 1 ∨ s'.rr = 0) :
    LoRuns key tmp out s (some (true, s')) :=
  ⟨true, s', rfl, h, hless, fun _ => hdone, fun hno => absurd hno (by decide)⟩

theorem LoRuns.next {s s' : MergeState α} (h : LoInv key tmp out s')
    (hless : s'.lr + s'.rr < s.lr + s.rr) (hmore : 1 < s'.lr ∧ 0 < s'.rr) :
    LoRuns key tmp out s (some (false, s')) :=
  ⟨false, s', rfl, h, hless, fun hno => absurd hno (by decide), fun _ => hmore⟩

theorem LoRuns.trans {s s' : MergeState α} {r : Option (Bool × MergeState α)}
    (h : LoRuns key tmp out s' r) (hless : s'.lr + s'.rr < s.lr + s.rr) :
    LoRuns key tmp out s r := by
  obtain ⟨done, t, hr, hinv, hlt, hdone, hmore⟩ := h
  exact ⟨done, t, hr, hinv, Nat.lt_trans hlt hless, hdone, hmore⟩

theorem mergeLoOne_spec {n : Nat} {cnt1 cnt2 : Nat} {s : MergeState α}
    (h : LoInv key tmp out s) (hl : 1 < s.lr) (hr : 0 < s.rr) (hn : s.lr + s.rr < n) :
    LoRuns key tmp out s (mergeLoOne key tmp n cnt1 cnt2 s) := by
  induction n generalizing cnt1 cnt2 s with
  | zero => exact absurd hn (Nat.not_lt_zero _)
  | succ n ih =>
      obtain ⟨M, G, pre, L, R, hat, hmerge⟩ := h
      obtain ⟨x, L, rfl⟩ := List.exists_cons_of_ne_nil hmerge.ne_nil
      obtain ⟨y, R, rfl⟩ : ∃ y R', R = y :: R' := by
        refine List.exists_cons_of_ne_nil fun hnil => ?_
        rw [hat.rr, hnil] at hr
        exact Nat.lt_irrefl 0 hr
      have hy : load s.arr s.c2 = some y := by
        rw [hat.arr]
        exact load_append (by rw [List.length_append, hat.c2])
      have hx : load tmp s.c1 = some x := by
        rw [hat.tmp]
        exact load_append hat.c1
      have hlr := hat.lr
      have hrr := hat.rr
      rw [mergeLoOne, hy, hx]
      show LoRuns key tmp out s (if key y < key x then _ else _)
      rcases lt_or_ge (key y) (key x) with hyx | hxy
      · rw [if_pos hyx]
        obtain ⟨s', G', hs', hat'⟩ := hat.loRight (Y := [y]) (n := 1) rfl
        have hinv : LoInv key tmp out s' :=
          ⟨_, _, _, _, _, hat', hmerge.takeRight (Y := [y]) (by simpa using hyx)⟩
        have hlr' := hat'.lr
        have hrr' := hat'.rr
        rw [List.length_cons] at hrr
        rw [hs']
        show LoRuns key tmp out s (if s'.rr = 0 then _ else _)
        by_cases hzero : s'.rr = 0
        · rw [if_pos hzero]
          exact .stop hinv (by omega) (.inr hzero)
        · rw [if_neg hzero]
          split
          · exact (ih hinv (by omega) (by omega) (by omega)).trans (by omega)
          · exact .next hinv (by omega) (by omega)
      · rw [if_neg (not_lt.mpr hxy)]
        obtain ⟨s', hs', hat'⟩ := hat.loLeft (X := [x]) (n := 1) rfl
        have hne : L ≠ [] := by
          rintro rfl
          rw [hlr, List.length_singleton] at hl
          exact Nat.lt_irrefl 1 hl
        have hinv : LoInv key tmp out s' :=
          ⟨_, _, _, _, _, hat', hmerge.takeLeft (X := [x]) hne (by simpa using hxy)⟩
        have hlr' := hat'.lr
        have hrr' := hat'.rr
        have hpos := List.length_pos_of_ne_nil hne
        rw [List.length_cons] at hlr
        rw [hs']
        show LoRuns key tmp out s (if s'.lr = 1 then _ else _)
        by_cases hone : s'.lr = 1
        · rw [if_pos hone]
          exact .stop hinv (by omega) (.inl hone)
        · rw [if_neg hone]
          split
          · exact (ih hinv (by omega) (by omega) (by omega)).trans (by omega)
          · exact .next hinv (by omega) (by omega)

theorem LoAt.stretchLeft {y : α} (hat : LoAt tmp s M G pre L (y :: R))
    (hmerge : LoMerge key out M L (y :: R)) :
    ∃ X L' s' M' G' pre', L = X ++ L' ∧ s.loStretchLeft key tmp = some (X.length, s')
      ∧ LoAt tmp s' M' G' pre' L' (y :: R) ∧ LoMerge key out M' L' (y :: R)
      ∧ ∀ z ∈ L', key y < key z := by
  obtain ⟨X, L', hL, hX, hL'⟩ := hmerge.left.split_le (key y)
  have hpos := List.length_pos_of_ne_nil hmerge.ne_nil
  have hy : load s.arr s.c2 = some y := by
    rw [hat.arr]
    exact load_append (by rw [List.length_append, hat.c2])
  have hleft : loadN tmp s.c1 s.lr = some L := by
    rw [hat.tmp]
    exact loadN_suffix hat.c1 hat.lr
  have hgallop : gallopRight key (key y) L 0 = some X.length := by
    rw [hL] at hpos ⊢
    exact gallopRight_spec hX hL' hpos
  have hrun : s.loStretchLeft key tmp
      = if 0 < X.length then (s.loLeft tmp X.length).map (X.length, ·) else some (X.length, s) := by
    rw [MergeState.loStretchLeft, hy, Option.bind_eq_bind, Option.bind_some, hleft,
      Option.bind_eq_bind, Option.bind_some, hgallop]
    rfl
  rw [hL] at hat hmerge
  have hne : L' ≠ [] := by
    rintro rfl
    obtain ⟨L0, z, hz, htop⟩ := hmerge.top
    rw [List.append_nil] at hz
    have hyz := htop y List.mem_cons_self
    exact absurd (hX z (by rw [hz]; simp)) (not_le.mpr hyz)
  have hmerge' := hmerge.takeLeft hne hX
  by_cases hzero : 0 < X.length
  · obtain ⟨s', hs', hat'⟩ := hat.loLeft rfl
    exact ⟨X, L', s', _, _, _, hL, by rw [hrun, if_pos hzero, hs']; rfl, hat', hmerge', hL'⟩
  · have hnil := List.eq_nil_of_length_eq_zero (Nat.eq_zero_of_not_pos hzero)
    subst hnil
    rw [List.append_nil] at hmerge'
    exact ⟨[], L', s, M, G, pre, hL, by rw [hrun, if_neg hzero], hat, hmerge', hL'⟩

theorem LoAt.stretchRight {x : α} (hat : LoAt tmp s M G pre (x :: L) R)
    (hmerge : LoMerge key out M (x :: L) R) (hpos : 0 < R.length) :
    ∃ Y R' s' M' G', R = Y ++ R' ∧ s.loStretchRight key tmp = some (Y.length, s')
      ∧ LoAt tmp s' M' G' pre (x :: L) R' ∧ LoMerge key out M' (x :: L) R'
      ∧ ∀ z ∈ R', key x ≤ key z := by
  obtain ⟨Y, R', hR, hY, hR'⟩ := hmerge.right.split_lt (key x)
  have hx : load tmp s.c1 = some x := by
    rw [hat.tmp]
    exact load_append hat.c1
  have hright : loadN s.arr s.c2 s.rr = some R := by
    rw [hat.arr]
    exact loadN_suffix (by rw [List.length_append, hat.c2]) hat.rr
  have hgallop : gallopLeft key (key x) R 0 = some Y.length := by
    rw [hR] at hpos ⊢
    exact gallopLeft_spec hY hR' hpos
  have hrun : s.loStretchRight key tmp
      = if 0 < Y.length then (s.loRight Y.length).map (Y.length, ·) else some (Y.length, s) := by
    rw [MergeState.loStretchRight, hx, Option.bind_eq_bind, Option.bind_some, hright,
      Option.bind_eq_bind, Option.bind_some, hgallop]
    rfl
  rw [hR] at hat hmerge
  have hmerge' := hmerge.takeRight hY
  by_cases hzero : 0 < Y.length
  · obtain ⟨s', G', hs', hat'⟩ := hat.loRight rfl
    exact ⟨Y, R', s', _, G', hR, by rw [hrun, if_pos hzero, hs']; rfl, hat', hmerge', hR'⟩
  · have hnil := List.eq_nil_of_length_eq_zero (Nat.eq_zero_of_not_pos hzero)
    subst hnil
    rw [List.append_nil] at hmerge'
    exact ⟨[], R', s, M, G, hR, by rw [hrun, if_neg hzero], hat, hmerge', hR'⟩

theorem mergeLoGallop_spec {n : Nat} {s : MergeState α}
    (h : LoInv key tmp out s) (hl : 1 < s.lr) (hr : 0 < s.rr) (hn : s.lr + s.rr < n) :
    LoRuns key tmp out s (mergeLoGallop key tmp n s) := by
  induction n generalizing s with
  | zero => exact absurd hn (Nat.not_lt_zero _)
  | succ n ih =>
      obtain ⟨M, G, pre, L, R, hat, hmerge⟩ := h
      obtain ⟨y, R, rfl⟩ : ∃ y R', R = y :: R' := by
        refine List.exists_cons_of_ne_nil fun hnil => ?_
        rw [hat.rr, hnil] at hr
        exact Nat.lt_irrefl 0 hr
      have hlr := hat.lr
      have hrr := hat.rr
      obtain ⟨X, L', s₁, M₁, G₁, pre₁, hL, hs₁, hat₁, hmerge₁, hL'⟩ := hat.stretchLeft hmerge
      have hlr₁ := hat₁.lr
      have hrr₁ := hat₁.rr
      rw [hL, List.length_append] at hlr
      rw [mergeLoGallop, hs₁]
      show LoRuns key tmp out s (if 0 < X.length ∧ s₁.lr ≤ 1 then _ else _)
      have hpos₁ := List.length_pos_of_ne_nil hmerge₁.ne_nil
      by_cases hstop : 0 < X.length ∧ s₁.lr ≤ 1
      · rw [if_pos hstop]
        exact .stop ⟨_, _, _, _, _, hat₁, hmerge₁⟩ (by omega) (by omega)
      · rw [if_neg hstop]
        obtain ⟨x, L', rfl⟩ := List.exists_cons_of_ne_nil hmerge₁.ne_nil
        obtain ⟨s₂, G₂, hs₂, hat₂⟩ := hat₁.loRight (Y := [y]) (n := 1) rfl
        have hmerge₂ := hmerge₁.takeRight (Y := [y]) (by simpa using hL' x List.mem_cons_self)
        have hlr₂ := hat₂.lr
        have hrr₂ := hat₂.rr
        rw [List.length_cons] at hrr hrr₁
        rw [hs₂]
        show LoRuns key tmp out s (if s₂.rr = 0 then _ else _)
        by_cases hzero : s₂.rr = 0
        · rw [if_pos hzero]
          exact .stop ⟨_, _, _, _, _, hat₂, hmerge₂⟩ (by omega) (.inr hzero)
        · rw [if_neg hzero]
          obtain ⟨Y, R', s₃, M₃, G₃, hR, hs₃, hat₃, hmerge₃, hR'⟩ :=
            hat₂.stretchRight hmerge₂ (by omega)
          have hlr₃ := hat₃.lr
          have hrr₃ := hat₃.rr
          rw [hR, List.length_append] at hrr₂ hrr₁ hrr
          rw [hs₃]
          show LoRuns key tmp out s (if 0 < Y.length ∧ s₃.rr = 0 then _ else _)
          by_cases hstop₃ : 0 < Y.length ∧ s₃.rr = 0
          · rw [if_pos hstop₃]
            exact .stop ⟨_, _, _, _, _, hat₃, hmerge₃⟩ (by omega) (.inr hstop₃.2)
          · rw [if_neg hstop₃]
            obtain ⟨r, R', rfl⟩ : ∃ r R'', R' = r :: R'' := by
              refine List.exists_cons_of_ne_nil fun hnil => ?_
              rw [hnil, List.length_nil] at hrr₃ hrr₂
              omega
            have hxr := hR' r List.mem_cons_self
            -- the largest left element is larger than `r`, so it is not `x`
            have hne : L' ≠ [] := by
              rintro rfl
              obtain ⟨L0, z, hz, htop⟩ := hmerge₃.top
              have hxz : x = z := by
                cases L0 with
                | nil => exact (List.cons.inj hz).1
                | cons w L0 => simp at hz
              exact absurd (hxz ▸ htop r List.mem_cons_self) (not_lt.mpr hxr)
            obtain ⟨s₄, hs₄, hat₄⟩ := hat₃.loLeft (X := [x]) (n := 1) rfl
            have hmerge₄ := hmerge₃.takeLeft (X := [x]) hne (by simpa using hxr)
            have hlr₄ := hat₄.lr
            have hrr₄ := hat₄.rr
            have hpos₄ := List.length_pos_of_ne_nil hne
            rw [List.length_cons] at hlr₃ hrr₃ hrr₄ hlr₁ hlr₂ hlr hrr₂ hrr
            rw [hs₄]
            show LoRuns key tmp out s (if s₄.lr = 1 then _ else _)
            by_cases hone : s₄.lr = 1
            · rw [if_pos hone]
              exact .stop ⟨_, _, _, _, _, hat₄, hmerge₄⟩ (by omega) (.inl hone)
            · rw [if_neg hone]
              have hinv : LoInv key tmp out
                  { s₄ with minGallop := tuneGallop s₄.minGallop X.length Y.length } :=
                ⟨_, _, _, _, _, ⟨hat₄.1, hat₄.2, hat₄.3, hat₄.4, hat₄.5, hat₄.6, hat₄.7, hat₄.8⟩,
                  hmerge₄⟩
              show LoRuns key tmp out s (if keepGalloping X.length Y.length then _ else _)
              split
              · refine (ih hinv ?_ ?_ ?_).trans ?_
                all_goals dsimp only
                all_goals omega
              · refine .next hinv ?_ ?_
                all_goals dsimp only
                all_goals omega

theorem LoInv.room {s : MergeState α} (h : LoInv key tmp out s) :
    0 < s.lr ∧ s.lr + s.rr ≤ s.arr.length := by
  obtain ⟨M, G, pre, L, R, hat, hmerge⟩ := h
  have hpos := List.length_pos_of_ne_nil hmerge.ne_nil
  have hgap := hat.gap
  rw [hat.lr, hat.rr, hat.arr, List.length_append, List.length_append]
  omega

theorem mergeLoLoop_spec {n : Nat} {s : MergeState α} (h : LoInv key tmp out s)
    (hn : s.lr + s.rr < n) :
    ∃ s', mergeLoLoop key tmp n s = some s' ∧ LoInv key tmp out s' ∧ (s'.lr = 1 ∨ s'.rr = 0) := by
  induction n generalizing s with
  | zero => exact absurd hn (Nat.not_lt_zero _)
  | succ n ih =>
      obtain ⟨hpos, hroom⟩ := h.room
      rw [mergeLoLoop]
      by_cases hmore : 1 < s.lr ∧ 0 < s.rr
      · rw [if_pos hmore]
        have hone : LoRuns key tmp out s (mergeLoOne key tmp (s.arr.length + 1) 0 0 s) :=
          mergeLoOne_spec h hmore.1 hmore.2 (Nat.lt_succ_of_le hroom)
        obtain ⟨done, s₁, hs₁, hinv₁, hless₁, hdone₁, hmore₁⟩ := hone
        rw [hs₁]
        cases done with
        | true => exact ⟨s₁, rfl, hinv₁, hdone₁ rfl⟩
        | false =>
            obtain ⟨hl₁, hr₁⟩ := hmore₁ rfl
            obtain ⟨done, s₂, hs₂, hinv₂, hless₂, hdone₂, -⟩ :=
              mergeLoGallop_spec hinv₁ hl₁ hr₁ (Nat.lt_succ_of_le hinv₁.room.2)
            show ∃ s', (mergeLoGallop key tmp (s₁.arr.length + 1) s₁).bind _ = some s' ∧ _
            rw [hs₂]
            cases done with
            | true => exact ⟨s₂, rfl, hinv₂, hdone₂ rfl⟩
            | false =>
                obtain ⟨M, G, pre, L, R, hat, hmerge⟩ := hinv₂
                have hinv : LoInv key tmp out { s₂ with minGallop := s₂.minGallop + 1 } :=
                  ⟨M, G, pre, L, R, ⟨hat.1, hat.2, hat.3, hat.4, hat.5, hat.6, hat.7, hat.8⟩, hmerge⟩
                refine ih hinv ?_
                dsimp only
                omega
      · rw [if_neg hmore]
        exact ⟨s, rfl, h, by omega⟩

theorem mergeLoDone_spec {s : MergeState α} (h : LoInv key tmp out s)
    (hdone : s.lr = 1 ∨ s.rr = 0) : mergeLoDone tmp s = some out := by
  obtain ⟨M, G, pre, L, R, hat, hmerge⟩ := h
  have hpos := List.length_pos_of_ne_nil hmerge.ne_nil
  rw [mergeLoDone]
  by_cases hone : s.lr = 1
  · rw [if_pos hone]
    obtain ⟨L0, z, hz, htop⟩ := hmerge.top
    have hL : L = [z] := by
      have hlen : L.length = 1 := hat.lr.symm.trans hone
      rw [hz, List.length_append, List.length_singleton] at hlen
      rw [hz, List.eq_nil_of_length_eq_zero (Nat.succ.inj hlen)]
      rfl
    subst hL
    have hout : out = M ++ R ++ [z] := by
      have hlast : mergeBy key ([] ++ [z]) R = mergeBy key [] R ++ [z] := mergeBy_concat_left htop
      rw [List.nil_append, mergeBy_nil_left] at hlast
      rw [hmerge.out, hlast, List.append_assoc]
    rw [← List.append_nil R] at hat
    obtain ⟨t, G', ht, hat'⟩ := hat.loRight (n := s.rr) (by rw [hat.rr, List.append_nil])
    rw [ht]
    show (load tmp t.c1).bind _ = _
    have hz' : load tmp t.c1 = some z := by
      rw [hat'.tmp]
      exact load_append hat'.c1
    rw [hz']
    show store t.arr t.dest z = _
    rw [store_eq_storeN, hat'.arr, storeN_append hat'.dest hat'.gap.symm, List.append_nil, hout]
  · have hnil : R = [] := by
      refine List.eq_nil_of_length_eq_zero ?_
      rw [← hat.rr]
      omega
    subst hnil
    rw [if_neg hone, if_pos (by rw [hat.lr]; exact hpos)]
    rw [← List.append_nil L] at hat
    obtain ⟨t, ht, hat'⟩ := hat.loLeft (n := s.lr) (by rw [hat.lr, List.append_nil])
    rw [ht]
    show some t.arr = _
    have hgap := hat'.gap
    rw [hat'.arr, List.eq_nil_of_length_eq_zero hgap, List.append_nil, List.append_nil, hmerge.out,
      mergeBy_nil_right]

/-- **`merge_lo` merges** runs whose largest element is the left one's last. -/
theorem mergeLo_spec {cap minGallop : Nat} (hL : Ascending key L) (hR : Ascending key R)
    (htop : ∃ L0 z, L = L0 ++ [z] ∧ ∀ r ∈ R, key r < key z) (hcap : L.length ≤ cap) :
    ∃ g, mergeLo key cap L.length R.length minGallop (L ++ R) = some (mergeBy key L R, g) := by
  have hread : loadN (L ++ R) 0 L.length = some L := loadN_front rfl
  have hinv : LoInv key L (mergeBy key L R)
      { arr := L ++ R, c1 := 0, c2 := L.length, dest := 0, lr := L.length, rr := R.length,
        minGallop } :=
    ⟨[], L, [], L, R, ⟨rfl, rfl, rfl, rfl, rfl, (Nat.zero_add _).symm, rfl, rfl⟩, hL, hR, htop, rfl⟩
  obtain ⟨s, hs, hinv', hdone⟩ := mergeLoLoop_spec (n := (L ++ R).length + 1) hinv
    (by rw [List.length_append]; exact Nat.lt_succ_self _)
  refine ⟨s.minGallop, ?_⟩
  rw [mergeLo, if_pos hcap, hread]
  show (mergeLoLoop key L ((L ++ R).length + 1) _).bind _ = _
  rw [hs]
  show (mergeLoDone L s).bind _ = _
  rw [mergeLoDone_spec hinv' hdone]
  rfl

/-! ## From the back -/

variable {post : List α}

/-- The parts of the array during `merge_hi`: left rest, gap, merged; the right
rest is in the scratch. -/
structure HiAt (tmp : List α) (s : MergeState α) (L G M R post : List α) : Prop where
  arr : s.arr = L ++ G ++ M
  tmp : tmp = R ++ post
  gap : G.length = R.length
  dest : s.dest = L.length + G.length
  c1 : s.c1 = L.length
  c2 : s.c2 = R.length
  lr : s.lr = L.length
  rr : s.rr = R.length

/-- What is left to do, when the smallest element is the first one on the
right. -/
structure HiMerge (key : α → κ) (out M L R : List α) : Prop where
  left : Ascending key L
  right : Ascending key R
  bottom : ∃ z R0, R = z :: R0 ∧ ∀ l ∈ L, key z < key l
  out : out = mergeBy key L R ++ M

theorem MergeState.hiLeft_eq {n : Nat} {vs arr : List α} (hn : n ≤ s.c1 ∧ n ≤ s.dest)
    (hread : loadN s.arr (s.c1 - n) n = some vs)
    (hwrite : storeN s.arr (s.dest - n) vs = some arr) :
    s.hiLeft n = some { s with arr, dest := s.dest - n, c1 := s.c1 - n, lr := s.lr - n } := by
  rw [hiLeft, if_pos hn, hread]
  show (storeN s.arr (s.dest - n) vs).bind _ = _
  rw [hwrite]
  rfl

theorem MergeState.hiRight_eq {n : Nat} {vs arr : List α} (hn : n ≤ s.c2 ∧ n ≤ s.dest)
    (hread : loadN tmp (s.c2 - n) n = some vs)
    (hwrite : storeN s.arr (s.dest - n) vs = some arr) :
    s.hiRight tmp n = some { s with arr, dest := s.dest - n, c2 := s.c2 - n, rr := s.rr - n } := by
  rw [hiRight, if_pos hn, hread]
  show (storeN s.arr (s.dest - n) vs).bind _ = _
  rw [hwrite]
  rfl

/-- Copying a stretch of the left run moves the gap in front of it. -/
theorem HiAt.hiLeft (h : HiAt tmp s (L ++ X) G M R post) {n : Nat} (hn : n = X.length) :
    ∃ s' G', s.hiLeft n = some s' ∧ HiAt tmp s' L G' (X ++ M) R post := by
  subst hn
  obtain ⟨harr, htmp, hgap, hdest, hc1, hc2, hlr, hrr⟩ := h
  rw [List.length_append] at hdest hc1 hlr
  have hread : loadN s.arr (s.c1 - X.length) X.length = some X := by
    rw [harr, List.append_assoc]
    exact loadN_append (by omega) rfl
  have hmove : (L ++ X ++ G).take (s.dest - X.length) = L ++ (X ++ G).take G.length := by
    rw [List.append_assoc, show s.dest - X.length = L.length + G.length by omega,
      List.take_length_add_append]
  have hwrite : storeN s.arr (s.dest - X.length) X
      = some (L ++ (X ++ G).take G.length ++ X ++ M) := by
    rw [harr, storeN_append_take (by simp only [List.length_append]; omega), hmove]
  refine ⟨_, (X ++ G).take G.length, MergeState.hiLeft_eq (by omega) hread hwrite, ?_⟩
  constructor
  all_goals
    try simp only [List.length_append, List.length_take, List.append_assoc]
  · exact htmp
  · omega
  · omega
  · omega
  · exact hc2
  · omega
  · exact hrr

theorem HiAt.hiRight (h : HiAt tmp s L G M (R ++ Y) post) {n : Nat} (hn : n = Y.length) :
    ∃ s' G' post', s.hiRight tmp n = some s' ∧ HiAt tmp s' L G' (Y ++ M) R post' := by
  subst hn
  obtain ⟨harr, htmp, hgap, hdest, hc1, hc2, hlr, hrr⟩ := h
  rw [List.length_append] at hgap hc2 hrr
  have hread : loadN tmp (s.c2 - Y.length) Y.length = some Y := by
    rw [htmp]
    exact loadN_append (by omega) rfl
  have hmove : (L ++ G).take (s.dest - Y.length) = L ++ G.take R.length := by
    rw [show s.dest - Y.length = L.length + R.length by omega, List.take_length_add_append]
  have hwrite : storeN s.arr (s.dest - Y.length) Y = some (L ++ G.take R.length ++ Y ++ M) := by
    rw [harr, storeN_append_take (by simp only [List.length_append]; omega), hmove]
  refine ⟨_, G.take R.length, Y ++ post, MergeState.hiRight_eq (by omega) hread hwrite, ?_⟩
  constructor
  all_goals
    try simp only [List.length_take, List.append_assoc]
  · rw [htmp, List.append_assoc]
  · omega
  · omega
  · exact hc1
  · omega
  · exact hlr
  · omega

theorem HiMerge.takeLeft (h : HiMerge key out M (L ++ X) R)
    (hlt : ∀ x ∈ X, ∀ r ∈ R, key r < key x) : HiMerge key out (X ++ M) L R where
  left := h.left.left
  right := h.right
  bottom := by
    obtain ⟨z, R0, hz, hbottom⟩ := h.bottom
    exact ⟨z, R0, hz, fun l hl => hbottom l (List.mem_append_left _ hl)⟩
  out := by rw [h.out, mergeBy_append_left_of_lt hlt, List.append_assoc]

theorem HiMerge.takeRight (h : HiMerge key out M L (R ++ Y)) (hne : R ≠ [])
    (hle : ∀ l ∈ L, ∀ y ∈ Y, key l ≤ key y) : HiMerge key out (Y ++ M) L R where
  left := h.left
  right := h.right.left
  bottom := by
    obtain ⟨z, R0, hz, hbottom⟩ := h.bottom
    obtain ⟨w, R1, rfl⟩ := List.exists_cons_of_ne_nil hne
    rw [List.cons_append, List.cons.injEq] at hz
    exact ⟨w, R1, rfl, hz.1 ▸ hbottom⟩
  out := by rw [h.out, mergeBy_append_right_of_le hle, List.append_assoc]

theorem HiMerge.ne_nil (h : HiMerge key out M L R) : R ≠ [] := by
  obtain ⟨z, R0, rfl, -⟩ := h.bottom
  exact List.cons_ne_nil _ _

/-- The state of `merge_hi` between two copies. -/
def HiInv (key : α → κ) (tmp out : List α) (s : MergeState α) : Prop :=
  ∃ L G M R post, HiAt tmp s L G M R post ∧ HiMerge key out M L R

/-- What a loop of `merge_hi` leaves. -/
def HiRuns (key : α → κ) (tmp out : List α) (s : MergeState α)
    (r : Option (Bool × MergeState α)) : Prop :=
  ∃ done s', r = some (done, s') ∧ HiInv key tmp out s' ∧ s'.lr + s'.rr < s.lr + s.rr
    ∧ (done = true → s'.lr = 0 ∨ s'.rr = 1) ∧ (done = false → 0 < s'.lr ∧ 1 < s'.rr)

theorem HiRuns.stop {s s' : MergeState α} (h : HiInv key tmp out s')
    (hless : s'.lr + s'.rr < s.lr + s.rr) (hdone : s'.lr = 0 ∨ s'.rr = 1) :
    HiRuns key tmp out s (some (true, s')) :=
  ⟨true, s', rfl, h, hless, fun _ => hdone, fun hno => absurd hno (by decide)⟩

theorem HiRuns.next {s s' : MergeState α} (h : HiInv key tmp out s')
    (hless : s'.lr + s'.rr < s.lr + s.rr) (hmore : 0 < s'.lr ∧ 1 < s'.rr) :
    HiRuns key tmp out s (some (false, s')) :=
  ⟨false, s', rfl, h, hless, fun hno => absurd hno (by decide), fun _ => hmore⟩

theorem HiRuns.trans {s s' : MergeState α} {r : Option (Bool × MergeState α)}
    (h : HiRuns key tmp out s' r) (hless : s'.lr + s'.rr < s.lr + s.rr) :
    HiRuns key tmp out s r := by
  obtain ⟨done, t, hr, hinv, hlt, hdone, hmore⟩ := h
  exact ⟨done, t, hr, hinv, Nat.lt_trans hlt hless, hdone, hmore⟩

theorem HiAt.loadRight {y : α} (hat : HiAt tmp s L G M (R ++ [y]) post) :
    loadBelow tmp s.c2 = some y := by
  rw [hat.tmp, List.append_assoc]
  exact loadBelow_append (by rw [hat.c2, List.length_append, List.length_singleton])

theorem HiAt.loadLeft {x : α} (hat : HiAt tmp s (L ++ [x]) G M R post) :
    loadBelow s.arr s.c1 = some x := by
  rw [hat.arr, List.append_assoc, List.append_assoc]
  exact loadBelow_append (by rw [hat.c1, List.length_append, List.length_singleton])

theorem mergeHiOne_spec {n : Nat} {cnt1 cnt2 : Nat} {s : MergeState α}
    (h : HiInv key tmp out s) (hl : 0 < s.lr) (hr : 1 < s.rr) (hn : s.lr + s.rr < n) :
    HiRuns key tmp out s (mergeHiOne key tmp n cnt1 cnt2 s) := by
  induction n generalizing cnt1 cnt2 s with
  | zero => exact absurd hn (Nat.not_lt_zero _)
  | succ n ih =>
      obtain ⟨L, G, M, R, post, hat, hmerge⟩ := h
      have hlr := hat.lr
      have hrr := hat.rr
      obtain ⟨L, x, rfl⟩ := exists_concat (hlr ▸ hl)
      obtain ⟨R, y, rfl⟩ : ∃ R' y, R = R' ++ [y] := exists_concat (by omega)
      rw [List.length_append, List.length_singleton] at hlr hrr
      rw [mergeHiOne, hat.loadRight, hat.loadLeft]
      show HiRuns key tmp out s (if key y < key x then _ else _)
      rcases lt_or_ge (key y) (key x) with hyx | hxy
      · rw [if_pos hyx]
        obtain ⟨s', G', hs', hat'⟩ := hat.hiLeft (n := 1) rfl
        have hinv : HiInv key tmp out s' := by
          refine ⟨_, _, _, _, _, hat', hmerge.takeLeft fun w hw r hm => ?_⟩
          rw [List.mem_singleton.mp hw]
          exact (hmerge.right.le_last r hm).trans_lt hyx
        have hlr' := hat'.lr
        have hrr' := hat'.rr
        rw [List.length_append, List.length_singleton] at hrr'
        rw [hs']
        show HiRuns key tmp out s (if s'.lr = 0 then _ else _)
        by_cases hzero : s'.lr = 0
        · rw [if_pos hzero]
          exact .stop hinv (by omega) (.inl hzero)
        · rw [if_neg hzero]
          split
          · exact (ih hinv (by omega) (by omega) (by omega)).trans (by omega)
          · exact .next hinv (by omega) (by omega)
      · rw [if_neg (not_lt.mpr hxy)]
        obtain ⟨s', G', post', hs', hat'⟩ := hat.hiRight (n := 1) rfl
        have hne : R ≠ [] := List.ne_nil_of_length_pos (by omega)
        have hinv : HiInv key tmp out s' := by
          refine ⟨_, _, _, _, _, hat', hmerge.takeRight hne fun l hm w hw => ?_⟩
          rw [List.mem_singleton.mp hw]
          exact (hmerge.left.le_last l hm).trans hxy
        have hlr' := hat'.lr
        have hrr' := hat'.rr
        rw [List.length_append, List.length_singleton] at hlr'
        rw [hs']
        show HiRuns key tmp out s (if s'.rr = 1 then _ else _)
        by_cases hone : s'.rr = 1
        · rw [if_pos hone]
          exact .stop hinv (by omega) (.inr hone)
        · rw [if_neg hone]
          split
          · exact (ih hinv (by omega) (by omega) (by omega)).trans (by omega)
          · exact .next hinv (by omega) (by omega)

theorem HiAt.stretchLeft {y : α} (hat : HiAt tmp s L G M (R ++ [y]) post)
    (hmerge : HiMerge key out M L (R ++ [y])) (hpos : 0 < L.length) :
    ∃ L' X s' G' M', L = L' ++ X ∧ s.hiStretchLeft key tmp = some (X.length, s')
      ∧ HiAt tmp s' L' G' M' (R ++ [y]) post ∧ HiMerge key out M' L' (R ++ [y])
      ∧ ∀ z ∈ L', key z ≤ key y := by
  obtain ⟨L', X, hL, hL', hX⟩ := hmerge.left.split_le (key y)
  have hleft : loadN s.arr 0 s.lr = some L := by
    rw [hat.arr, List.append_assoc]
    exact loadN_front hat.lr
  have hgallop : gallopRight key (key y) L (s.lr - 1) = some L'.length := by
    have hlr := hat.lr
    rw [hL] at hlr hpos ⊢
    exact gallopRight_spec hL' hX (by omega)
  have hcnt : s.lr - L'.length = X.length := by
    rw [hat.lr, hL, List.length_append, Nat.add_sub_cancel_left]
  have hrun : s.hiStretchLeft key tmp
      = if 0 < X.length then (s.hiLeft X.length).map (X.length, ·) else some (X.length, s) := by
    rw [MergeState.hiStretchLeft, hat.loadRight, Option.bind_eq_bind, Option.bind_some, hleft,
      Option.bind_eq_bind, Option.bind_some, hgallop, Option.bind_eq_bind, Option.bind_some, hcnt]
  rw [hL] at hat hmerge
  have hmerge' := hmerge.takeLeft fun x hx r hr =>
    (hmerge.right.le_last r hr).trans_lt (hX x hx)
  by_cases hzero : 0 < X.length
  · obtain ⟨s', G', hs', hat'⟩ := hat.hiLeft rfl
    exact ⟨L', X, s', G', _, hL, by rw [hrun, if_pos hzero, hs']; rfl, hat', hmerge', hL'⟩
  · have hnil := List.eq_nil_of_length_eq_zero (Nat.eq_zero_of_not_pos hzero)
    subst hnil
    rw [List.append_nil] at hat
    exact ⟨L', [], s, G, M, hL, by rw [hrun, if_neg hzero], hat, hmerge', hL'⟩

theorem HiAt.stretchRight {x : α} (hat : HiAt tmp s (L ++ [x]) G M R post)
    (hmerge : HiMerge key out M (L ++ [x]) R) :
    ∃ R' Y s' G' M' post', R = R' ++ Y ∧ s.hiStretchRight key tmp = some (Y.length, s')
      ∧ HiAt tmp s' (L ++ [x]) G' M' R' post' ∧ HiMerge key out M' (L ++ [x]) R'
      ∧ ∀ z ∈ R', key z < key x := by
  obtain ⟨R', Y, hR, hR', hY⟩ := hmerge.right.split_lt (key x)
  have hpos := List.length_pos_of_ne_nil hmerge.ne_nil
  have hright : loadN tmp 0 s.rr = some R := by
    rw [hat.tmp]
    exact loadN_front hat.rr
  have hgallop : gallopLeft key (key x) R (s.rr - 1) = some R'.length := by
    have hrr := hat.rr
    rw [hR] at hrr hpos ⊢
    exact gallopLeft_spec hR' hY (by omega)
  have hcnt : s.rr - R'.length = Y.length := by
    rw [hat.rr, hR, List.length_append, Nat.add_sub_cancel_left]
  have hrun : s.hiStretchRight key tmp
      = if 0 < Y.length then (s.hiRight tmp Y.length).map (Y.length, ·) else some (Y.length, s) := by
    rw [MergeState.hiStretchRight, hat.loadLeft, Option.bind_eq_bind, Option.bind_some, hright,
      Option.bind_eq_bind, Option.bind_some, hgallop, Option.bind_eq_bind, Option.bind_some, hcnt]
  rw [hR] at hat hmerge
  -- the smallest right element is smaller than `x`
  have hne : R' ≠ [] := by
    rintro rfl
    obtain ⟨z, R0, hz, hbottom⟩ := hmerge.bottom
    rw [List.nil_append] at hz
    have hzx := hbottom x (by simp)
    exact absurd (hY z (by rw [hz]; exact List.mem_cons_self)) (not_le.mpr hzx)
  have hmerge' := hmerge.takeRight hne fun l hl y hy =>
    (hmerge.left.le_last l hl).trans (hY y hy)
  by_cases hzero : 0 < Y.length
  · obtain ⟨s', G', post', hs', hat'⟩ := hat.hiRight rfl
    exact ⟨R', Y, s', G', _, post', hR, by rw [hrun, if_pos hzero, hs']; rfl, hat', hmerge', hR'⟩
  · have hnil := List.eq_nil_of_length_eq_zero (Nat.eq_zero_of_not_pos hzero)
    subst hnil
    rw [List.append_nil] at hat
    exact ⟨R', [], s, G, M, post, hR, by rw [hrun, if_neg hzero], hat, hmerge', hR'⟩

theorem mergeHiGallop_spec {n : Nat} {s : MergeState α}
    (h : HiInv key tmp out s) (hl : 0 < s.lr) (hr : 1 < s.rr) (hn : s.lr + s.rr < n) :
    HiRuns key tmp out s (mergeHiGallop key tmp n s) := by
  induction n generalizing s with
  | zero => exact absurd hn (Nat.not_lt_zero _)
  | succ n ih =>
      obtain ⟨L, G, M, R, post, hat, hmerge⟩ := h
      have hlr := hat.lr
      have hrr := hat.rr
      obtain ⟨R, y, rfl⟩ : ∃ R' y, R = R' ++ [y] := exists_concat (by omega)
      obtain ⟨L', X, s₁, G₁, M₁, hL, hs₁, hat₁, hmerge₁, hL'⟩ := hat.stretchLeft hmerge (by omega)
      have hlr₁ := hat₁.lr
      have hrr₁ := hat₁.rr
      rw [hL, List.length_append] at hlr
      rw [List.length_append, List.length_singleton] at hrr hrr₁
      rw [mergeHiGallop, hs₁]
      show HiRuns key tmp out s (if 0 < X.length ∧ s₁.lr = 0 then _ else _)
      by_cases hstop : 0 < X.length ∧ s₁.lr = 0
      · rw [if_pos hstop]
        exact .stop ⟨_, _, _, _, _, hat₁, hmerge₁⟩ (by omega) (.inl hstop.2)
      · rw [if_neg hstop]
        have hne : R ≠ [] := List.ne_nil_of_length_pos (by omega)
        obtain ⟨s₂, G₂, post₂, hs₂, hat₂⟩ := hat₁.hiRight (n := 1) rfl
        have hmerge₂ := hmerge₁.takeRight hne fun l hm w hw => by
          rw [List.mem_singleton.mp hw]
          exact hL' l hm
        have hlr₂ := hat₂.lr
        have hrr₂ := hat₂.rr
        rw [hs₂]
        show HiRuns key tmp out s (if s₂.rr = 1 then _ else _)
        by_cases hone : s₂.rr = 1
        · rw [if_pos hone]
          exact .stop ⟨_, _, _, _, _, hat₂, hmerge₂⟩ (by omega) (.inr hone)
        · rw [if_neg hone]
          obtain ⟨L', x, rfl⟩ := exists_concat (show 0 < L'.length by omega)
          obtain ⟨R', Y, s₃, G₃, M₃, post₃, hR, hs₃, hat₃, hmerge₃, hR'⟩ :=
            hat₂.stretchRight hmerge₂
          have hlr₃ := hat₃.lr
          have hrr₃ := hat₃.rr
          have hpos₃ := List.length_pos_of_ne_nil hmerge₃.ne_nil
          rw [hR, List.length_append] at hrr₂ hrr₁ hrr
          rw [hs₃]
          show HiRuns key tmp out s (if 0 < Y.length ∧ s₃.rr ≤ 1 then _ else _)
          by_cases hstop₃ : 0 < Y.length ∧ s₃.rr ≤ 1
          · rw [if_pos hstop₃]
            exact .stop ⟨_, _, _, _, _, hat₃, hmerge₃⟩ (by omega) (.inr (by omega))
          · rw [if_neg hstop₃]
            obtain ⟨s₄, G₄, hs₄, hat₄⟩ := hat₃.hiLeft (n := 1) rfl
            have hmerge₄ := hmerge₃.takeLeft fun w hw r hm => by
              rw [List.mem_singleton.mp hw]
              exact hR' r hm
            have hlr₄ := hat₄.lr
            have hrr₄ := hat₄.rr
            rw [List.length_append, List.length_singleton] at hlr hlr₁ hlr₂ hlr₃
            rw [hs₄]
            show HiRuns key tmp out s (if s₄.lr = 0 then _ else _)
            by_cases hzero : s₄.lr = 0
            · rw [if_pos hzero]
              exact .stop ⟨_, _, _, _, _, hat₄, hmerge₄⟩ (by omega) (.inl hzero)
            · rw [if_neg hzero]
              have hinv : HiInv key tmp out
                  { s₄ with minGallop := tuneGallop s₄.minGallop X.length Y.length } :=
                ⟨_, _, _, _, _, ⟨hat₄.1, hat₄.2, hat₄.3, hat₄.4, hat₄.5, hat₄.6, hat₄.7, hat₄.8⟩,
                  hmerge₄⟩
              show HiRuns key tmp out s (if keepGalloping X.length Y.length then _ else _)
              split
              · refine (ih hinv ?_ ?_ ?_).trans ?_
                all_goals dsimp only
                all_goals omega
              · refine .next hinv ?_ ?_
                all_goals dsimp only
                all_goals omega

theorem HiInv.room {s : MergeState α} (h : HiInv key tmp out s) :
    0 < s.rr ∧ s.lr + s.rr ≤ s.arr.length := by
  obtain ⟨L, G, M, R, post, hat, hmerge⟩ := h
  have hpos := List.length_pos_of_ne_nil hmerge.ne_nil
  have hgap := hat.gap
  rw [hat.lr, hat.rr, hat.arr, List.length_append, List.length_append]
  omega

theorem mergeHiLoop_spec {n : Nat} {s : MergeState α} (h : HiInv key tmp out s)
    (hn : s.lr + s.rr < n) :
    ∃ s', mergeHiLoop key tmp n s = some s' ∧ HiInv key tmp out s' ∧ (s'.lr = 0 ∨ s'.rr = 1) := by
  induction n generalizing s with
  | zero => exact absurd hn (Nat.not_lt_zero _)
  | succ n ih =>
      obtain ⟨hpos, hroom⟩ := h.room
      rw [mergeHiLoop]
      by_cases hmore : 0 < s.lr ∧ 1 < s.rr
      · rw [if_pos hmore]
        have hone : HiRuns key tmp out s (mergeHiOne key tmp (s.arr.length + 1) 0 0 s) :=
          mergeHiOne_spec h hmore.1 hmore.2 (Nat.lt_succ_of_le hroom)
        obtain ⟨done, s₁, hs₁, hinv₁, hless₁, hdone₁, hmore₁⟩ := hone
        rw [hs₁]
        cases done with
        | true => exact ⟨s₁, rfl, hinv₁, hdone₁ rfl⟩
        | false =>
            obtain ⟨hl₁, hr₁⟩ := hmore₁ rfl
            obtain ⟨done, s₂, hs₂, hinv₂, hless₂, hdone₂, -⟩ :=
              mergeHiGallop_spec hinv₁ hl₁ hr₁ (Nat.lt_succ_of_le hinv₁.room.2)
            show ∃ s', (mergeHiGallop key tmp (s₁.arr.length + 1) s₁).bind _ = some s' ∧ _
            rw [hs₂]
            cases done with
            | true => exact ⟨s₂, rfl, hinv₂, hdone₂ rfl⟩
            | false =>
                obtain ⟨L, G, M, R, post, hat, hmerge⟩ := hinv₂
                have hinv : HiInv key tmp out { s₂ with minGallop := s₂.minGallop + 1 } :=
                  ⟨L, G, M, R, post, ⟨hat.1, hat.2, hat.3, hat.4, hat.5, hat.6, hat.7, hat.8⟩,
                    hmerge⟩
                refine ih hinv ?_
                dsimp only
                omega
      · rw [if_neg hmore]
        exact ⟨s, rfl, h, by omega⟩

theorem mergeHiDone_spec {s : MergeState α} (h : HiInv key tmp out s)
    (hdone : s.lr = 0 ∨ s.rr = 1) : mergeHiDone tmp s = some out := by
  obtain ⟨L, G, M, R, post, hat, hmerge⟩ := h
  have hpos := List.length_pos_of_ne_nil hmerge.ne_nil
  rw [mergeHiDone]
  by_cases hone : s.rr = 1
  · rw [if_pos hone]
    obtain ⟨z, R0, hz, hbottom⟩ := hmerge.bottom
    have hR : R = [z] := by
      have hlen : R.length = 1 := hat.rr.symm.trans hone
      rw [hz, List.length_cons] at hlen
      rw [hz, List.eq_nil_of_length_eq_zero (Nat.succ.inj hlen)]
    subst hR
    have hout : out = z :: (L ++ M) := by
      have hfirst : mergeBy key ([] ++ L) [z] = mergeBy key [] [z] ++ L :=
        mergeBy_append_left_of_lt fun x hx y hy => by
          rw [List.mem_singleton.mp hy]
          exact hbottom x hx
      rw [List.nil_append, mergeBy_nil_left] at hfirst
      rw [hmerge.out, hfirst]
      rfl
    rw [← List.nil_append L] at hat
    obtain ⟨t, G', ht, hat'⟩ := hat.hiLeft (n := s.lr) (by rw [hat.lr, List.nil_append])
    have hz' : loadBelow tmp t.c2 = some z := hat'.loadRight (R := [])
    have hgap : G'.length = 1 := hat'.gap
    have hdest : t.dest = 1 := by rw [hat'.dest, hgap]; rfl
    rw [ht]
    show (loadBelow tmp t.c2).bind _ = _
    rw [hz']
    show storeBelow t.arr t.dest z = _
    rw [storeBelow_eq_storeN _ _ (by omega), hat'.arr, hdest, List.nil_append, hout]
    exact storeN_front hgap.symm
  · have hnil : L = [] := by
      refine List.eq_nil_of_length_eq_zero ?_
      rw [← hat.lr]
      omega
    subst hnil
    have hread : loadN tmp 0 s.rr = some R := by
      rw [hat.tmp]
      exact loadN_front hat.rr
    rw [if_neg hone, if_pos (by rw [hat.rr]; exact hpos), hread]
    show storeN s.arr 0 R = _
    rw [hat.arr, List.nil_append, hmerge.out, mergeBy_nil_left]
    exact storeN_front hat.gap.symm

/-- **`merge_hi` merges** runs whose smallest element is the right one's first. -/
theorem mergeHi_spec {cap minGallop : Nat} (hL : Ascending key L) (hR : Ascending key R)
    (hbottom : ∃ z R0, R = z :: R0 ∧ ∀ l ∈ L, key z < key l) (hcap : R.length ≤ cap) :
    ∃ g, mergeHi key cap L.length R.length minGallop (L ++ R) = some (mergeBy key L R, g) := by
  have hread : loadN (L ++ R) L.length R.length = some R := loadN_suffix rfl rfl
  have hinv : HiInv key R (mergeBy key L R)
      { arr := L ++ R, c1 := L.length, c2 := R.length, dest := L.length + R.length,
        lr := L.length, rr := R.length, minGallop } :=
    ⟨L, R, [], R, [], ⟨(List.append_nil _).symm, (List.append_nil _).symm, rfl, rfl, rfl, rfl, rfl,
      rfl⟩, hL, hR, hbottom, (List.append_nil _).symm⟩
  obtain ⟨s, hs, hinv', hdone⟩ := mergeHiLoop_spec (n := (L ++ R).length + 1) hinv
    (by rw [List.length_append]; exact Nat.lt_succ_self _)
  refine ⟨s.minGallop, ?_⟩
  rw [mergeHi, if_pos hcap, hread]
  show (mergeHiLoop key R ((L ++ R).length + 1) _).bind _ = _
  rw [hs]
  show (mergeHiDone R s).bind _ = _
  rw [mergeHiDone_spec hinv' hdone]
  rfl

/-! ## Two runs -/

/-- **`merge_pair` merges** two adjacent ascending runs, with scratch for the
shorter one. -/
theorem mergePair_spec {cap minGallop : Nat} (hL : Ascending key L) (hR : Ascending key R)
    (hcap : min L.length R.length ≤ cap) :
    ∃ g, mergePair key cap L.length R.length minGallop (L ++ R) = some (mergeBy key L R, g) := by
  rw [mergePair]
  by_cases hnil : L.length = 0 ∨ R.length = 0
  · rw [if_pos hnil]
    refine ⟨minGallop, ?_⟩
    rcases hnil with hnil | hnil
    · rw [List.eq_nil_of_length_eq_zero hnil, mergeBy_nil_left]
      rfl
    · rw [List.eq_nil_of_length_eq_zero hnil, mergeBy_nil_right, List.append_nil]
  · rw [if_neg hnil]
    obtain ⟨hl, hr⟩ := not_or.mp hnil
    obtain ⟨y, R0, hy⟩ := List.exists_cons_of_length_pos (Nat.pos_of_ne_zero hr)
    obtain ⟨L0, x, hx⟩ := exists_concat (Nat.pos_of_ne_zero hl)
    have hloady : load (L ++ R) L.length = some y := by
      rw [hy]
      exact load_append rfl
    have hreadL : loadN (L ++ R) 0 L.length = some L := loadN_front rfl
    -- the elements of the left run that are in place
    obtain ⟨L1, L2, hL12, hL1, hL2⟩ := hL.split_le (key y)
    have hk : gallopRight key (key y) L 0 = some L1.length := by
      have hpos := Nat.pos_of_ne_zero hl
      rw [hL12] at hpos ⊢
      exact gallopRight_spec hL1 hL2 hpos
    have hskip : L.length - L1.length = L2.length := by
      rw [hL12, List.length_append, Nat.add_sub_cancel_left]
    have hfront : mergeBy key L R = L1 ++ mergeBy key L2 R := by
      rw [hL12, hy]
      exact mergeBy_append_left hL1
    rw [hloady]
    show ∃ g, (loadN (L ++ R) 0 L.length).bind _ = _
    rw [hreadL]
    show ∃ g, (gallopRight key (key y) L 0).bind _ = _
    rw [hk]
    show ∃ g, (if L.length - L1.length = 0 then _ else _) = _
    rw [hskip]
    by_cases hdone : L2.length = 0
    · rw [if_pos hdone]
      refine ⟨minGallop, ?_⟩
      rw [hfront, List.eq_nil_of_length_eq_zero hdone, mergeBy_nil_left, hL12,
        List.eq_nil_of_length_eq_zero hdone, List.append_nil]
    · rw [if_neg hdone]
      have hne : L2 ≠ [] := List.ne_nil_of_length_pos (Nat.pos_of_ne_zero hdone)
      have hascL2 : Ascending key L2 := (hL12 ▸ hL).right
      -- the elements of the right run that are in place
      obtain ⟨R1, R2, hR12, hR1, hR2⟩ := hR.split_lt (key x)
      have hloadx : load (L ++ R) (L.length - 1) = some x := by
        rw [hx, List.append_assoc, List.length_append, List.length_singleton, Nat.add_sub_cancel]
        exact load_append rfl
      have hreadR : loadN (L ++ R) L.length R.length = some R := loadN_suffix rfl rfl
      have hhint : (if 0 < R.length then R.length - 1 else 0) < R.length := by
        rw [if_pos (Nat.pos_of_ne_zero hr)]
        exact Nat.sub_one_lt hr
      have hlen2 : gallopLeft key (key x) R (if 0 < R.length then R.length - 1 else 0)
          = some R1.length := by
        rw [hR12] at hhint ⊢
        exact gallopLeft_spec hR1 hR2 hhint
      obtain ⟨L3, hL3⟩ : ∃ L3, L2 = L3 ++ [x] := by
        obtain ⟨L3, w, hw⟩ := exists_concat (Nat.pos_of_ne_zero hdone)
        rw [hx, hw, ← List.append_assoc] at hL12
        have hlast := (List.append_inj' hL12 rfl).2
        rw [List.singleton_inj] at hlast
        exact ⟨L3, by rw [hw, hlast]⟩
      have hback : mergeBy key L2 R = mergeBy key L2 R1 ++ R2 := by
        rw [hR12]
        refine mergeBy_append_right_of_le fun l hl r hr => ?_
        exact ((hL3 ▸ hascL2).le_last l (hL3 ▸ hl)).trans (hR2 r hr)
      rw [hloadx]
      show ∃ g, (loadN (L ++ R) L.length R.length).bind _ = _
      rw [hreadR]
      show ∃ g, (gallopLeft key (key x) R _).bind _ = _
      rw [hlen2]
      show ∃ g, (if R1.length = 0 then _ else _) = _
      by_cases hzero : R1.length = 0
      · rw [if_pos hzero]
        refine ⟨minGallop, ?_⟩
        rw [hfront, hback, List.eq_nil_of_length_eq_zero hzero, mergeBy_nil_right, hL12, hR12,
          List.eq_nil_of_length_eq_zero hzero, List.append_assoc, List.nil_append]
      · rw [if_neg hzero]
        have hwindow : L ++ R = L1 ++ (L2 ++ R1) ++ R2 := by
          rw [hL12, hR12]
          simp only [List.append_assoc]
        have hreadW : loadN (L ++ R) L1.length (L2.length + R1.length) = some (L2 ++ R1) := by
          rw [hwindow]
          exact loadN_append rfl (List.length_append ..).symm
        have hfit : min L2.length R1.length ≤ cap := by
          have h1 := congrArg List.length hL12
          have h2 := congrArg List.length hR12
          rw [List.length_append] at h1 h2
          omega
        have hmerge : ∃ g, mergeShorter key cap L2.length R1.length minGallop (L2 ++ R1)
            = some (mergeBy key L2 R1, g) := by
          have hascR1 : Ascending key R1 := (hR12 ▸ hR).left
          rw [mergeShorter]
          by_cases hshort : L2.length ≤ R1.length
          · rw [if_pos hshort]
            exact mergeLo_spec hascL2 hascR1 ⟨L3, x, hL3, hR1⟩ (by omega)
          · rw [if_neg hshort]
            refine mergeHi_spec hascL2 hascR1 ?_ (by omega)
            obtain ⟨w, R3, hw⟩ := List.exists_cons_of_length_pos (Nat.pos_of_ne_zero hzero)
            rw [hR12, hw, List.cons_append, List.cons.injEq] at hy
            exact ⟨w, R3, hw, hy.1 ▸ hL2⟩
        obtain ⟨g, hg⟩ := hmerge
        refine ⟨g, ?_⟩
        show (loadN (L ++ R) L1.length (L2.length + R1.length)).bind _ = _
        rw [hreadW]
        show (mergeShorter key cap L2.length R1.length minGallop (L2 ++ R1)).bind _ = _
        rw [hg]
        show (storeN (L ++ R) L1.length (mergeBy key L2 R1)).bind _ = _
        rw [hwindow, storeN_append rfl (by rw [length_mergeBy, List.length_append]), hfront, hback]
        show some (_, g) = _
        rw [List.append_assoc]

end Montauk.Sort
