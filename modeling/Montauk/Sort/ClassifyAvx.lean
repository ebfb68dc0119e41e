import Montauk.Sort.Classify

/-!
# The classifier's vector loops

For `int64_t` the classifier first runs three loops over four lanes at a time,
for all equal, sorted and reversed, each finished by a scalar loop. They
look at every pair of neighbours (`avx2Neighbours_spec`), so the two paths agree,
with one exception: the vector loop takes any array without an ascent for
reversed, `count_runs` only one without ties (`subClassify_verdict`).
-/

namespace Montauk.Sort

/-! ## Lanes -/

/-- `__m256i`, as four lanes of 64 bits. -/
abbrev M256 := List Int64

/-- `_mm256_loadu_si256` -/
def loaduSi256 (arr : List Int64) (i : Nat) : Option M256 := loadN arr i 4

/-- `_mm256_cmpgt_epi64` -/
def cmpgtEpi64 (a b : M256) : M256 := List.zipWith (fun x y => if y < x then -1 else 0) a b

/-- `_mm256_movemask_epi8`: the highest bit of each byte. -/
def movemaskEpi8 (v : M256) : List Bool :=
  v.flatMap fun x => (List.range 8).map fun p => decide (0x80 ≤ byte64 x.toUInt64 p)

/-- `_mm256_set1_epi64x` -/
def set1Epi64x (x : Int64) : M256 := List.replicate 4 x

/-- `_mm256_xor_si256` -/
def xorSi256 (a b : M256) : M256 := List.zipWith (· ^^^ ·) a b

/-- `_mm256_testz_si256` -/
def testzSi256 (a b : M256) : Bool := (List.zipWith (· &&& ·) a b).all fun x => x == 0

/-! ## The three tests -/

/-- The vector loop over neighbours: whether it went through, and where it
ended. -/
def neighboursLoop (cmp : M256 → M256 → M256) (arr : List Int64) : Nat → Nat → Option (Bool × Nat)
  | 0, _ => none
  | fuel + 1, i =>
      if i + 4 < arr.length then do
        let prev ← loaduSi256 arr i
        let cur ← loaduSi256 arr (i + 1)
        if (movemaskEpi8 (cmp prev cur)).any id then some (false, i)
        else neighboursLoop cmp arr fuel (i + 4)
      else some (true, i)

def neighboursRest (bad : Int64 → Int64 → Bool) (arr : List Int64) : Nat → Nat → Option Bool
  | 0, _ => none
  | fuel + 1, j =>
      if j < arr.length then do
        let prev ← load arr (j - 1)
        let cur ← load arr j
        if bad prev cur then some false else neighboursRest bad arr fuel (j + 1)
      else some true

def avx2Neighbours (cmp : M256 → M256 → M256) (bad : Int64 → Int64 → Bool) (arr : List Int64) :
    Option Bool :=
  if arr.length ≤ 1 then some true
  else do
    let (through, i) ← neighboursLoop cmp arr (arr.length + 1) 0
    if through then neighboursRest bad arr (arr.length + 1) (if 0 < i then i else 1) else some false

def subAvx2IsSortedI64 (arr : List Int64) : Option Bool :=
  avx2Neighbours (fun prev cur => cmpgtEpi64 prev cur) (fun prev cur => decide (cur < prev)) arr

def subAvx2IsReversedI64 (arr : List Int64) : Option Bool :=
  avx2Neighbours (fun prev cur => cmpgtEpi64 cur prev) (fun prev cur => decide (prev < cur)) arr

/-- The vector loop of `sub_avx2_is_equal_i64`. -/
def equalLoop (ref : M256) (arr : List Int64) : Nat → Nat → Option (Bool × Nat)
  | 0, _ => none
  | fuel + 1, i =>
      if i + 4 ≤ arr.length then do
        let v ← loaduSi256 arr i
        let diff := xorSi256 v ref
        if testzSi256 diff diff then equalLoop ref arr fuel (i + 4) else some (false, i)
      else some (true, i)

def equalRest (first : Int64) (arr : List Int64) : Nat → Nat → Option Bool
  | 0, _ => none
  | fuel + 1, i =>
      if i < arr.length then do
        let x ← load arr i
        if x != first then some false else equalRest first arr fuel (i + 1)
      else some true

def subAvx2IsEqualI64 (arr : List Int64) : Option Bool :=
  if arr.length ≤ 1 then some true
  else do
    let first ← load arr 0
    let (through, i) ← equalLoop (set1Epi64x first) arr (arr.length + 1) 0
    if through then equalRest first arr (arr.length + 1) i else some false

/-- The block under `__AVX2__` of `sub_classify_core`. -/
def avx2Gate (flt : Floats) (arr : List Int64) : Option (Option (Profile flt.F)) :=
  let n := arr.length
  let p : Profile flt.F := { Profile.start flt n with runCount := 1, monoCount := 1, maxRunLen := n }
  if n < 8 then some none
  else do
    let first ← load arr 0
    let last ← load arr (n - 1)
    let equal ← (if first == last then subAvx2IsEqualI64 arr else some false)
    if equal then
      some (some { p with disorder := .sorted, lisLength := n, ldsLength := n, distinctEstimate := 1 })
    else do
      let sorted ← (if first ≤ last then subAvx2IsSortedI64 arr else some false)
      if sorted then do
        let distinct ← estimateDistinct (arr.map SubInt.value)
        some (some { p with
          disorder := .sorted, lisLength := n, ldsLength := 1, distinctEstimate := distinct })
      else do
        let reversed ← (if last ≤ first then subAvx2IsReversedI64 arr else some false)
        if reversed then do
          let distinct ← estimateDistinct (arr.map SubInt.value)
          some (some { p with
            disorder := .reversed, lisLength := 1, ldsLength := n, distinctEstimate := distinct,
            inversionRatio := flt.one })
        else some none

/-- `sub_classify_internal_i64`, as it is compiled with AVX2. -/
def subClassifyInternalI64 (flt : Floats) (arr : List Int64) : Option (Profile flt.F) :=
  subClassifyCore flt (avx2Gate flt) arr

variable {arr : List Int64} {cmp : M256 → M256 → M256} {bad : Int64 → Int64 → Bool}

/-! ## Neighbours -/

/-- The pair at `k`. -/
def PairOk (bad : Int64 → Int64 → Bool) (arr : List Int64) (k : Nat) : Prop :=
  ∀ x y, arr[k]? = some x → arr[k + 1]? = some y → bad x y = false

theorem isChain_iff_pairOk : arr.IsChain (fun x y => bad x y = false) ↔ ∀ k, PairOk bad arr k := by
  rw [List.isChain_iff_getElem]
  constructor
  · intro h k x y hx hy
    obtain ⟨hk, rfl⟩ := List.getElem?_eq_some_iff.mp hy
    obtain ⟨hk', rfl⟩ := List.getElem?_eq_some_iff.mp hx
    exact h k hk
  · intro h k hk
    exact h k _ _ (List.getElem?_eq_getElem (by omega)) (List.getElem?_eq_getElem hk)

theorem movemask_cmpgt (a b : M256) :
    (movemaskEpi8 (cmpgtEpi64 a b)).any id = (List.zipWith (fun x y => decide (y < x)) a b).any id := by
  have hones : ((List.range 8).map fun p => decide (0x80 ≤ byte64 (-1 : Int64).toUInt64 p)).any id
      = true := by decide
  have hzeros : ((List.range 8).map fun p => decide (0x80 ≤ byte64 (0 : Int64).toUInt64 p)).any id
      = false := by decide
  rw [movemaskEpi8, cmpgtEpi64]
  induction a generalizing b with
  | nil => rfl
  | cons x a ih =>
      cases b with
      | nil => rfl
      | cons y b =>
          rw [List.zipWith_cons_cons, List.zipWith_cons_cons, List.flatMap_cons, List.any_append, ih,
            List.any_cons]
          by_cases hlt : y < x
          · rw [if_pos hlt, hones, decide_eq_true hlt]
            rfl
          · rw [if_neg hlt, hzeros, decide_eq_false hlt]
            rfl

/-- The lanes at `i` and `i + 1` hold the pairs from `i` to `i + 3`. -/
theorem zipWith_lanes (i : Nat) :
    (List.zipWith bad ((arr.drop i).take 4) ((arr.drop (i + 1)).take 4)).any id = true
      ↔ ∃ k, k < 4 ∧ ¬ PairOk bad arr (i + k) := by
  rw [List.any_eq_true]
  constructor
  · rintro ⟨b, hb, htrue⟩
    obtain ⟨k, hk⟩ := List.mem_iff_getElem?.mp hb
    obtain ⟨x, y, hx, hy, rfl⟩ := List.getElem?_zipWith_eq_some.mp hk
    have hk4 : k < 4 := by
      have hlen := (List.getElem?_eq_some_iff.mp hx).1
      rw [List.length_take] at hlen
      omega
    rw [List.getElem?_take_of_lt hk4, List.getElem?_drop] at hx hy
    refine ⟨k, hk4, fun hok => ?_⟩
    have hnext : i + k + 1 = i + 1 + k := by omega
    have hfalse := hok x y hx (by rw [hnext, hy])
    rw [id, hfalse] at htrue
    exact Bool.false_ne_true htrue
  · rintro ⟨k, hk4, hbad⟩
    have hex : ∃ x y, arr[i + k]? = some x ∧ arr[i + k + 1]? = some y ∧ bad x y = true := by
      by_contra hnone
      refine hbad fun x y hx hy => Bool.eq_false_iff.mpr fun htrue => hnone ⟨x, y, hx, hy, htrue⟩
    obtain ⟨x, y, hx, hy, htrue⟩ := hex
    have hnext : i + k + 1 = i + 1 + k := by omega
    refine ⟨bad x y, List.mem_iff_getElem?.mpr ⟨k, List.getElem?_zipWith_eq_some.mpr ?_⟩, htrue⟩
    rw [List.getElem?_take_of_lt hk4, List.getElem?_take_of_lt hk4, List.getElem?_drop,
      List.getElem?_drop, ← hnext]
    exact ⟨x, y, hx, hy, rfl⟩

/-- The vector loop stops at a bad pair, or has seen all pairs in front of the
place it ends at. -/
theorem neighboursLoop_spec (arr : List Int64)
    (hcmp : ∀ a b, (movemaskEpi8 (cmp a b)).any id = (List.zipWith bad a b).any id)
    (fuel i : Nat) (hfuel : 0 < fuel) (hroom : arr.length < fuel + i)
    (hseen : ∀ k, k < i → PairOk bad arr k) :
    ∃ through j, neighboursLoop cmp arr fuel i = some (through, j) ∧
      (through = true → ∀ k, k < j → PairOk bad arr k) ∧
      (through = false → ¬ ∀ k, PairOk bad arr k) := by
  induction fuel generalizing i with
  | zero => exact absurd hfuel (Nat.lt_irrefl 0)
  | succ fuel ih =>
      rw [neighboursLoop]
      by_cases hi : i + 4 < arr.length
      · have hprev : loaduSi256 arr i = some ((arr.drop i).take 4) := if_pos (by omega)
        have hcur : loaduSi256 arr (i + 1) = some ((arr.drop (i + 1)).take 4) := if_pos (by omega)
        rw [if_pos hi, hprev, Option.bind_eq_bind, Option.bind_some, hcur, Option.bind_some, hcmp]
        by_cases hlane : (List.zipWith bad ((arr.drop i).take 4) ((arr.drop (i + 1)).take 4)).any id = true
        · rw [if_pos hlane]
          obtain ⟨k, -, hbad⟩ := (zipWith_lanes i).mp hlane
          exact ⟨false, i, rfl, nofun, fun _ hall => hbad (hall (i + k))⟩
        · rw [if_neg hlane]
          refine ih (i + 4) (by omega) (by omega) fun k hk => ?_
          by_cases hki : k < i
          · exact hseen k hki
          · by_contra hbad
            refine hlane ((zipWith_lanes i).mpr ⟨k - i, by omega, ?_⟩)
            rwa [Nat.add_sub_cancel' (Nat.le_of_not_lt hki)]
      · rw [if_neg hi]
        exact ⟨true, i, rfl, fun _ => hseen, nofun⟩

theorem neighboursRest_spec (fuel j : Nat) (hj : 0 < j) (hfuel : 0 < fuel)
    (hroom : arr.length < fuel + j) (hseen : ∀ k, k + 1 < j → PairOk bad arr k) :
    ∃ ok, neighboursRest bad arr fuel j = some ok ∧ (ok = true ↔ ∀ k, PairOk bad arr k) := by
  induction fuel generalizing j with
  | zero => exact absurd hfuel (Nat.lt_irrefl 0)
  | succ fuel ih =>
      rw [neighboursRest]
      by_cases hlt : j < arr.length
      · have hprev : load arr (j - 1) = some arr[j - 1] := load_of_lt (by omega)
        rw [if_pos hlt, hprev, Option.bind_eq_bind, Option.bind_some, load_of_lt hlt, Option.bind_some]
        have hback : j - 1 + 1 = j := Nat.sub_add_cancel hj
        have hcur : arr[j - 1 + 1]? = some arr[j] := by
          rw [hback]
          exact load_of_lt hlt
        by_cases hbad : bad arr[j - 1] arr[j] = true
        · rw [if_pos hbad]
          refine ⟨false, rfl, iff_of_false nofun fun hall => ?_⟩
          rw [hall (j - 1) _ _ hprev hcur] at hbad
          exact Bool.false_ne_true hbad
        · rw [if_neg hbad]
          refine ih (j + 1) (by omega) (by omega) (by omega) fun k hk => ?_
          by_cases hkj : k + 1 < j
          · exact hseen k hkj
          · obtain rfl : k = j - 1 := by omega
            intro x y hx hy
            obtain rfl := Option.some.inj (hprev.symm.trans hx)
            obtain rfl := Option.some.inj (hcur.symm.trans hy)
            exact Bool.eq_false_iff.mpr hbad
      · rw [if_neg hlt]
        refine ⟨true, rfl, iff_of_true rfl fun k x y hx hy => ?_⟩
        have hk := (List.getElem?_eq_some_iff.mp hy).1
        exact hseen k (by omega) x y hx hy

theorem avx2Neighbours_spec
    (hcmp : ∀ a b, (movemaskEpi8 (cmp a b)).any id = (List.zipWith bad a b).any id) (arr : List Int64) :
    ∃ ok, avx2Neighbours cmp bad arr = some ok ∧
      (ok = true ↔ arr.IsChain fun x y => bad x y = false) := by
  rw [avx2Neighbours]
  by_cases hlen : arr.length ≤ 1
  · rw [if_pos hlen]
    refine ⟨true, rfl, iff_of_true rfl (isChain_iff_pairOk.mpr fun k x y _ hy => ?_)⟩
    have := (List.getElem?_eq_some_iff.mp hy).1
    omega
  · rw [if_neg hlen, isChain_iff_pairOk]
    obtain ⟨through, i, hloop, hok, hbad⟩ := neighboursLoop_spec arr hcmp (arr.length + 1) 0
      (Nat.succ_pos _) (by omega) fun k hk => absurd hk (Nat.not_lt_zero k)
    rw [hloop, Option.bind_eq_bind, Option.bind_some]
    cases through with
    | false => exact ⟨false, rfl, iff_of_false nofun (hbad rfl)⟩
    | true =>
        refine neighboursRest_spec (arr.length + 1) _ ?_ (Nat.succ_pos _) (by omega) fun k hk => ?_
        · split <;> omega
        · refine hok rfl k ?_
          split at hk <;> omega

theorem subAvx2IsSortedI64_spec (arr : List Int64) :
    ∃ ok, subAvx2IsSortedI64 arr = some ok ∧ (ok = true ↔ arr.IsChain fun x y => x ≤ y) := by
  obtain ⟨ok, hrun, hok⟩ := avx2Neighbours_spec movemask_cmpgt arr
  refine ⟨ok, hrun, hok.trans ?_⟩
  exact List.IsChain.iff fun x y => decide_eq_false_iff_not.trans Int64.not_lt

theorem subAvx2IsReversedI64_spec (arr : List Int64) :
    ∃ ok, subAvx2IsReversedI64 arr = some ok ∧ (ok = true ↔ arr.IsChain fun x y => y ≤ x) := by
  have hcmp : ∀ a b : M256, (movemaskEpi8 (cmpgtEpi64 b a)).any id
      = (List.zipWith (fun prev cur : Int64 => decide (prev < cur)) a b).any id := by
    intro a b
    rw [movemask_cmpgt, List.zipWith_comm]
  obtain ⟨ok, hrun, hok⟩ := avx2Neighbours_spec hcmp arr
  refine ⟨ok, hrun, hok.trans ?_⟩
  exact List.IsChain.iff fun x y => decide_eq_false_iff_not.trans Int64.not_lt

/-! ## All equal -/

theorem testz_xor (first : Int64) (v : M256) {m : Nat} (h : v.length ≤ m) :
    testzSi256 (xorSi256 v (List.replicate m first)) (xorSi256 v (List.replicate m first)) = true
      ↔ ∀ x ∈ v, x = first := by
  induction v generalizing m with
  | nil => exact iff_of_true rfl fun x hx => absurd hx List.not_mem_nil
  | cons x v ih =>
      obtain ⟨m, rfl⟩ : ∃ m', m = m' + 1 := ⟨m - 1, by rw [List.length_cons] at h; omega⟩
      have hrest := ih (Nat.le_of_succ_le_succ h)
      rw [testzSi256, xorSi256] at hrest ⊢
      rw [List.replicate_succ, List.zipWith_cons_cons, List.zipWith_cons_cons, List.all_cons,
        Bool.and_eq_true, hrest, Int64.and_self, beq_iff_eq, Int64.xor_eq_zero_iff, List.forall_mem_cons]

theorem equalLoop_spec (arr : List Int64) (first : Int64) (fuel i : Nat) (hfuel : 0 < fuel)
    (hroom : arr.length < fuel + i) (hseen : ∀ k x, k < i → arr[k]? = some x → x = first) :
    ∃ through j, equalLoop (set1Epi64x first) arr fuel i = some (through, j) ∧
      (through = true → ∀ k x, k < j → arr[k]? = some x → x = first) ∧
      (through = false → ¬ ∀ x ∈ arr, x = first) := by
  induction fuel generalizing i with
  | zero => exact absurd hfuel (Nat.lt_irrefl 0)
  | succ fuel ih =>
      rw [equalLoop]
      by_cases hi : i + 4 ≤ arr.length
      · have hv : loaduSi256 arr i = some ((arr.drop i).take 4) := if_pos hi
        have hlen : ((arr.drop i).take 4).length ≤ 4 := List.length_take_le _ _
        rw [if_pos hi, hv, Option.bind_eq_bind, Option.bind_some, set1Epi64x]
        dsimp only
        by_cases hz : testzSi256 (xorSi256 ((arr.drop i).take 4) (List.replicate 4 first))
            (xorSi256 ((arr.drop i).take 4) (List.replicate 4 first)) = true
        · rw [if_pos hz]
          refine ih (i + 4) (by omega) (by omega) fun k x hk hx => ?_
          by_cases hki : k < i
          · exact hseen k x hki hx
          · refine (testz_xor first _ hlen).mp hz x (List.mem_iff_getElem?.mpr ⟨k - i, ?_⟩)
            rw [List.getElem?_take_of_lt (by omega), List.getElem?_drop,
              Nat.add_sub_cancel' (Nat.le_of_not_lt hki), hx]
        · rw [if_neg hz]
          refine ⟨false, i, rfl, nofun, fun _ hall => hz ((testz_xor first _ hlen).mpr fun x hx => ?_)⟩
          exact hall x (List.mem_of_mem_drop (List.mem_of_mem_take hx))
      · rw [if_neg hi]
        exact ⟨true, i, rfl, fun _ => hseen, nofun⟩

theorem equalRest_spec (first : Int64) (fuel i : Nat) (hfuel : 0 < fuel)
    (hroom : arr.length < fuel + i) (hseen : ∀ k x, k < i → arr[k]? = some x → x = first) :
    ∃ ok, equalRest first arr fuel i = some ok ∧ (ok = true ↔ ∀ x ∈ arr, x = first) := by
  induction fuel generalizing i with
  | zero => exact absurd hfuel (Nat.lt_irrefl 0)
  | succ fuel ih =>
      rw [equalRest]
      by_cases hlt : i < arr.length
      · rw [if_pos hlt, load_of_lt hlt, Option.bind_eq_bind, Option.bind_some]
        by_cases hne : arr[i] = first
        · rw [if_neg (by rw [hne, bne_self_eq_false]; exact Bool.false_ne_true)]
          refine ih (i + 1) (by omega) (by omega) fun k x hk hx => ?_
          by_cases hki : k < i
          · exact hseen k x hki hx
          · obtain rfl : k = i := by omega
            obtain ⟨_, rfl⟩ := List.getElem?_eq_some_iff.mp hx
            exact hne
        · rw [if_pos (bne_iff_ne.mpr hne)]
          exact ⟨false, rfl, iff_of_false nofun fun hall => hne (hall _ (List.getElem_mem hlt))⟩
      · rw [if_neg hlt]
        refine ⟨true, rfl, iff_of_true rfl fun x hx => ?_⟩
        obtain ⟨k, hk⟩ := List.mem_iff_getElem?.mp hx
        have hkl := (List.getElem?_eq_some_iff.mp hk).1
        exact hseen k x (by omega) hk

theorem subAvx2IsEqualI64_spec (arr : List Int64) :
    ∃ ok, subAvx2IsEqualI64 arr = some ok ∧ (ok = true ↔ ∀ x ∈ arr, arr.head? = some x) := by
  rw [subAvx2IsEqualI64]
  cases arr with
  | nil => exact ⟨true, rfl, iff_of_true rfl fun x hx => absurd hx List.not_mem_nil⟩
  | cons first rest =>
      have hhead : (∀ x ∈ first :: rest, (first :: rest).head? = some x)
          ↔ ∀ x ∈ first :: rest, x = first := by
        refine forall₂_congr fun x _ => ?_
        rw [List.head?_cons, Option.some_inj]
        exact eq_comm
      rw [hhead]
      by_cases hlen : (first :: rest).length ≤ 1
      · rw [if_pos hlen]
        obtain rfl : rest = [] := List.length_eq_zero_iff.mp (by rw [List.length_cons] at hlen; omega)
        exact ⟨true, rfl, iff_of_true rfl fun x hx => List.mem_singleton.mp hx⟩
      · have hfirst : load (first :: rest) 0 = some first := rfl
        obtain ⟨through, i, hloop, hok, hbad⟩ := equalLoop_spec (first :: rest) first
          ((first :: rest).length + 1) 0 (Nat.succ_pos _) (by omega)
          fun k x hk => absurd hk (Nat.not_lt_zero k)
        rw [if_neg hlen, hfirst, Option.bind_eq_bind, Option.bind_some, hloop]
        cases through with
        | false => exact ⟨false, rfl, iff_of_false nofun (hbad rfl)⟩
        | true => exact equalRest_spec first _ i (Nat.succ_pos _) (by omega) (hok rfl)

/-! ## The verdict -/

/-- The first element and the last of an array without a descent. -/
theorem first_le_last (h : arr.IsChain fun x y => x ≤ y) (hlen : 0 < arr.length) :
    arr[0] ≤ arr[arr.length - 1] := by
  have : Trans (fun x y : Int64 => x ≤ y) (fun x y => x ≤ y) (fun x y => x ≤ y) :=
    ⟨fun hxy hyz => Int64.le_trans hxy hyz⟩
  have hpair := List.pairwise_iff_getElem.mp h.pairwise
  rcases Nat.eq_zero_or_pos (arr.length - 1) with hone | hpos
  · simp only [hone]
    exact Int64.le_refl _
  · exact hpair 0 (arr.length - 1) hlen (by omega) hpos

theorem last_le_first (h : arr.IsChain fun x y => y ≤ x) (hlen : 0 < arr.length) :
    arr[arr.length - 1] ≤ arr[0] := by
  have : Trans (fun x y : Int64 => y ≤ x) (fun x y => y ≤ x) (fun x y => y ≤ x) :=
    ⟨fun hyx hzy => Int64.le_trans hzy hyx⟩
  have hpair := List.pairwise_iff_getElem.mp h.pairwise
  rcases Nat.eq_zero_or_pos (arr.length - 1) with hone | hpos
  · simp only [hone]
    exact Int64.le_refl _
  · exact hpair 0 (arr.length - 1) hlen (by omega) hpos

theorem guarded_test {c P : Prop} [Decidable c] {test : Option Bool}
    (h : ∃ ok, test = some ok ∧ (ok = true ↔ P)) (hc : P → c) :
    ∃ ok, (if c then test else some false) = some ok ∧ (ok = true ↔ P) := by
  by_cases hguard : c
  · rw [if_pos hguard]
    exact h
  · rw [if_neg hguard]
    exact ⟨false, rfl, iff_of_false nofun fun hP => hguard (hc hP)⟩

theorem isChain_of_equal (h : ∀ x ∈ arr, arr.head? = some x) : arr.IsChain fun x y => x ≤ y := by
  refine List.isChain_iff_getElem.mpr fun i hi => ?_
  have heq := (h _ (List.getElem_mem (by omega : i < arr.length))).symm.trans (h _ (List.getElem_mem hi))
  rw [Option.some.inj heq]
  exact Int64.le_refl _

/-- The block's verdicts; the guards on the ends of the array let all of them
pass. -/
theorem avx2Gate_spec (flt : Floats) (h : 8 ≤ arr.length) : ∃ done, avx2Gate flt arr = some done ∧
    ((arr.IsChain fun x y => x ≤ y) → ∃ p, done = some p ∧ p.disorder = .sorted) ∧
    (¬ (arr.IsChain fun x y => x ≤ y) → (arr.IsChain fun x y => y ≤ x) →
      ∃ p, done = some p ∧ p.disorder = .reversed) ∧
    (¬ (arr.IsChain fun x y => x ≤ y) → ¬ (arr.IsChain fun x y => y ≤ x) → done = none) := by
  have hlen : 0 < arr.length := by omega
  have hfirst : load arr 0 = some arr[0] := load_of_lt hlen
  have hlast : load arr (arr.length - 1) = some arr[arr.length - 1] := load_of_lt (by omega)
  obtain ⟨distinct, hdistinct⟩ := estimateDistinct_returns
    (by rw [List.length_map]; exact hlen : 0 < (arr.map SubInt.value).length)
  obtain ⟨equal, hequal, hequal_iff⟩ := guarded_test (c := (arr[0] == arr[arr.length - 1]) = true)
    (subAvx2IsEqualI64_spec arr) fun hall => by
      have hends := (hall _ (List.getElem_mem hlen)).symm.trans
        (hall _ (List.getElem_mem (by omega : arr.length - 1 < arr.length)))
      rw [Option.some.inj hends, beq_self_eq_true]
  obtain ⟨sorted, hsorted, hsorted_iff⟩ := guarded_test (c := arr[0] ≤ arr[arr.length - 1])
    (subAvx2IsSortedI64_spec arr) fun hchain => first_le_last hchain hlen
  obtain ⟨reversed, hreversed, hreversed_iff⟩ := guarded_test (c := arr[arr.length - 1] ≤ arr[0])
    (subAvx2IsReversedI64_spec arr) fun hchain => last_le_first hchain hlen
  rw [avx2Gate]
  dsimp only
  rw [if_neg (by omega), hfirst, Option.bind_eq_bind, Option.bind_some, hlast, Option.bind_some]
  simp only [hequal, hsorted, hreversed, hdistinct, Option.bind_eq_bind, Option.bind_some]
  cases equal with
  | true =>
      have hchain := isChain_of_equal (hequal_iff.mp rfl)
      exact ⟨_, rfl, fun _ => ⟨_, rfl, rfl⟩, fun hnot => absurd hchain hnot, fun hnot => absurd hchain hnot⟩
  | false =>
      cases sorted with
      | true =>
          have hchain := hsorted_iff.mp rfl
          exact ⟨_, rfl, fun _ => ⟨_, rfl, rfl⟩, fun hnot => absurd hchain hnot,
            fun hnot => absurd hchain hnot⟩
      | false =>
          have hnot : ¬ arr.IsChain fun x y => x ≤ y := fun hchain =>
            Bool.false_ne_true (hsorted_iff.mpr hchain)
          cases reversed with
          | true =>
              have hchain := hreversed_iff.mp rfl
              exact ⟨_, rfl, fun hchain' => absurd hchain' hnot, fun _ _ => ⟨_, rfl, rfl⟩,
                fun _ hnot' => absurd hchain hnot'⟩
          | false =>
              have hnot' : ¬ arr.IsChain fun x y => y ≤ x := fun hchain =>
                Bool.false_ne_true (hreversed_iff.mpr hchain)
              exact ⟨_, rfl, fun hchain' => absurd hchain' hnot, fun _ hchain => absurd hchain hnot',
                fun _ _ => rfl⟩

/-- No ascent, but not only descents, and not all equal. -/
structure TiedDescent (arr : List Int64) : Prop where
  descends : arr.IsChain fun x y => y ≤ x
  tie : ¬ arr.IsChain fun x y => y < x
  uneven : ¬ arr.IsChain fun x y => x ≤ y

theorem classifyRuns_value (flt : Floats) (h : 2 ≤ arr.length) :
    ∃ p, classifyRuns flt (arr.map SubInt.value) = some p ∧
      (p.disorder = .sorted ↔ arr.IsChain fun x y => x ≤ y) ∧
      (p.disorder = .reversed ↔ arr.IsChain fun x y => y < x) := by
  obtain ⟨p, hrun, hsorted, hreversed, -⟩ := classifyRuns_spec flt
    (by rw [List.length_map]; exact h : 2 ≤ (arr.map SubInt.value).length)
  refine ⟨p, hrun, hsorted.trans ?_, hreversed.trans ?_⟩
  · rw [List.isChain_map]
    exact List.IsChain.iff fun x y => Int64.le_iff_toInt_le.symm
  · rw [List.isChain_map]
    exact List.IsChain.iff fun x y => Int64.lt_iff_toInt_lt.symm

/-- The two paths agree except on a descent with ties, which only the vector
path calls reversed. -/
theorem subClassify_disorder_eq_iff (flt : Floats) (arr : List Int64) :
    ∃ p q, subClassifyInternalI64 flt arr = some p ∧ subClassifyInternal flt arr = some q ∧
      (p.disorder = q.disorder ↔ ¬ (8 ≤ arr.length ∧ TiedDescent arr)) ∧
      (8 ≤ arr.length ∧ TiedDescent arr → p.disorder = .reversed ∧ q.disorder ≠ .reversed) := by
  -- where the verdicts are the same there is no exception
  have hsame : ∀ {p q : Profile flt.F}, p.disorder = q.disorder → ¬ (8 ≤ arr.length ∧ TiedDescent arr) →
      (p.disorder = q.disorder ↔ ¬ (8 ≤ arr.length ∧ TiedDescent arr)) ∧
        (8 ≤ arr.length ∧ TiedDescent arr → p.disorder = .reversed ∧ q.disorder ≠ .reversed) :=
    fun heq hnot => ⟨iff_of_true heq hnot, fun h => absurd h hnot⟩
  rw [subClassifyInternalI64, subClassifyInternal, subClassifyCore, subClassifyCore]
  by_cases hshort : arr.length ≤ 1
  · rw [if_pos hshort, if_pos hshort]
    exact ⟨_, _, rfl, rfl, hsame rfl fun h => by omega⟩
  · rw [if_neg hshort, if_neg hshort]
    obtain ⟨q, hq, hsorted, hreversed⟩ := classifyRuns_value flt (by omega : 2 ≤ arr.length)
    by_cases h8 : 8 ≤ arr.length
    · obtain ⟨done, hgate, hdone_sorted, hdone_reversed, hdone_none⟩ := avx2Gate_spec flt h8
      rw [hgate]
      by_cases hup : arr.IsChain fun x y => x ≤ y
      · obtain ⟨p, rfl, hp⟩ := hdone_sorted hup
        exact ⟨p, q, rfl, hq, hsame (by rw [hp, hsorted.mpr hup]) fun h => h.2.uneven hup⟩
      · by_cases hdown : arr.IsChain fun x y => y ≤ x
        · obtain ⟨p, rfl, hp⟩ := hdone_reversed hup hdown
          refine ⟨p, q, rfl, hq, ?_, fun h => ⟨hp, fun hrev => h.2.tie (hreversed.mp hrev)⟩⟩
          rw [hp, eq_comm, hreversed]
          exact ⟨fun hstrict h => h.2.tie hstrict,
            fun hnot => by_contra fun htie => hnot ⟨h8, hdown, htie, hup⟩⟩
        · rw [hdone_none hup hdown]
          exact ⟨q, q, hq, hq, hsame rfl fun h => hdown h.2.descends⟩
    · have hgate : avx2Gate flt arr = some none := if_pos (by omega)
      rw [hgate]
      exact ⟨q, q, hq, hq, hsame rfl fun h => h8 h.1⟩

/-- Whatever the floating-point operations are, and for every array: the vector
loops look at every pair of neighbours, and the two paths give the same verdict,
except for eight elements or more without an ascent that are not all equal but
have a tie: these are reversed on the vector path and not on the scalar one. -/
theorem subClassify_verdict (flt : Floats) (arr : List Int64) :
    (∃ ok, subAvx2IsSortedI64 arr = some ok ∧ (ok = true ↔ arr.IsChain fun x y => x ≤ y)) ∧
    (∃ ok, subAvx2IsReversedI64 arr = some ok ∧ (ok = true ↔ arr.IsChain fun x y => y ≤ x)) ∧
    (∃ ok, subAvx2IsEqualI64 arr = some ok ∧ (ok = true ↔ ∀ x ∈ arr, arr.head? = some x)) ∧
    ∃ p q, subClassifyInternalI64 flt arr = some p ∧ subClassifyInternal flt arr = some q ∧
      (p.disorder = q.disorder ↔ ¬ (8 ≤ arr.length ∧ TiedDescent arr)) ∧
      (8 ≤ arr.length ∧ TiedDescent arr → p.disorder = .reversed ∧ q.disorder ≠ .reversed) :=
  ⟨subAvx2IsSortedI64_spec arr, subAvx2IsReversedI64_spec arr, subAvx2IsEqualI64_spec arr,
    subClassify_disorder_eq_iff flt arr⟩

/-- Eight elements with a tie. -/
theorem not_sameVerdict_tie :
    ¬ ∃ (flt : Floats) (p q : Profile flt.F),
      subClassifyInternalI64 flt [7, 6, 5, 4, 3, 2, 1, 1] = some p ∧
      subClassifyInternal flt ([7, 6, 5, 4, 3, 2, 1, 1] : List Int64) = some q ∧
      p.disorder = q.disorder := by
  rintro ⟨flt, p, q, hp, hq, heq⟩
  obtain ⟨p', q', hp', hq', hiff, -⟩ := subClassify_disorder_eq_iff flt [7, 6, 5, 4, 3, 2, 1, 1]
  obtain rfl := Option.some.inj (hp.symm.trans hp')
  obtain rfl := Option.some.inj (hq.symm.trans hq')
  refine hiff.mp heq ⟨Nat.le_refl 8, ?_⟩
  exact ⟨by decide, by decide, by decide⟩

end Montauk.Sort
