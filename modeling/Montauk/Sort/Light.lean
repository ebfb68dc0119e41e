import Montauk.Sort.Heap
import Montauk.Sort.Hoare
import Montauk.Sort.Insertion
import Montauk.Sort.Words

/-!
# The light sorts

`light_sort` is the quicksort for arrays that are nearly in order but for a few
long jumps: median of three, insertion sort up to 24 elements, heapsort when the
depth is used up. A part of the array is a pointer and a length, so that every
index of a call is relative to its part; the recursion works on windows here.

`binary_isort` inserts by a binary search, except behind an element that is not
larger. Both sort any array (`lightSort_spec`, `binaryIsort_spec`).
-/

namespace Montauk.Sort

variable {α : Type} [SubInt α]

def lightInsertionSort (arr : List α) : Option (List α) :=
  insertionSort (fun x key => decide (SubInt.value key < SubInt.value x)) arr

/-- `light_heapsort`, with `light_siftdown`. -/
def lightHeapsort (arr : List α) : Option (List α) :=
  heapSort (fun x y => decide (SubInt.value x < SubInt.value y)) 0 (arr.length - 1) arr

/-- `if (arr[x] > arr[y]) SUB_SWAP(arr[x], arr[y])` -/
def lightOrder (x y : Int) (arr : List α) : Option (List α) := do
  let s ← cell arr x
  let t ← cell arr y
  if SubInt.value t < SubInt.value s then exchange arr x y else some arr

/-- The partition of a round: where the parts end and start, and the array. -/
def lightPartition (arr : List α) : Option (Int × Int × List α) := do
  let mid : Int := arr.length / 2
  let last : Int := arr.length - 1
  let arr ← lightOrder 0 mid arr
  let arr ← lightOrder mid last arr
  let arr ← lightOrder 0 mid arr
  let pivot ← cell arr mid
  partitionLoop true (fun x => decide (SubInt.value x < SubInt.value pivot))
    (fun x => decide (SubInt.value pivot < SubInt.value x)) 0 last (arr.length + 3) 0 last arr

/-- `light_qsort`; a round of its loop is a call here. -/
def lightQsort : Nat → Nat → List α → Option (List α)
  | 0, _, _ => none
  | fuel + 1, depth, arr =>
      if arr.length ≤ 24 then lightInsertionSort arr
      else if depth = 0 then lightHeapsort arr
      else do
        let n := arr.length
        let (i, j, arr) ← lightPartition arr
        let left := (j + 1).toNat
        let start := i.toNat
        if left < n - start then do
          let arr ← onWindow arr 0 left (lightQsort fuel (depth - 1))
          onWindow arr start (n - start) (lightQsort fuel (depth - 1))
        else do
          let arr ← onWindow arr start (n - start) (lightQsort fuel (depth - 1))
          onWindow arr 0 left (lightQsort fuel (depth - 1))

def lightSort (arr : List α) : Option (List α) :=
  lightQsort (arr.length + 1) (2 * Nat.log2 arr.length) arr

/-- One round of `binary_isort`: nothing to do behind an element that is not
larger. -/
def binaryIsortStep (i : Nat) (arr : List α) : Option (List α) := do
  let key ← load arr i
  let prev ← loadBelow arr i
  if SubInt.value prev ≤ SubInt.value key then some arr else binaryInsert SubInt.value i arr

def binaryIsort (arr : List α) : Option (List α) := insertSteps binaryIsortStep (arr.length - 1) 1 arr

/-! ## Quicksort -/

variable {arr a b : List α} {x y : Int}

theorem lightLess_iff (x y : α) :
    decide (SubInt.value x < SubInt.value y) = true ↔ SubInt.value x < SubInt.value y :=
  decide_eq_true_iff

theorem lightOrder_spec (hx : 0 ≤ x ∧ x < a.length) (hy : 0 ≤ y ∧ y < a.length) :
    ∃ a', lightOrder x y a = some a' ∧ Shuffled 0 (a.length - 1) a a' := by
  obtain ⟨u, hu⟩ := exists_cell hx.1 hx.2
  obtain ⟨v, hv⟩ := exists_cell hy.1 hy.2
  rw [lightOrder, hu, Option.bind_eq_bind, Option.bind_some, hv, Option.bind_some]
  by_cases hgt : SubInt.value v < SubInt.value u
  · rw [if_pos hgt]
    obtain ⟨a', ha'⟩ := exists_exchange hu hv
    exact ⟨a', ha', shuffled_exchange ha' hx.1 (by omega) hy.1 (by omega)⟩
  · rw [if_neg hgt]
    exact ⟨a, rfl, Shuffled.refl _ _ a⟩

theorem lightPartition_spec (h : 24 < arr.length) :
    ∃ i j arr' p, lightPartition arr = some (i, j, arr') ∧
      Parted SubInt.value p 0 (arr.length - 1) arr arr' i j := by
  obtain ⟨a₁, h₁, hs₁⟩ := lightOrder_spec (a := arr) (x := 0) (y := arr.length / 2) (by omega) (by omega)
  have hl₁ := hs₁.length_eq
  obtain ⟨a₂, h₂, hs₂⟩ := lightOrder_spec (a := a₁) (x := arr.length / 2) (y := arr.length - 1) (by omega)
    (by omega)
  have hl₂ := hs₂.length_eq
  obtain ⟨a₃, h₃, hs₃⟩ := lightOrder_spec (a := a₂) (x := 0) (y := arr.length / 2) (by omega) (by omega)
  have hl₃ := hs₃.length_eq
  rw [hl₁] at hs₂
  rw [hl₂, hl₁] at hs₃
  have hshuf := (hs₁.trans hs₂).trans hs₃
  obtain ⟨u, hu⟩ := exists_cell (a := a₃) (i := arr.length / 2) (by omega) (by omega)
  obtain ⟨i, j, arr', hloop, hp⟩ := partition_spec true SubInt.value (l := 0) (r := arr.length - 1)
    (Int.le_refl 0) (by omega) (by omega) (by omega) (fun _ => by omega) hu
    (fun x => lightLess_iff x u) fun x => lightLess_iff u x
  refine ⟨i, j, arr', SubInt.value u, ?_, hp.of_shuffled hshuf⟩
  simp only [lightPartition, h₁, h₂, h₃, hu, hloop, Option.bind_eq_bind, Option.bind_some]

theorem lightQsort_spec (fuel depth : Nat) (arr : List α) (hfuel : arr.length < fuel) :
    ∃ out, lightQsort fuel depth arr = some out ∧ out.Perm arr ∧ Ascending SubInt.value out := by
  induction fuel generalizing depth arr with
  | zero => exact absurd hfuel (Nat.not_lt_zero _)
  | succ fuel ih =>
      rw [lightQsort]
      by_cases hshort : arr.length ≤ 24
      · rw [if_pos hshort]
        obtain ⟨out, hrun, hsort⟩ := insertionSort_stable SubInt.value arr
        exact ⟨out, hrun, hsort.perm, hsort.sorted⟩
      · rw [if_neg hshort]
        by_cases hdepth : depth = 0
        · rw [if_pos hdepth]
          obtain ⟨out, hrun, hshuf, hsorted⟩ : ∃ out, lightHeapsort arr = some out ∧
              Shuffled 0 (arr.length - 1) arr out ∧ SortedIn SubInt.value out 0 (arr.length - 1) :=
            heapSort_spec lightLess_iff (Int.le_refl 0) (by omega)
          refine ⟨out, hrun, hshuf.perm, SortedIn.pairwise ?_⟩
          rwa [hshuf.length_eq]
        · rw [if_neg hdepth]
          obtain ⟨i, j, b, p, hpart, hp⟩ := lightPartition_spec (by omega : 24 < arr.length)
          have hleft := hp.left
          have hright := hp.right
          have hcross := hp.crossed
          have hlenb := hp.shuffled.length_eq
          -- the windows of the two parts
          have hjs : (j + 1).toNat = (j + 1 - 0).toNat := by omega
          have his : arr.length - i.toNat = (arr.length - 1 + 1 - i : Int).toNat := by omega
          have hzero : (0 : Nat) = (0 : Int).toNat := rfl
          have hpart' : ∀ c : List α, c.length = arr.length → ∀ l r : Int, 0 ≤ l → l ≤ r + 1 →
              r < arr.length → r - l < arr.length - 1 →
              ∃ c', onWindow c l.toNat (r + 1 - l).toNat (lightQsort fuel (depth - 1)) = some c'
                ∧ Shuffled l r c c' ∧ SortedIn SubInt.value c' l r := by
            intro c hc l r h0 hlr hr hsmall
            exact onWindow_sorts h0 hlr (by omega) fun w hw => ih (depth - 1) w (by omega)
          rw [hpart, Option.bind_eq_bind, Option.bind_some]
          dsimp only
          rw [his, hjs]
          have hall : ∀ {c : List α}, Shuffled 0 (arr.length - 1) arr c →
              SortedIn SubInt.value c 0 (arr.length - 1) → c.Perm arr ∧ Ascending SubInt.value c := by
            intro c hshuf hsorted
            refine ⟨hshuf.perm, SortedIn.pairwise ?_⟩
            rwa [hshuf.length_eq]
          split
          · obtain ⟨c, hc, hsc, hsortc⟩ := hpart' b hlenb 0 j (Int.le_refl 0) (by omega) (by omega) (by omega)
            have hpc := hp.shuffleLeft (Int.le_refl 0) (by omega) hsc
            have hlenc := hsc.length_eq
            obtain ⟨d, hd, hsd, hsortd⟩ := hpart' c (by omega) i (arr.length - 1) (by omega) (by omega)
              (by omega) (by omega)
            have hpd := hpc.shuffleRight (Int.le_refl 0) (by omega) hsd
            refine ⟨d, ?_, hall hpd.shuffled (hpd.sortedIn
              (hsortc.congr fun x _ hx => hsd.outside x (by omega)) hsortd)⟩
            rw [hzero, hc, Option.bind_eq_bind, Option.bind_some, hd]
          · obtain ⟨c, hc, hsc, hsortc⟩ := hpart' b hlenb i (arr.length - 1) (by omega) (by omega) (by omega)
              (by omega)
            have hpc := hp.shuffleRight (Int.le_refl 0) (by omega) hsc
            have hlenc := hsc.length_eq
            obtain ⟨d, hd, hsd, hsortd⟩ := hpart' c (by omega) 0 j (Int.le_refl 0) (by omega) (by omega)
              (by omega)
            have hpd := hpc.shuffleLeft (Int.le_refl 0) (by omega) hsd
            refine ⟨d, ?_, hall hpd.shuffled (hpd.sortedIn hsortd
              (hsortc.congr fun x hx _ => hsd.outside x (by omega)))⟩
            rw [hc, Option.bind_eq_bind, Option.bind_some, hzero, hd]

/-- **`light_sort`** sorts. -/
theorem lightSort_spec (arr : List α) :
    ∃ out, lightSort arr = some out ∧ StableSort SubInt.value arr out := by
  obtain ⟨out, hrun, hperm, hsorted⟩ := lightQsort_spec (arr.length + 1) (2 * Nat.log2 arr.length) arr
    (Nat.lt_succ_self _)
  exact ⟨out, hrun, SubInt.stableSort hperm hsorted⟩

/-! ## Binary insertion -/

theorem binaryIsortStep_spec {P0 P : List α} (x : α) (rest : List α)
    (h : P ≠ [] ∧ StableSort SubInt.value P0 P) :
    ∃ P', binaryIsortStep P.length (P ++ x :: rest) = some (P' ++ rest) ∧ P'.length = P.length + 1 ∧
      P' ≠ [] ∧ StableSort SubInt.value (P0 ++ [x]) P' := by
  obtain ⟨hne, hsort⟩ := h
  obtain ⟨Q, z, rfl⟩ := exists_concat (List.length_pos_of_ne_nil hne)
  have hprev : loadBelow (Q ++ [z] ++ x :: rest) (Q ++ [z]).length = some z := by
    rw [List.append_assoc]
    exact loadBelow_append (by rw [List.length_append, List.length_singleton])
  rw [binaryIsortStep, load_append rfl, Option.bind_eq_bind, Option.bind_some, hprev, Option.bind_some]
  by_cases hle : SubInt.value z ≤ SubInt.value x
  · rw [if_pos hle]
    have hfront := hsort.sorted.le_last
    have hins : StableSort SubInt.value (P0 ++ [x]) (Q ++ [z] ++ [x]) := by
      have hin : StableSort SubInt.value P0 (Q ++ [z] ++ []) := by rwa [List.append_nil]
      exact hin.insert_front (fun w hw => Int.le_trans (hfront w hw) hle) nofun
    refine ⟨Q ++ [z] ++ [x], ?_, by rw [List.length_append, List.length_singleton], by simp, hins⟩
    rw [List.append_assoc (Q ++ [z])]
    rfl
  · rw [if_neg hle]
    obtain ⟨P1, P2, hP, h1, h2⟩ := hsort.sorted.split_le (SubInt.value x)
    rw [hP] at hsort ⊢
    refine ⟨P1 ++ x :: P2, binaryInsert_spec rest h1 h2, ?_, by simp, hsort.insert_front h1 h2⟩
    simp only [List.length_append, List.length_cons]
    omega

/-- **`binary_isort`** sorts. -/
theorem binaryIsort_spec (arr : List α) :
    ∃ out, binaryIsort arr = some out ∧ StableSort SubInt.value arr out := by
  cases arr with
  | nil => exact ⟨[], rfl, .refl List.Pairwise.nil⟩
  | cons x rest =>
      have hone : [x] ≠ [] ∧ StableSort SubInt.value [x] [x] :=
        ⟨List.cons_ne_nil x [], .refl (List.pairwise_singleton _ x)⟩
      obtain ⟨out, hrun, -, hsort⟩ := @insertSteps_spec α binaryIsortStep
        (fun P0 P => P ≠ [] ∧ StableSort SubInt.value P0 P)
        (fun P0 P x rest h => binaryIsortStep_spec x rest h) [x] [x] rest hone
      exact ⟨out, hrun, hsort⟩

end Montauk.Sort
