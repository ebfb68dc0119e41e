import Mathlib.Algebra.Order.Ring.Int
import Mathlib.Data.List.Lex
import Mathlib.Data.Nat.Log
import Montauk.Sort.Heap
import Montauk.Sort.Hoare
import Montauk.Sort.Insertion

/-!
# The introsort of the string sorts

`sub_strcmp_introsort` sorts pointers by `strcmp`, in place and without an
allocation: quicksort with a median of three, insertion sort on short ranges,
heapsort once the depth budget is used up. It is written for any array whose
elements have a string (`str`).

Indices are `size_t` in the source. Here they are integers, which changes
nothing but for `hi - i`, which may wrap (`sizeSub`); `sizeSub` only chooses
which side goes first.
-/

namespace Montauk.Strings

open Montauk.Sort

/-! ## `strcmp` -/

/-- A string: the bytes before its NUL. -/
structure CStr where
  bytes : List UInt8
  nonul : 0 ∉ bytes

/-- The difference of the first two bytes that differ; a string ends in a NUL. -/
def cmpBytes : List UInt8 → List UInt8 → Int
  | [], [] => 0
  | [], d :: _ => 0 - (d.toNat : Int)
  | c :: _, [] => (c.toNat : Int) - 0
  | c :: s, d :: t => if c = d then cmpBytes s t else (c.toNat : Int) - d.toNat

def strcmp (s t : CStr) : Int := cmpBytes s.bytes t.bytes

/-- The bytes as numbers, whose lexicographic order is the one of `strcmp`. -/
def CStr.order (s : CStr) : List Nat := s.bytes.map UInt8.toNat

theorem cmpBytes_neg_iff {s t : List UInt8} (ht : 0 ∉ t) :
    cmpBytes s t < 0 ↔ s.map UInt8.toNat < t.map UInt8.toNat := by
  induction s generalizing t with
  | nil =>
      cases t with
      | nil => exact iff_of_false (by rw [cmpBytes]; omega) (lt_irrefl _)
      | cons d t =>
          have hd : d ≠ 0 := fun h => ht (h ▸ List.mem_cons_self)
          have hpos : d.toNat ≠ 0 := fun h => hd (UInt8.toNat_inj.mp h)
          refine iff_of_true ?_ (List.nil_lt_cons _ _)
          rw [cmpBytes]
          omega
  | cons c s ih =>
      cases t with
      | nil =>
          refine iff_of_false ?_ (List.not_lt_nil _)
          rw [cmpBytes]
          omega
      | cons d t =>
          rw [cmpBytes, List.map_cons, List.map_cons, List.cons_lt_cons_iff]
          by_cases hcd : c = d
          · rw [if_pos hcd, ih fun h => ht (List.mem_cons_of_mem _ h), hcd]
            simp only [lt_irrefl, true_and, false_or]
          · have hne : c.toNat ≠ d.toNat := fun h => hcd (UInt8.toNat_inj.mp h)
            rw [if_neg hcd]
            simp only [hne, false_and, or_false]
            omega

theorem cmpBytes_swap (s t : List UInt8) : cmpBytes t s = -cmpBytes s t := by
  induction s generalizing t with
  | nil =>
      cases t with
      | nil => rfl
      | cons d t =>
          rw [cmpBytes, cmpBytes]
          omega
  | cons c s ih =>
      cases t with
      | nil =>
          rw [cmpBytes, cmpBytes]
          omega
      | cons d t =>
          rw [cmpBytes, cmpBytes]
          by_cases hcd : c = d
          · rw [if_pos hcd, if_pos hcd.symm, ih]
          · rw [if_neg hcd, if_neg fun h => hcd h.symm]
            omega

theorem strcmp_neg_iff {s t : CStr} : strcmp s t < 0 ↔ s.order < t.order := cmpBytes_neg_iff t.nonul

theorem strcmp_pos_iff {s t : CStr} : 0 < strcmp s t ↔ t.order < s.order := by
  rw [← strcmp_neg_iff, strcmp, strcmp, cmpBytes_swap]
  omega

theorem strcmp_nonneg_iff {s t : CStr} : 0 ≤ strcmp s t ↔ t.order ≤ s.order := by
  rw [← not_lt, strcmp_neg_iff, not_lt]

theorem strcmp_nonpos_iff {s t : CStr} : strcmp s t ≤ 0 ↔ s.order ≤ t.order := by
  rw [← not_lt, strcmp_pos_iff, not_lt]

theorem strcmp_eq_zero_iff {s t : CStr} : strcmp s t = 0 ↔ s.order = t.order := by
  rw [le_antisymm_iff (a := s.order), ← strcmp_nonpos_iff, ← strcmp_nonneg_iff]
  omega

/-! ## The functions -/

/-- `a - b` of two `size_t`. -/
def sizeSub (a b : Int) : Int := (a - b) % 2 ^ 64

variable {α : Type} (str : α → CStr)

/-- `sub_strcmp_insertion`: the cells `lo .. hi`. -/
def strcmpInsertion (lo hi : Int) (arr : List α) : Option (List α) :=
  onWindow arr lo.toNat (hi + 1 - lo).toNat
    (insertionSort fun x key => decide (0 < strcmp (str x) (str key)))

/-- `if (child < end && strcmp(arr[child], arr[child + 1]) < 0) child++;` -/
def strcmpLarger (end_ child : Int) (arr : List α) : Option Int :=
  if child < end_ then do
    let x ← cell arr child
    let y ← cell arr (child + 1)
    some (if strcmp (str x) (str y) < 0 then child + 1 else child)
  else some child

/-- `sub_strcmp_siftdown`. -/
def strcmpSiftdown (lo end_ : Int) : Nat → Int → List α → Option (List α)
  | 0, _, _ => none
  | fuel + 1, root, arr => do
      let child := 2 * (root - lo) + 1 + lo
      if end_ < child then some arr
      else
        let child ← strcmpLarger str end_ child arr
        let x ← cell arr root
        let y ← cell arr child
        if 0 ≤ strcmp (str x) (str y) then some arr
        else
          let arr ← exchange arr root child
          strcmpSiftdown lo end_ fuel child arr

/-- The first loop of `sub_strcmp_heapsort`, with `start` at `lo + n`. -/
def strcmpHeapify (lo hi : Int) : Nat → List α → Option (List α)
  | 0, arr => some arr
  | n + 1, arr => do
      let arr ← strcmpSiftdown str lo hi (arr.length + 1) (lo + n) arr
      strcmpHeapify lo hi n arr

/-- The second one, with `end` at `lo + n`. -/
def strcmpPop (lo : Int) : Nat → List α → Option (List α)
  | 0, arr => some arr
  | n + 1, arr => do
      let arr ← exchange arr lo (lo + (n + 1 : Nat))
      let arr ← strcmpSiftdown str lo (lo + n) (arr.length + 1) lo arr
      strcmpPop lo n arr

/-- `sub_strcmp_heapsort`. -/
def strcmpHeapsort (lo hi : Int) (arr : List α) : Option (List α) :=
  if hi ≤ lo then some arr
  else do
    let arr ← strcmpHeapify str lo hi ((hi - lo - 1) / 2 + 1).toNat arr
    strcmpPop str lo (hi - lo).toNat arr

/-- `if (strcmp(arr[x], arr[y]) > 0)` with the exchange behind it. -/
def strcmpOrder (x y : Int) (arr : List α) : Option (List α) := do
  let s ← cell arr x
  let t ← cell arr y
  if 0 < strcmp (str s) (str t) then exchange arr x y else some arr

/-- The partition of a round: the median of three goes to the middle. -/
def strcmpPartition (lo hi : Int) (arr : List α) : Option (Int × Int × List α) := do
  let mid := lo + (hi - lo) / 2
  let arr ← strcmpOrder str lo mid arr
  let arr ← strcmpOrder str lo hi arr
  let arr ← strcmpOrder str mid hi arr
  let pivot ← cell arr mid
  partitionLoop true (fun x => decide (strcmp (str x) (str pivot) < 0))
    (fun x => decide (0 < strcmp (str x) (str pivot))) lo hi (arr.length + 3) lo hi arr

/-- `sub_strcmp_intro`; a round of its loop is a call here. -/
def strcmpIntro : Nat → Int → Int → Int → List α → Option (List α)
  | 0, _, _, _, _ => none
  | fuel + 1, lo, hi, depth, arr =>
      if lo < hi then
        if hi - lo < 16 then strcmpInsertion str lo hi arr
        else if depth ≤ 0 then strcmpHeapsort str lo hi arr
        else do
          let depth := depth - 1
          let (i, j, arr) ← strcmpPartition str lo hi arr
          if lo < j ∧ j - lo < sizeSub hi i then
            let arr ← strcmpIntro fuel lo j depth arr
            strcmpIntro fuel i hi depth arr
          else
            let arr ← (if i < hi then strcmpIntro fuel i hi depth arr else some arr)
            if j = 0 then some arr else strcmpIntro fuel lo j depth arr
      else some arr

/-- `sub_strcmp_introsort`. -/
def strcmpIntrosort (arr : List α) : Option (List α) :=
  if arr.length < 2 then some arr
  else strcmpIntro str (arr.length + 1) 0 (arr.length - 1) (2 + 2 * Nat.log2 arr.length) arr

/-! ## Insertion -/

variable {str} {a b : List α} {lo hi i j x : Int}

/-- What the parts of the sort are compared by. -/
abbrev strKey (str : α → CStr) (x : α) : List Nat := (str x).order

theorem strcmpInsertion_spec (h0 : 0 ≤ lo) (hlh : lo ≤ hi) (hhi : hi < a.length) :
    ∃ a', strcmpInsertion str lo hi a = some a' ∧ Shuffled lo hi a a'
      ∧ SortedIn (strKey str) a' lo hi := by
  refine onWindow_sorts h0 (by omega) hhi fun w _ => ?_
  obtain ⟨w', hrun, hstable⟩ := insertionSort_stable (strKey str) w
  refine ⟨w', ?_, hstable.perm, hstable.sorted⟩
  rw [← hrun]
  congr 1
  funext x key
  exact decide_eq_decide.mpr strcmp_pos_iff

/-! ## Heapsort -/

theorem strcmp_lt_iff (str : α → CStr) (x y : α) :
    decide (strcmp (str x) (str y) < 0) = true ↔ strKey str x < strKey str y :=
  decide_eq_true_iff.trans strcmp_neg_iff

theorem strcmpLarger_eq (str : α → CStr) (e c : Int) (a : List α) :
    strcmpLarger str e c a = largerChild (fun x y => decide (strcmp (str x) (str y) < 0)) e c a := by
  simp only [strcmpLarger, largerChild, decide_eq_true_eq]

theorem strcmpSiftdown_eq (str : α → CStr) (lo e : Int) (fuel : Nat) (root : Int) (a : List α) :
    strcmpSiftdown str lo e fuel root a
      = siftDown (fun x y => decide (strcmp (str x) (str y) < 0)) lo e fuel root a := by
  induction fuel generalizing root a with
  | zero => rfl
  | succ fuel ih =>
      have hflip : ∀ (x y : α) (p q : Option (List α)), (if 0 ≤ strcmp (str x) (str y) then p else q)
          = if strcmp (str x) (str y) < 0 then q else p := by
        intro x y p q
        by_cases hless : strcmp (str x) (str y) < 0
        · rw [if_neg (not_le.mpr hless), if_pos hless]
        · rw [if_pos (not_lt.mp hless), if_neg hless]
      simp only [strcmpSiftdown, siftDown, strcmpLarger_eq, ih, hflip, decide_eq_true_eq]

theorem strcmpHeapify_eq (str : α → CStr) (lo hi : Int) (n : Nat) (a : List α) :
    strcmpHeapify str lo hi n a
      = heapify (fun x y => decide (strcmp (str x) (str y) < 0)) lo hi n a := by
  induction n generalizing a with
  | zero => rfl
  | succ n ih => simp only [strcmpHeapify, heapify, strcmpSiftdown_eq, ih]

theorem strcmpPop_eq (str : α → CStr) (lo : Int) (n : Nat) (a : List α) :
    strcmpPop str lo n a = popHeap (fun x y => decide (strcmp (str x) (str y) < 0)) lo n a := by
  induction n generalizing a with
  | zero => rfl
  | succ n ih => simp only [strcmpPop, popHeap, strcmpSiftdown_eq, ih]

/-- **Heapsort** sorts the cells `lo .. hi`, wherever they are. -/
theorem strcmpHeapsort_spec (str : α → CStr) (h0 : 0 ≤ lo) (hhi : hi < a.length) :
    ∃ a', strcmpHeapsort str lo hi a = some a' ∧ Shuffled lo hi a a'
      ∧ SortedIn (strKey str) a' lo hi := by
  have heq : strcmpHeapsort str lo hi a
      = heapSort (fun x y => decide (strcmp (str x) (str y) < 0)) lo hi a := by
    simp only [strcmpHeapsort, heapSort, strcmpHeapify_eq, strcmpPop_eq]
  rw [heq]
  exact heapSort_spec (strcmp_lt_iff str) h0 hhi

/-! ## Quicksort -/

theorem strcmpOrder_spec (str : α → CStr) {y : Int} (h0 : 0 ≤ lo) (hhi : hi < a.length) (hx : lo ≤ x ∧ x ≤ hi)
    (hy : lo ≤ y ∧ y ≤ hi) : ∃ a', strcmpOrder str x y a = some a' ∧ Shuffled lo hi a a' := by
  obtain ⟨u, hu⟩ := exists_cell (a := a) (i := x) (by omega) (by omega)
  obtain ⟨v, hv⟩ := exists_cell (a := a) (i := y) (by omega) (by omega)
  rw [strcmpOrder, hu, Option.bind_eq_bind, Option.bind_some, hv, Option.bind_some]
  by_cases hgt : 0 < strcmp (str u) (str v)
  · rw [if_pos hgt]
    obtain ⟨a', ha'⟩ := exists_exchange hu hv
    exact ⟨a', ha', shuffled_exchange ha' hx.1 hx.2 hy.1 hy.2⟩
  · rw [if_neg hgt]
    exact ⟨a, rfl, Shuffled.refl lo hi a⟩

/-- **The partition** of a range: both scans stay inside, the two parts left
are smaller, and what is between them equals the pivot. -/
theorem strcmpPartition_spec (str : α → CStr) (h0 : 0 ≤ lo) (hhi : hi < a.length) (hlen : lo + 2 ≤ hi) :
    ∃ i j a' pivot, strcmpPartition str lo hi a = some (i, j, a')
      ∧ Parted (strKey str) (strKey str pivot) lo hi a a' i j := by
  have hmid : lo < lo + (hi - lo) / 2 ∧ lo + (hi - lo) / 2 ≤ hi := by omega
  obtain ⟨a₁, h₁, hs₁⟩ := strcmpOrder_spec str (y := lo + (hi - lo) / 2) h0 hhi
    ⟨le_refl lo, by omega⟩ ⟨by omega, hmid.2⟩
  obtain ⟨a₂, h₂, hs₂⟩ := strcmpOrder_spec str (a := a₁) (y := hi) h0
    (by rw [hs₁.length_eq]; exact hhi) ⟨le_refl lo, by omega⟩ ⟨by omega, le_refl hi⟩
  obtain ⟨a₃, h₃, hs₃⟩ := strcmpOrder_spec str (a := a₂) (x := lo + (hi - lo) / 2) (y := hi)
    h0 (by rw [hs₂.length_eq, hs₁.length_eq]; exact hhi) ⟨by omega, hmid.2⟩ ⟨by omega, le_refl hi⟩
  have hshuf := (hs₁.trans hs₂).trans hs₃
  have hhi₃ : hi < a₃.length := by rw [hshuf.length_eq]; exact hhi
  obtain ⟨u, hu⟩ := exists_cell (a := a₃) (i := lo + (hi - lo) / 2) (by omega) (by omega)
  obtain ⟨i, j, a', hloop, hp⟩ := partition_spec true (strKey str) h0 hhi₃ (by omega) hmid.2
    (fun _ => by omega) hu
    (fun x => (decide_eq_true_iff.trans strcmp_neg_iff :
      decide (strcmp (str x) (str u) < 0) = true ↔ _))
    (fun x => (decide_eq_true_iff.trans strcmp_pos_iff :
      decide (0 < strcmp (str x) (str u)) = true ↔ _))
  refine ⟨i, j, a', _, ?_, hp.of_shuffled hshuf⟩
  simp only [strcmpPartition, h₁, h₂, h₃, hu, hloop, Option.bind_eq_bind, Option.bind_some]

/-- Each round sorts one part by a call and goes on with the other. -/
theorem strcmpIntro_spec (str : α → CStr) (fuel : Nat) (lo hi depth : Int) (h0 : 0 ≤ lo) (hhi : hi < a.length)
    (hfuel : (hi - lo).toNat < fuel) :
    ∃ a', strcmpIntro str fuel lo hi depth a = some a' ∧ Shuffled lo hi a a'
      ∧ SortedIn (strKey str) a' lo hi := by
  induction fuel generalizing lo hi depth a with
  | zero => exact absurd hfuel (Nat.not_lt_zero _)
  | succ fuel ih =>
      rw [strcmpIntro]
      by_cases hlt : lo < hi
      · rw [if_pos hlt]
        by_cases hshort : hi - lo < 16
        · rw [if_pos hshort]
          exact strcmpInsertion_spec h0 (le_of_lt hlt) hhi
        · rw [if_neg hshort]
          by_cases hdepth : depth ≤ 0
          · rw [if_pos hdepth]
            exact strcmpHeapsort_spec str h0 hhi
          · rw [if_neg hdepth]
            obtain ⟨i, j, b, p, hpart, hp⟩ := strcmpPartition_spec str h0 hhi (by omega)
            have hleft := hp.left
            have hright := hp.right
            have hcross := hp.crossed
            have hlenb := hp.shuffled.length_eq
            rw [hpart, Option.bind_eq_bind, Option.bind_some]
            dsimp only
            by_cases hside : lo < j ∧ j - lo < sizeSub hi i
            · rw [if_pos hside]
              obtain ⟨c, hc, hsc, hsortc⟩ := ih (a := b) lo j (depth - 1) h0
                (by omega) (by omega)
              have hpc := hp.shuffleLeft h0 (by omega) hsc
              have hlenc := hsc.length_eq
              obtain ⟨d, hd, hsd, hsortd⟩ := ih (a := c) i hi (depth - 1)
                (by omega) (by omega) (by omega)
              have hpd := hpc.shuffleRight h0 (by omega) hsd
              refine ⟨d, ?_, hpd.shuffled, hpd.sortedIn
                (hsortc.congr fun x _ hx => hsd.outside x (by omega)) hsortd⟩
              rw [hc, Option.bind_eq_bind, Option.bind_some, hd]
            · rw [if_neg hside]
              obtain ⟨c, hc, hsc, hsortc⟩ : ∃ c,
                  (if i < hi then strcmpIntro str fuel i hi (depth - 1) b else some b) = some c
                  ∧ Shuffled i hi b c ∧ SortedIn (strKey str) c i hi := by
                by_cases hihi : i < hi
                · rw [if_pos hihi]
                  exact ih i hi (depth - 1) (by omega) (by omega) (by omega)
                · rw [if_neg hihi]
                  exact ⟨b, rfl, Shuffled.refl i hi b, SortedIn.of_le (by omega)⟩
              have hpc := hp.shuffleRight h0 (by omega) hsc
              have hlenc := hsc.length_eq
              rw [hc, Option.bind_eq_bind, Option.bind_some]
              by_cases hj : j = 0
              · rw [if_pos hj]
                exact ⟨c, rfl, hpc.shuffled, hpc.sortedIn (SortedIn.of_le (by omega)) hsortc⟩
              · rw [if_neg hj]
                obtain ⟨d, hd, hsd, hsortd⟩ := ih (a := c) lo j (depth - 1) h0
                  (by omega) (by omega)
                have hpd := hpc.shuffleLeft h0 (by omega) hsd
                exact ⟨d, hd, hpd.shuffled, hpd.sortedIn hsortd
                  (hsortc.congr fun x hx _ => hsd.outside x (by omega))⟩
      · rw [if_neg hlt]
        exact ⟨a, rfl, Shuffled.refl lo hi a, SortedIn.of_le (by omega)⟩

theorem strcmpIntrosort_sorts (str : α → CStr) (a : List α) :
    ∃ a', strcmpIntrosort str a = some a' ∧ a'.Perm a
      ∧ a'.Pairwise fun x y => strcmp (str x) (str y) ≤ 0 := by
  have hpair : ∀ {b : List α}, SortedIn (strKey str) b 0 (b.length - 1) →
      b.Pairwise fun x y => strcmp (str x) (str y) ≤ 0 :=
    fun h => h.pairwise.imp strcmp_nonpos_iff.mpr
  rw [strcmpIntrosort]
  by_cases hn : a.length < 2
  · exact ⟨a, if_pos hn, List.Perm.refl a, hpair (SortedIn.of_le (by omega))⟩
  · rw [if_neg hn]
    obtain ⟨a', hrun, hshuf, hsorted⟩ := strcmpIntro_spec str (a := a) (a.length + 1) 0
      (a.length - 1) (2 + 2 * Nat.log2 a.length) (le_refl 0) (by omega) (by omega)
    refine ⟨a', hrun, hshuf.perm, hpair ?_⟩
    rw [hshuf.length_eq]
    exact hsorted

/-- **`sub_strcmp_introsort`** ends with the array a permutation in the order of
`strcmp`, and has read and written nothing outside of it: a partition stays
inside of its range and leaves two smaller ones, with elements equal to the
pivot between them, and the heapsort sorts any range. -/
theorem strcmpIntrosort_spec (str : α → CStr) (a : List α) :
    (∃ a', strcmpIntrosort str a = some a' ∧ a'.Perm a
      ∧ a'.Pairwise fun x y => strcmp (str x) (str y) ≤ 0)
    ∧ (∀ b lo hi, 0 ≤ lo → hi < b.length → lo + 2 ≤ hi →
      ∃ i j b' pivot, strcmpPartition str lo hi b = some (i, j, b') ∧ Shuffled lo hi b b'
        ∧ lo < i ∧ i ≤ hi + 1 ∧ lo - 1 ≤ j ∧ j < hi ∧ j < i
        ∧ (∀ x, lo ≤ x → x ≤ j → ∀ u, cell b' x = some u → strcmp (str u) (str pivot) ≤ 0)
        ∧ (∀ x, j < x → x < i → ∀ u, cell b' x = some u → strcmp (str u) (str pivot) = 0)
        ∧ ∀ x, i ≤ x → x ≤ hi → ∀ u, cell b' x = some u → 0 ≤ strcmp (str u) (str pivot))
    ∧ ∀ b lo hi, 0 ≤ lo → hi < b.length →
      ∃ b', strcmpHeapsort str lo hi b = some b' ∧ Shuffled lo hi b b'
        ∧ ∀ x y, lo ≤ x → x < y → y ≤ hi → ∀ u v, cell b' x = some u → cell b' y = some v →
          strcmp (str u) (str v) ≤ 0 := by
  refine ⟨strcmpIntrosort_sorts str a, fun b lo hi h0 hhi hlen => ?_, fun b lo hi h0 hhi => ?_⟩
  · obtain ⟨i, j, b', pivot, hrun, hp⟩ := strcmpPartition_spec str h0 hhi hlen
    have hcross := hp.crossed
    exact ⟨i, j, b', pivot, hrun, hp.shuffled, hp.left.1, hp.left.2, hp.right.1, hp.right.2, hcross,
      fun x hx hxj u hu => strcmp_nonpos_iff.mpr (hp.low x hx (by omega) u hu),
      fun x hj hi u hu => strcmp_eq_zero_iff.mpr (hp.between hj hi hu),
      fun x hx hxh u hu => strcmp_nonneg_iff.mpr (hp.high x (by omega) hxh u hu)⟩
  · obtain ⟨b', hrun, hshuf, hsorted⟩ := strcmpHeapsort_spec str h0 hhi
    exact ⟨b', hrun, hshuf, fun x y hx hxy hy u v hu hv =>
      strcmp_nonpos_iff.mpr (hsorted x y hx hxy hy u v hu hv)⟩

end Montauk.Strings
