import Mathlib.Algebra.Order.BigOperators.Group.List
import Mathlib.Algebra.Order.Ring.Nat
import Montauk.Sort.Prefixes
import Montauk.Strings.MsdRadix

/-!
# The stack of the radix sort

The loop of `sub_msd_radix` takes a range off the stack, distributes it and
leaves its buckets behind. `Pending` says what is left to do: the ranges of the
stack lie in the array one behind the other, and with each of them sorted the
array is `out`. A frame keeps that (`msdFrame_spec`), and each frame is paid for
by a byte of the strings in it, so the loop ends (`msdLoop_spec`).

A range of 16 strings or more comes out as the stable sort by the bytes from the
depth on, a shorter one as that by bytes and length (`subMsdRadix_spec`). The
two are the same for strings that reach to the depth. For those that end in
front of it they are not: the radix sort leaves them as they stand.
-/

namespace Montauk.Sort

/-! ## Stable sorts of the elements of a list -/

variable {α κ κ' : Type} [LinearOrder κ] [LinearOrder κ'] {key : α → κ} {key' : α → κ'} {a b : List α}

theorem StableSort.congr_le (h : StableSort key a b) (hkey : ∀ x ∈ a, ∀ y ∈ a, key' x ≤ key' y ↔ key x ≤ key y) :
    StableSort key' a b := by
  have hmem : ∀ x ∈ b, x ∈ a := fun x hx => h.perm.mem_iff.mp hx
  refine ⟨h.sorted.imp_of_mem fun hx hy hxy => (hkey _ (hmem _ hx) _ (hmem _ hy)).mpr hxy, fun k => ?_⟩
  by_cases hk : ∃ z ∈ a, key' z = k
  · obtain ⟨z, hz, rfl⟩ := hk
    have hsame : ∀ xs : List α, (∀ x ∈ xs, x ∈ a) → ofKey key' (key' z) xs = ofKey key (key z) xs := by
      intro xs hxs
      refine List.filter_congr fun x hx => decide_eq_decide.mpr ?_
      rw [le_antisymm_iff, hkey _ (hxs x hx) _ hz, hkey _ hz _ (hxs x hx), ← le_antisymm_iff]
    rw [hsame b hmem, hsame a fun _ hx => hx, h.stable]
  · have hnone : ∀ x ∈ a, key' x ≠ k := fun x hx hxk => hk ⟨x, hx, hxk⟩
    rw [ofKey_eq_nil hnone, ofKey_eq_nil fun x hx => hnone x (hmem x hx)]

/-- Sorted by a coarse key, and in the order of the fine one where the coarse
one does not tell them apart. -/
theorem Ascending.ascending_of_ofKey {fine : α → κ'} (h : Ascending key b)
    (hmono : ∀ x y, key x < key y → fine x ≤ fine y) (hclass : ∀ k, Ascending fine (ofKey key k b)) :
    Ascending fine b := by
  refine (h.and (pairwise_ofKey_iff.mpr hclass)).imp fun {x y} hxy => ?_
  rcases hxy.1.lt_or_eq with hlt | heq
  · exact hmono x y hlt
  · exact hxy.2 heq

theorem StableSort.of_buckets {digit : α → Nat} {m : Nat} {T : Nat → List α} (hdigit : ∀ x ∈ a, digit x < m)
    (hT : ∀ d, d < m → StableSort key (bucket digit a d) (T d)) (hmono : ∀ x y, digit x < digit y → key x < key y) :
    StableSort key a (blocks m T) := by
  have hmem : ∀ d, d < m → ∀ x ∈ T d, digit x = d := fun d hd x hx =>
    digit_of_mem_bucket ((hT d hd).perm.mem_iff.mp hx)
  have heq : ∀ x y, key x = key y → digit x = digit y := fun x y hxy =>
    le_antisymm (not_lt.mp fun hlt => (hmono y x hlt).ne' hxy) (not_lt.mp fun hlt => (hmono x y hlt).ne hxy)
  refine ⟨pairwise_blocks (fun d hd => (hT d hd).sorted) fun d e hde he x hx y hy => ?_, ?_⟩
  · refine (hmono x y ?_).le
    rw [hmem d (Nat.lt_trans hde he) x hx, hmem e he y hy]
    exact hde
  · have hbuckets : SameOrder key a (blocks m (bucket digit a)) := (buckets_stable a hdigit).stable.refine heq
    exact hbuckets.trans (sameOrder_blocks fun d hd => (hT d hd).stable)

/-- A sort by a coarser key is in the order of the finer one exactly if the
elements the coarser key does not tell apart stood in that order. -/
theorem StableSort.ascending_fine_iff {fine : α → κ'} (h : StableSort key a b)
    (hmono : ∀ x y, key x < key y → fine x ≤ fine y) :
    Ascending fine b ↔ a.Pairwise fun x y => key x = key y → fine x ≤ fine y := by
  rw [pairwise_ofKey_iff]
  constructor
  · intro hfine k
    rw [← h.stable k]
    exact hfine.filter _
  · intro hclass
    refine h.sorted.ascending_of_ofKey hmono fun k => ?_
    rw [h.stable k]
    exact hclass k

end Montauk.Sort

namespace Montauk.Strings

open Montauk.Sort

section

variable {α : Type} {bytes : α → List UInt8} {d : Nat} {w : List α}

/-! ## The digits -/

theorem msdDigit_of_le {x : α} (h : (bytes x).length ≤ d) : msdDigit bytes d x = 0 := by
  rw [msdDigit, List.getElem?_eq_none h]

theorem msdDigit_of_lt {x : α} (h : d < (bytes x).length) : msdDigit bytes d x = (bytes x)[d].toNat + 1 := by
  rw [msdDigit, List.getElem?_eq_getElem h]

theorem tail_of_le {x : α} (h : (bytes x).length ≤ d) : tail bytes d x = [] := codes_drop_of_le h

theorem tail_of_lt {x : α} (h : d < (bytes x).length) :
    tail bytes d x = (bytes x)[d].toNat :: tail bytes (d + 1) x := codes_drop_of_lt h

theorem tail_lt_of_digit_lt {x y : α} (h : msdDigit bytes d x < msdDigit bytes d y) :
    tail bytes d x < tail bytes d y := by
  have hy : d < (bytes y).length := by
    by_contra hle
    rw [msdDigit_of_le (Nat.not_lt.mp hle)] at h
    exact Nat.not_lt_zero _ h
  rw [tail_of_lt hy]
  by_cases hx : d < (bytes x).length
  · rw [msdDigit_of_lt hx, msdDigit_of_lt hy] at h
    rw [tail_of_lt hx, List.cons_lt_cons_iff]
    exact .inl (Nat.lt_of_succ_lt_succ h)
  · rw [tail_of_le (Nat.not_lt.mp hx)]
    exact List.nil_lt_cons _ _

theorem lt_length_of_mem_bucket {r : Nat} {x : α} (h : x ∈ bucket (msdDigit bytes d) w (r + 1)) :
    d < (bytes x).length := by
  have hdigit := digit_of_mem_bucket h
  by_contra hle
  rw [msdDigit_of_le (Nat.not_lt.mp hle)] at hdigit
  exact absurd hdigit (Nat.succ_ne_zero r).symm

theorem stable_of_next {r : Nat} {w' : List α}
    (h : StableSort (tail bytes (d + 1)) (bucket (msdDigit bytes d) w (r + 1)) w') :
    StableSort (tail bytes d) (bucket (msdDigit bytes d) w (r + 1)) w' := by
  refine h.congr_le fun x hx y hy => ?_
  have hxl := lt_length_of_mem_bucket hx
  have hyl := lt_length_of_mem_bucket hy
  have hbyte : (bytes x)[d].toNat = (bytes y)[d].toNat := by
    have hx' := digit_of_mem_bucket hx
    have hy' := digit_of_mem_bucket hy
    rw [msdDigit_of_lt hxl] at hx'
    rw [msdDigit_of_lt hyl] at hy'
    omega
  rw [tail_of_lt hxl, tail_of_lt hyl, hbyte, ← not_lt, ← not_lt, List.cons_lt_cons_iff]
  simp only [lt_irrefl, true_and, false_or]

/-- The strings that end in front of the depth are left as they are. -/
theorem bucket_zero_sorted :
    StableSort (tail bytes d) (bucket (msdDigit bytes d) w 0) (bucket (msdDigit bytes d) w 0) := by
  refine .refl (List.Pairwise.imp_of_mem (fun hx hy _ => ?_) (List.pairwise_of_forall fun _ _ => trivial))
  have hend : ∀ {x : α}, x ∈ bucket (msdDigit bytes d) w 0 → tail bytes d x = [] := by
    intro x hx
    refine tail_of_le (Nat.not_lt.mp fun hlt => ?_)
    have hdigit := digit_of_mem_bucket hx
    rw [msdDigit_of_lt hlt] at hdigit
    exact absurd hdigit (Nat.succ_ne_zero _)
  rw [hend hx, hend hy]

/-! ## What is left to do -/

/-- The frames a range may lead to: one, and one for each byte from the depth
on. -/
def frameCost (bytes : α → List UInt8) (d : Nat) (w : List α) : Nat := 1 + (w.map fun x => (bytes x).length - d).sum

/-- The ranges of the stack lie in `arr`, the top one behind the others; with
each of them sorted the array is `out`. No more than `cost` frames are to come.
A short range is only left to strings that reach to its depth. -/
inductive Pending (bytes : α → List UInt8) : Nat → List MsdFrame → List α → List α → Prop
  | done (cost : Nat) (arr : List α) : Pending bytes cost [] arr arr
  | frame {cost cost' d : Nat} {stack : List MsdFrame} {pre out w w' : List α} (post : List α)
      (rest : Pending bytes cost stack pre out) (hsort : StableSort (tail bytes d) w w')
      (hshort : w.length < subStringsMsdCutover → ∀ x ∈ w, d ≤ (bytes x).length)
      (hcost : cost + frameCost bytes d w ≤ cost') :
      Pending bytes cost' (⟨pre.length, pre.length + w.length, d⟩ :: stack) (pre ++ w ++ post) (out ++ w' ++ post)

theorem Pending.append {cost : Nat} {stack : List MsdFrame} {arr out : List α} (h : Pending bytes cost stack arr out)
    (s : List α) : Pending bytes cost stack (arr ++ s) (out ++ s) := by
  cases h with
  | done => exact .done cost _
  | frame post rest hsort hshort hcost =>
      rw [List.append_assoc, List.append_assoc _ post]
      exact .frame (post ++ s) rest hsort hshort hcost

theorem Pending.mono {cost cost' : Nat} {stack : List MsdFrame} {arr out : List α}
    (h : Pending bytes cost stack arr out) (hle : cost ≤ cost') : Pending bytes cost' stack arr out := by
  cases h with
  | done => exact .done cost' _
  | frame post rest hsort hshort hcost => exact .frame post rest hsort hshort (hcost.trans hle)

/-- The frame of a bucket is paid for by one byte of each string in it. -/
theorem frameCost_bucket_le {r : Nat} (hne : bucket (msdDigit bytes d) w (r + 1) ≠ []) :
    frameCost bytes (d + 1) (bucket (msdDigit bytes d) w (r + 1))
      ≤ ((bucket (msdDigit bytes d) w (r + 1)).map fun x => (bytes x).length - d).sum := by
  have hpay : ∀ b : List α, (∀ x ∈ b, d < (bytes x).length) →
      (b.map fun x => (bytes x).length - (d + 1)).sum + b.length = (b.map fun x => (bytes x).length - d).sum := by
    intro b
    induction b with
    | nil => exact fun _ => rfl
    | cons x b ih =>
        intro hall
        have hx := hall x List.mem_cons_self
        have hb := ih fun y hy => hall y (List.mem_cons_of_mem x hy)
        rw [List.map_cons, List.map_cons, List.sum_cons, List.sum_cons, List.length_cons]
        omega
  have hlen := List.length_pos_of_ne_nil hne
  have hsum := hpay (bucket (msdDigit bytes d) w (r + 1)) fun x hx => lt_length_of_mem_bucket hx
  rw [frameCost]
  omega

/-! ## The buckets -/

section

variable {T : Nat → List α} {pre post : List α} (mem : MsdMem)

theorem reserve_arr (st : MsdState α) :
    (st.reserve mem).arr = st.arr ∧ (st.reserve mem).stack = st.stack ∧ (st.reserve mem).scratch = st.scratch := by
  rw [MsdState.reserve]
  split <;> exact ⟨rfl, rfl, rfl⟩

/-- The insertion sort of strings that reach to the depth is the sort by their
bytes. -/
theorem subInsertionSort_tail {b b' front rest : List α} {lo hi : Nat} (hlo : lo = front.length)
    (hhi : hi = lo + b.length) (hreach : ∀ x ∈ b, d ≤ (bytes x).length) (hsort : StableSort (tail bytes d) b b') :
    subInsertionSort bytes lo hi d (front ++ b ++ rest) = some (front ++ b' ++ rest) := by
  obtain ⟨c, hrun, hstable⟩ := @subInsertionSort_spec α bytes d b front rest lo hi hlo hhi
  have hc : StableSort (tail bytes d) b c :=
    hstable.congr_le fun x hx y hy => (tailKey_le_iff (hreach x hx) (hreach y hy)).symm
  rw [hrun, hc.unique hsort]

/-- The loop over the buckets from the byte `r` on. Each of them is left to the
stack, or sorted at once. -/
theorem pushBuckets_spec (hT : ∀ r, StableSort (tail bytes (d + 1)) (bucket (msdDigit bytes d) w (r + 1)) (T (r + 1)))
    (lo n r : Nat) (hn : r + n = 256) {st : MsdState α} {cost : Nat} {front out : List α}
    (hfront : front.length = lo + offset (sizes bytes d w) (r + 1))
    (harr : st.arr = front ++ (List.range' (r + 1) n).flatMap (bucket (msdDigit bytes d) w) ++ post)
    (h : Pending bytes cost st.stack front out) :
    ∃ st' front', pushBuckets bytes mem lo d ((List.range 258).map fun r => offset (sizes bytes d w) (r + 1)) n r st
        = some st' ∧ st'.scratch = st.scratch ∧ st'.arr = front' ++ post ∧
      Pending bytes
        (cost + (((List.range' (r + 1) n).flatMap (bucket (msdDigit bytes d) w)).map fun x => (bytes x).length - d).sum)
        st'.stack front' (out ++ (List.range' (r + 1) n).flatMap T) := by
  induction n generalizing r st cost front out with
  | zero =>
      rw [List.range'_zero, List.flatMap_nil, List.append_nil] at harr
      refine ⟨st, front, rfl, rfl, harr, ?_⟩
      rw [List.range'_zero, List.flatMap_nil, List.flatMap_nil, List.append_nil]
      exact h.mono (Nat.le_add_right _ _)
  | succ n ih =>
      have hbs : load ((List.range 258).map fun r => offset (sizes bytes d w) (r + 1)) r
          = some (offset (sizes bytes d w) (r + 1)) := load_map_range _ (by omega)
      have hbe : load ((List.range 258).map fun r => offset (sizes bytes d w) (r + 1)) (r + 1)
          = some (offset (sizes bytes d w) (r + 1) + (bucket (msdDigit bytes d) w (r + 1)).length) :=
        (load_map_range _ (by omega)).trans (congrArg some (offset_succ _ _))
      have hreach : ∀ x ∈ bucket (msdDigit bytes d) w (r + 1), d + 1 ≤ (bytes x).length := fun x hx =>
        lt_length_of_mem_bucket hx
      have hpay := @frameCost_bucket_le α bytes d w r
      have hlen : (T (r + 1)).length = (bucket (msdDigit bytes d) w (r + 1)).length := (hT r).length_eq
      rw [List.range'_succ, List.flatMap_cons, ← List.append_assoc front] at harr
      rw [List.range'_succ, List.flatMap_cons, List.flatMap_cons, List.map_append, List.sum_append, ← Nat.add_assoc,
        ← List.append_assoc, pushBuckets, hbs, hbe]
      simp only [Option.bind_eq_bind, Option.bind_some, Nat.add_sub_cancel_left]
      -- how the loop goes on with the next byte
      have hnext : ∀ {st₁ : MsdState α} {front₁ : List α} {cost₁ : Nat},
          front₁.length = front.length + (T (r + 1)).length →
          st₁.arr = front₁ ++ (List.range' (r + 1 + 1) n).flatMap (bucket (msdDigit bytes d) w) ++ post →
          cost₁ ≤ cost + ((bucket (msdDigit bytes d) w (r + 1)).map fun x => (bytes x).length - d).sum →
          Pending bytes cost₁ st₁.stack front₁ (out ++ T (r + 1)) → _ := fun {st₁ front₁ cost₁} hf ha hc hp =>
        ih (r + 1) (by omega) (by rw [hf, hfront, offset_succ _ (r + 1), hlen, sizes, Nat.add_assoc]) ha (hp.mono hc)
      by_cases htwo : 2 ≤ (bucket (msdDigit bytes d) w (r + 1)).length
      · rw [if_pos htwo]
        obtain ⟨hreserve, hstack, hscratch⟩ := reserve_arr mem st
        by_cases hfull : (st.reserve mem).stack.length = (st.reserve mem).cap
        · -- no room: the bucket is sorted at once
          have hsorted := fun rest => @subInsertionSort_tail α bytes (d + 1) _ _ front rest _ _ hfront.symm
            (Nat.add_assoc lo _ _).symm hreach (hT r)
          rw [if_pos hfull, hreserve, harr, List.append_assoc, hsorted, Option.bind_some, ← List.append_assoc]
          obtain ⟨st', front', hafter, hscr, harr', hpend⟩ := @hnext
            { st.reserve mem with
              arr := front ++ T (r + 1) ++ (List.range' (r + 1 + 1) n).flatMap (bucket (msdDigit bytes d) w) ++ post }
            _ _ List.length_append rfl (Nat.le_add_right cost _) (hstack ▸ h.append (T (r + 1)))
          exact ⟨st', front', hafter, hscr.trans hscratch, harr', hpend⟩
        · -- the bucket is left to the stack
          have hne : bucket (msdDigit bytes d) w (r + 1) ≠ [] := List.ne_nil_of_length_pos (by omega)
          have hframe := Pending.frame [] h (hT r) (fun _ => hreach) (Nat.add_le_add_left (hpay hne) cost)
          rw [List.append_nil, List.append_nil, hfront, Nat.add_assoc] at hframe
          rw [if_neg hfull, hstack]
          obtain ⟨st', front', hafter, hscr, harr', hpend⟩ := @hnext
            { st.reserve mem with
              stack := ⟨lo + offset (sizes bytes d w) (r + 1),
                lo + (offset (sizes bytes d w) (r + 1) + (bucket (msdDigit bytes d) w (r + 1)).length), d + 1⟩
                  :: st.stack }
            _ _ (by rw [List.length_append, hlen]) (by rw [hreserve, harr]) (Nat.le_refl _) hframe
          exact ⟨st', front', hafter, hscr.trans hscratch, harr', hpend⟩
      · -- one string, or none
        have hsame : T (r + 1) = bucket (msdDigit bytes d) w (r + 1) := (hT r).unique (stableSort_short _ (by omega))
        rw [if_neg htwo]
        exact @hnext st _ _ List.length_append (by rw [hsame, harr]) (Nat.le_add_right cost _)
          (h.append (T (r + 1)))

end

/-! ## A frame -/

/-- The blocks of all digits: the one of the strings that end, and one for each
byte. -/
theorem blocks_digits (B : Nat → List α) : blocks 257 B = B 0 ++ (List.range' 1 256).flatMap B := by
  rw [blocks, List.range_eq_range', List.range'_succ, List.flatMap_cons]

theorem blocks_bucket : blocks 258 (bucket (msdDigit bytes d) w)
    = bucket (msdDigit bytes d) w 0 ++ (List.range' 1 256).flatMap (bucket (msdDigit bytes d) w) := by
  have hlast : bucket (msdDigit bytes d) w 257 = [] := ofKey_eq_nil fun x _ => (msdDigit_lt x).ne
  rw [blocks_succ, hlast, List.append_nil, blocks_digits]

theorem exists_sorted_buckets (bytes : α → List UInt8) (d : Nat) (w : List α) :
    ∃ T : Nat → List α, T 0 = bucket (msdDigit bytes d) w 0
      ∧ (∀ r, StableSort (tail bytes (d + 1)) (bucket (msdDigit bytes d) w (r + 1)) (T (r + 1)))
      ∧ StableSort (tail bytes d) w (blocks 257 T) := by
  have hex : ∀ r, ∃ t, StableSort (tail bytes (d + 1)) (bucket (msdDigit bytes d) w (r + 1)) t := fun r => by
    obtain ⟨t, -, ht⟩ := insertionSort_stable (tail bytes (d + 1)) (bucket (msdDigit bytes d) w (r + 1))
    exact ⟨t, ht⟩
  choose t ht using hex
  refine ⟨fun r => Nat.casesOn r (bucket (msdDigit bytes d) w 0) t, rfl, ht, ?_⟩
  refine .of_buckets (fun x _ => msdDigit_lt x) (fun r _ => ?_) fun x y => tail_lt_of_digit_lt
  cases r with
  | zero => exact bucket_zero_sorted
  | succ r => exact stable_of_next (ht r)

theorem msdFrame_spec (mem : MsdMem) {st : MsdState α} {cost : Nat} {pre w' post out : List α}
    (harr : st.arr = pre ++ w ++ post) (hscratch : w.length ≤ st.scratch.length)
    (hrest : Pending bytes cost st.stack pre out) (hsort : StableSort (tail bytes d) w w') :
    ∃ st', msdFrame bytes mem ⟨pre.length, pre.length + w.length, d⟩ st = some st'
      ∧ st'.scratch.length = st.scratch.length
      ∧ Pending bytes (cost + (w.map fun x => (bytes x).length - d).sum) st'.stack st'.arr (out ++ w' ++ post) := by
  obtain ⟨T, hT0, hT, hblocks⟩ := exists_sorted_buckets bytes d w
  obtain ⟨hhist, hacc⟩ := @count_spec α bytes d w
  have hperm : (blocks 258 (bucket (msdDigit bytes d) w)).Perm w :=
    (buckets_stable w fun x _ => Nat.lt_succ_of_lt (msdDigit_lt x)).perm
  have htake : (st.scratch.take w.length).length = w.length := List.length_take_of_le hscratch
  have hload : loadN st.arr pre.length (pre.length + w.length - pre.length) = some w := by
    rw [harr]
    exact loadN_append rfl (Nat.add_sub_cancel_left _ _)
  have hloadScratch : loadN st.scratch 0 w.length = some (st.scratch.take w.length) := by
    rw [loadN, if_pos (by omega), List.drop_zero]
  have hstoreScratch : storeN st.scratch 0 (blocks 258 (bucket (msdDigit bytes d) w))
      = some (blocks 258 (bucket (msdDigit bytes d) w) ++ st.scratch.drop w.length) := by
    rw [storeN, hperm.length_eq, if_pos (by omega), List.take_zero, List.nil_append, Nat.zero_add]
  have hstore : storeN st.arr pre.length (blocks 258 (bucket (msdDigit bytes d) w))
      = some (pre ++ blocks 258 (bucket (msdDigit bytes d) w) ++ post) := by
    rw [harr]
    exact storeN_append rfl hperm.length_eq
  have hdist := @distribute_spec α bytes d w _ htake
  have hstart : (pre ++ bucket (msdDigit bytes d) w 0).length = pre.length + offset (sizes bytes d w) (0 + 1) := by
    rw [List.length_append, offset_succ]
    exact congrArg (pre.length + ·) (Nat.zero_add _).symm
  have hsplit : pre ++ blocks 258 (bucket (msdDigit bytes d) w) ++ post
      = pre ++ bucket (msdDigit bytes d) w 0 ++ (List.range' (0 + 1) 256).flatMap (bucket (msdDigit bytes d) w)
        ++ post := by
    rw [blocks_bucket, ← List.append_assoc pre]
  obtain ⟨st', front', hpush, hscr, harr', hpend⟩ := @pushBuckets_spec α bytes d w T post mem hT pre.length 256 0 rfl
    { st with
      arr := pre ++ blocks 258 (bucket (msdDigit bytes d) w) ++ post
      scratch := blocks 258 (bucket (msdDigit bytes d) w) ++ st.scratch.drop w.length }
    cost _ _ hstart hsplit (hrest.append (bucket (msdDigit bytes d) w 0))
  refine ⟨st', ?_, ?_, ?_⟩
  · simp only [msdFrame, hload, hhist, hacc, hloadScratch, hdist, hstoreScratch, hstore, Option.bind_eq_bind,
      Option.bind_some]
    exact hpush
  · rw [hscr, List.length_append, hperm.length_eq, List.length_drop]
    omega
  · have hcost :
        (((List.range' (0 + 1) 256).flatMap (bucket (msdDigit bytes d) w)).map fun x => (bytes x).length - d).sum
          ≤ (w.map fun x => (bytes x).length - d).sum := by
      rw [blocks_bucket] at hperm
      rw [← (hperm.map fun x => (bytes x).length - d).sum_eq, List.map_append, List.sum_append]
      exact Nat.le_add_left _ _
    have hout : out ++ bucket (msdDigit bytes d) w 0 ++ (List.range' (0 + 1) 256).flatMap T = out ++ w' := by
      rw [hsort.unique hblocks, blocks_digits, hT0, List.append_assoc]
    rw [harr', ← hout]
    exact (hpend.append post).mono (Nat.add_le_add_left hcost cost)

/-! ## The loop -/

theorem Pending.length_eq {cost : Nat} {stack : List MsdFrame} {arr out : List α}
    (h : Pending bytes cost stack arr out) : arr.length = out.length := by
  induction h with
  | done => rfl
  | frame post _ hsort _ _ ih => simp only [List.length_append, ih, hsort.length_eq]

/-- Every frame is paid for, and with the last one the array is `out`. -/
theorem msdLoop_spec (mem : MsdMem) (fuel : Nat) {st : MsdState α} {cost : Nat} {out : List α}
    (h : Pending bytes cost st.stack st.arr out) (hscratch : out.length ≤ st.scratch.length) (hfuel : cost < fuel) :
    ∃ st', msdLoop bytes mem fuel st = some st' ∧ st'.arr = out ∧ st'.scratch.length = st.scratch.length := by
  induction fuel generalizing st cost with
  | zero => exact absurd hfuel (Nat.not_lt_zero _)
  | succ fuel ih =>
      rw [msdLoop]
      generalize hstack : st.stack = stack at h
      generalize harr : st.arr = arr at h
      cases h with
      | done => exact ⟨st, rfl, harr, rfl⟩
      | @frame cost₀ _ d stack pre out w w' post hrest hsort hshort hcost =>
          have hroom : w.length ≤ st.scratch.length := by
            rw [List.length_append, List.length_append, hsort.length_eq] at hscratch
            omega
          rw [frameCost] at hcost
          dsimp only
          rw [Nat.add_sub_cancel_left]
          by_cases hcut : w.length < subStringsMsdCutover
          · -- a short range is sorted at once
            have hsorted := @subInsertionSort_tail α bytes d w w' pre post _ _ rfl rfl (hshort hcut) hsort
            have hpend := hrest.append (w' ++ post)
            rw [← List.append_assoc, ← List.append_assoc] at hpend
            rw [if_pos hcut, hsorted, Option.bind_eq_bind, Option.bind_some]
            exact @ih { st with arr := pre ++ w' ++ post, stack := stack } cost₀ hpend hscratch (by omega)
          · obtain ⟨st', hframe, hlen, hpend⟩ := @msdFrame_spec α bytes d w mem
              { st with arr := pre ++ w ++ post, stack := stack } cost₀ pre w' post out rfl hroom hrest hsort
            rw [if_neg hcut, hframe, Option.bind_eq_bind, Option.bind_some]
            obtain ⟨st'', hloop, hout, hlen'⟩ := ih hpend (by rw [hlen]; exact hscratch) (by omega)
            exact ⟨st'', hloop, hout, hlen'.trans hlen⟩

/-! ## The sort -/

section

variable {pre post scratch : List α} (mem : MsdMem) (indices : Bool)

/-- The allocations in front of the loop succeed. -/
def MsdMem.ready (mem : MsdMem) (indices : Bool) : Bool := (!indices || mem.idxScratch) && mem.stack

theorem msdLoop_short (hshort : w.length < subStringsMsdCutover) (fuel : Nat) {w' : List α} (cap tries : Nat)
    (hsorted : subInsertionSort bytes pre.length (pre.length + w.length) d (pre ++ w ++ post)
      = some (pre ++ w' ++ post)) :
    msdLoop bytes mem (2 + fuel) ⟨pre ++ w ++ post, scratch, [⟨pre.length, pre.length + w.length, d⟩], cap, tries⟩
      = some ⟨pre ++ w' ++ post, scratch, [], cap, tries⟩ := by
  rw [Nat.add_comm, msdLoop]
  dsimp only
  rw [Nat.add_sub_cancel_left, if_pos hshort, hsorted, Option.bind_eq_bind, Option.bind_some, msdLoop]

/-- **`sub_msd_radix`** sorts its range. With 16 strings or more, and the memory
for the stack, that is by the bytes from the depth on; else by these and the
length. -/
theorem subMsdRadix_spec (hscratch : (pre ++ w ++ post).length ≤ scratch.length) :
    ∃ w' scratch', subMsdRadix bytes mem indices scratch pre.length (pre.length + w.length) d (pre ++ w ++ post)
        = some (pre ++ w' ++ post, scratch') ∧ scratch'.length = scratch.length ∧
      if subStringsMsdCutover ≤ w.length ∧ mem.ready indices = true then StableSort (tail bytes d) w w'
      else StableSort (tailKey bytes d) w w' := by
  obtain ⟨s, hinsert, hs⟩ := @subInsertionSort_spec α bytes d w pre post _ _ rfl rfl
  have hgranted : (indices && !mem.idxScratch || !mem.stack) = !mem.ready indices := by
    rw [MsdMem.ready, Bool.not_and, Bool.not_or, Bool.not_not]
  rw [subMsdRadix, Nat.add_sub_cancel_left, hgranted]
  by_cases hone : w.length < 2
  · refine ⟨w, scratch, if_pos hone, rfl, ?_⟩
    rw [if_neg fun h => Nat.not_lt.mpr h.1 (hone.trans (by decide : 2 < subStringsMsdCutover))]
    exact stableSort_short _ (by omega)
  · rw [if_neg hone]
    by_cases hready : mem.ready indices = true
    · have hload : loadN (pre ++ w ++ post) pre.length w.length = some w := loadN_append rfl rfl
      rw [if_neg (by rw [hready]; exact Bool.false_ne_true), hload, Option.bind_eq_bind, Option.bind_some, msdFuel]
      by_cases hcut : subStringsMsdCutover ≤ w.length
      · obtain ⟨w', -, hw'⟩ := insertionSort_stable (tail bytes d) w
        have hpend : Pending bytes (0 + frameCost bytes d w) [⟨pre.length, pre.length + w.length, d⟩] (pre ++ w ++ post)
            (pre ++ w' ++ post) :=
          .frame post (.done 0 pre) hw' (fun hlt => absurd hcut (Nat.not_le.mpr hlt)) (Nat.le_refl _)
        have hcost : (w.map fun x => (bytes x).length - d).sum ≤ (w.map fun x => (bytes x).length).sum :=
          List.sum_le_sum fun x _ => Nat.sub_le _ d
        obtain ⟨st', hloop, harr, hlen⟩ := @msdLoop_spec α bytes mem (2 + (w.map fun x => (bytes x).length).sum)
          ⟨pre ++ w ++ post, scratch, [⟨pre.length, pre.length + w.length, d⟩], 64, 0⟩ _ _ hpend
          (hpend.length_eq ▸ hscratch) (by rw [frameCost]; omega)
        rw [hloop, Option.bind_eq_bind, Option.bind_some, harr]
        exact ⟨w', st'.scratch, rfl, hlen, by rwa [if_pos ⟨hcut, hready⟩]⟩
      · rw [@msdLoop_short α bytes d w pre post scratch mem (Nat.not_le.mp hcut) _ s 64 0 hinsert, Option.bind_eq_bind,
          Option.bind_some]
        exact ⟨s, scratch, rfl, rfl, by rwa [if_neg fun h => hcut h.1]⟩
    · rw [if_pos (by rw [Bool.not_eq_true] at hready; rw [hready]; rfl), hinsert, Option.bind_eq_bind, Option.bind_some]
      exact ⟨s, scratch, rfl, rfl, by rwa [if_neg fun h => hready h.2]⟩

end

end

end Montauk.Strings
