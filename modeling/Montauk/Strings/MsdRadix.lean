import Mathlib.Data.Prod.Lex
import Montauk.Sort.RadixPar

/-!
# The radix sort of the string sorts

`sub_msd_radix` of `msd_radix.c`: the strings of a range that agree in front of
a depth are distributed by the byte there, and each bucket is left to a stack of
ranges at the next depth. A short range is sorted by insertion, and so is one
that finds no room on the stack.

The array is of any elements that have bytes: pointer, length and index are
moved together. Strings that end in front of the depth share a bucket, and no
range is pushed for it; the insertion sort orders them by length. Both are
stable sorts, by different keys (`tail`, `tailKey`).
-/

namespace Montauk.Strings

open Montauk.Sort

/-! ## The functions -/

def subStringsMsdCutover : Nat := 16

/-- The loop of `sub_less_byte`, with `n` positions left from `i` on. -/
def lessByteLoop (s t : List UInt8) : Nat → Nat → Option Bool
  | 0, _ => some (decide (s.length < t.length))
  | n + 1, i => do
      let a ← load s i
      let b ← load t i
      if a ≠ b then some (decide (a < b)) else lessByteLoop s t n (i + 1)

def subLessByte (s t : List UInt8) (d : Nat) : Option Bool :=
  lessByteLoop s t (min s.length t.length - d) d

variable {α : Type}

/-- The inner loop of `sub_insertion_sort`, from `j` down. -/
def swapDown (less : α → α → Option Bool) : Nat → List α → Option (List α)
  | 0, arr => some arr
  | j + 1, arr => do
      let x ← load arr (j + 1)
      let y ← load arr j
      let lt ← less x y
      if lt then do
        let arr ← store arr (j + 1) y
        let arr ← store arr j x
        swapDown less j arr
      else some arr

/-- `sub_msd_frame_t`. -/
structure MsdFrame where
  lo : Nat
  hi : Nat
  depth : Nat

/-- What the allocations of a call return: the scratch of the indices, the
stack, and the stack grown for the `i`-th time. -/
structure MsdMem where
  idxScratch : Bool
  stack : Bool
  grow : Nat → Bool

/-- The array and the scratch, the stack with its capacity, and how often it
was to grow. The top of the stack is in front. -/
structure MsdState (α : Type) where
  arr : List α
  scratch : List α
  stack : List MsdFrame
  cap : Nat
  tries : Nat

section
variable (bytes : α → List UInt8)

def subInsertionSort (lo hi depth : Nat) (arr : List α) : Option (List α) :=
  onWindow arr lo (hi - lo) fun w =>
    insertSteps (swapDown fun x y => subLessByte (bytes x) (bytes y) depth) (w.length - 1) 1 w

/-- `c + 1`: the byte at the depth, counted from 1, or 0 behind the end. -/
def msdDigit (depth : Nat) (x : α) : Nat :=
  match (bytes x)[depth]? with
  | none => 0
  | some c => c.toNat + 1

/-- `count[r + 1] += count[r]` for all `r`. -/
def accumulate : Nat → List Nat → List Nat
  | _, [] => []
  | acc, c :: cs => (acc + c) :: accumulate (acc + c) cs

/-- `scratch[count[digit(x)]++] = x` for every element, with the counts. -/
def distribute (digit : α → Nat) : List α → List Nat → List α → Option (List α × List Nat)
  | [], count, b => some (b, count)
  | x :: xs, count, b => do
      let c ← load count (digit x)
      let b ← store b c x
      let count ← store count (digit x) (c + 1)
      distribute digit xs count b

/-- The attempt to make room on a full stack. -/
def MsdState.reserve (mem : MsdMem) (st : MsdState α) : MsdState α :=
  if st.stack.length = st.cap then
    { st with cap := if mem.grow st.tries then st.cap * 2 else st.cap, tries := st.tries + 1 }
  else st

/-- The loop over the buckets of the bytes `r`, `r + 1`, .... -/
def pushBuckets (mem : MsdMem) (lo depth : Nat) (count : List Nat) :
    Nat → Nat → MsdState α → Option (MsdState α)
  | 0, _, st => some st
  | n + 1, r, st => do
      let bs ← load count r
      let be ← load count (r + 1)
      if 2 ≤ be - bs then
        let st := st.reserve mem
        if st.stack.length = st.cap then do
          let arr ← subInsertionSort bytes (lo + bs) (lo + be) (depth + 1) st.arr
          pushBuckets mem lo depth count n (r + 1) { st with arr }
        else pushBuckets mem lo depth count n (r + 1) { st with stack := ⟨lo + bs, lo + be, depth + 1⟩ :: st.stack }
      else pushBuckets mem lo depth count n (r + 1) st

def msdFrame (mem : MsdMem) (f : MsdFrame) (st : MsdState α) : Option (MsdState α) := do
  let w ← loadN st.arr f.lo (f.hi - f.lo)
  let count ← histogram (fun x => msdDigit bytes f.depth x + 1) w (List.replicate 258 0)
  let b ← loadN st.scratch 0 w.length
  let (b, count) ← distribute (msdDigit bytes f.depth) w (accumulate 0 count) b
  let scratch ← storeN st.scratch 0 b
  let arr ← storeN st.arr f.lo b
  pushBuckets bytes mem f.lo f.depth count 256 0 { st with arr, scratch }

/-- The loop of `sub_msd_radix`. -/
def msdLoop (mem : MsdMem) : Nat → MsdState α → Option (MsdState α)
  | 0, _ => none
  | fuel + 1, st =>
      match st.stack with
      | [] => some st
      | f :: stack =>
          if f.hi - f.lo < subStringsMsdCutover then do
            let arr ← subInsertionSort bytes f.lo f.hi f.depth st.arr
            msdLoop mem fuel { st with arr, stack }
          else do
            let st ← msdFrame bytes mem f { st with stack }
            msdLoop mem fuel st

/-- A bound for the frames of a range: one, and one for each byte of it. -/
def msdFuel (w : List α) : Nat := 2 + (w.map fun x => (bytes x).length).sum

/-- `sub_msd_radix`: the array and the scratch. `indices` says whether indices
are moved, too. -/
def subMsdRadix (mem : MsdMem) (indices : Bool) (scratch : List α) (lo hi depth : Nat) (arr : List α) :
    Option (List α × List α) :=
  if hi - lo < 2 then some (arr, scratch)
  else if indices && !mem.idxScratch || !mem.stack then do
    let arr ← subInsertionSort bytes lo hi depth arr
    some (arr, scratch)
  else do
    let w ← loadN arr lo (hi - lo)
    let st ← msdLoop bytes mem (msdFuel bytes w) ⟨arr, scratch, [⟨lo, hi, depth⟩], 64, 0⟩
    some (st.arr, st.scratch)

end

/-! ## The order -/

def codes (s : List UInt8) : List Nat := s.map UInt8.toNat

/-- What the insertion sort compares: the bytes from `d` on, then the length. -/
def tailOrder (d : Nat) (s : List UInt8) : List Nat ×ₗ Nat := toLex (codes (s.drop d), s.length)

theorem codes_drop_of_le {d : Nat} {s : List UInt8} (h : s.length ≤ d) : codes (s.drop d) = [] := by
  rw [List.drop_eq_nil_of_le h]
  rfl

theorem codes_drop_of_lt {d : Nat} {s : List UInt8} (h : d < s.length) :
    codes (s.drop d) = s[d].toNat :: codes (s.drop (d + 1)) := by
  rw [List.drop_eq_getElem_cons h]
  rfl

theorem tailOrder_lt_iff {d : Nat} {s t : List UInt8} : tailOrder d s < tailOrder d t ↔
    codes (s.drop d) < codes (t.drop d) ∨ codes (s.drop d) = codes (t.drop d) ∧ s.length < t.length :=
  Prod.Lex.toLex_lt_toLex

theorem lessByteLoop_eq (s t : List UInt8) (n i : Nat) (h : n = min s.length t.length - i) :
    lessByteLoop s t n i = some (decide (tailOrder i s < tailOrder i t)) := by
  induction n generalizing i with
  | zero =>
      rw [lessByteLoop]
      congr 1
      refine decide_eq_decide.mpr ?_
      rw [tailOrder_lt_iff]
      -- one of them ends here
      by_cases hs : s.length ≤ i
      · rw [codes_drop_of_le hs]
        by_cases ht : t.length ≤ i
        · rw [codes_drop_of_le ht]
          simp only [lt_irrefl, true_and, false_or]
        · rw [codes_drop_of_lt (by omega)]
          exact iff_of_true (by omega) (.inl (List.nil_lt_cons _ _))
      · have ht : t.length ≤ i := by omega
        rw [codes_drop_of_le ht, codes_drop_of_lt (by omega : i < s.length)]
        refine iff_of_false (by omega) ?_
        rintro (hlt | ⟨heq, -⟩)
        · exact List.not_lt_nil _ hlt
        · cases heq
  | succ n ih =>
      have hs : i < s.length := by omega
      have ht : i < t.length := by omega
      rw [lessByteLoop, load_of_lt hs, load_of_lt ht, Option.bind_eq_bind, Option.bind_some, Option.bind_some]
      have hiff : tailOrder i s < tailOrder i t ↔ s[i] < t[i] ∨ s[i] = t[i] ∧ tailOrder (i + 1) s < tailOrder (i + 1) t := by
        rw [tailOrder_lt_iff, tailOrder_lt_iff, codes_drop_of_lt hs, codes_drop_of_lt ht, List.cons_lt_cons_iff,
          List.cons.injEq, UInt8.toNat_inj, UInt8.lt_iff_toNat_lt]
        tauto
      by_cases heq : s[i] = t[i]
      · rw [if_neg fun hne => hne heq, ih (i + 1) (by omega)]
        congr 1
        refine decide_eq_decide.mpr (Iff.trans ?_ hiff.symm)
        rw [heq]
        simp only [true_and, UInt8.lt_irrefl, false_or]
      · rw [if_pos heq]
        congr 1
        refine decide_eq_decide.mpr (Iff.trans ?_ hiff.symm)
        simp only [heq, false_and, or_false]

theorem subLessByte_eq (s t : List UInt8) (d : Nat) :
    subLessByte s t d = some (decide (tailOrder d s < tailOrder d t)) :=
  lessByteLoop_eq s t _ d rfl

/-! ## Insertion -/

section
variable {κ : Type} [LinearOrder κ] {key : α → κ} {less : α → α → Option Bool}

/-- The inner loop carries an element down in front of those that are larger. -/
theorem swapDown_spec (hless : ∀ x y, less x y = some (decide (key x < key y))) (P : List α) (x : α)
    (rest : List α) :
    ∃ P1 P2, P = P1 ++ P2 ∧ swapDown less P.length (P ++ x :: rest) = some (P1 ++ x :: P2 ++ rest) ∧
      (∀ y ∈ P2, key x < key y) ∧ ∀ Q z, P1 = Q ++ [z] → key z ≤ key x := by
  induction P using List.reverseRecOn generalizing rest with
  | nil => exact ⟨[], [], rfl, rfl, nofun, fun Q z h => absurd h.symm (List.append_ne_nil_of_right_ne_nil Q nofun)⟩
  | append_singleton P y ih =>
      have hx : load (P ++ [y] ++ x :: rest) (P.length + 1) = some x :=
        load_append (by rw [List.length_append, List.length_singleton])
      have hy : load (P ++ [y] ++ x :: rest) P.length = some y := by
        rw [List.append_assoc]
        exact load_append rfl
      rw [List.length_append, List.length_singleton, swapDown, hx, hy, Option.bind_eq_bind, Option.bind_some,
        Option.bind_some, hless, Option.bind_eq_bind, Option.bind_some]
      by_cases hlt : key x < key y
      · have hup : store (P ++ [y] ++ x :: rest) (P.length + 1) y = some (P ++ [y] ++ y :: rest) :=
          store_append (by rw [List.length_append, List.length_singleton])
        have hdown : store (P ++ [y] ++ y :: rest) P.length x = some (P ++ x :: (y :: rest)) := by
          rw [List.append_assoc]
          exact store_append rfl
        obtain ⟨P1, P2, rfl, hrun, hlarger, hlast⟩ := ih (y :: rest)
        refine ⟨P1, P2 ++ [y], (List.append_assoc ..), ?_, fun z hz => ?_, hlast⟩
        · rw [if_pos (decide_eq_true hlt), hup, Option.bind_eq_bind, Option.bind_some, hdown, Option.bind_some, hrun]
          simp only [List.append_assoc, List.cons_append, List.nil_append]
        · rcases List.mem_append.mp hz with hz | hz
          · exact hlarger z hz
          · exact List.mem_singleton.mp hz ▸ hlt
      · refine ⟨P ++ [y], [], (List.append_nil _).symm, ?_, nofun, fun Q z h => ?_⟩
        · rw [if_neg (by rw [decide_eq_true_iff]; exact hlt)]
          simp only [List.append_assoc, List.cons_append, List.nil_append]
        · obtain ⟨-, hz⟩ := List.append_inj' h rfl
          rw [← List.singleton_inj.mp hz]
          exact not_lt.mp hlt

theorem swapSort_stable (hless : ∀ x y, less x y = some (decide (key x < key y))) (w : List α) :
    ∃ w', insertSteps (swapDown less) (w.length - 1) 1 w = some w' ∧ StableSort key w w' := by
  refine insertSteps_all ?_ (.refl List.Pairwise.nil) (fun x => .refl (List.pairwise_singleton _ x)) w
  intro P0 P x rest h
  obtain ⟨P1, P2, rfl, hrun, hlarger, hlast⟩ := swapDown_spec hless P x rest
  refine ⟨P1 ++ x :: P2, hrun, ?_, h.insert_front (fun z hz => ?_) hlarger⟩
  · simp only [List.length_append, List.length_cons]
    omega
  · obtain ⟨Q, v, hv⟩ := exists_concat (List.length_pos_of_mem hz)
    have hasc := h.sorted.left
    rw [hv] at hasc hz
    exact (hasc.le_last z hz).trans (hlast Q v hv)

end

section
variable {bytes : α → List UInt8} {d : Nat} {w : List α}

/-- The bytes from `d` on. -/
def tail (bytes : α → List UInt8) (d : Nat) (x : α) : List Nat := codes ((bytes x).drop d)

def tailKey (bytes : α → List UInt8) (d : Nat) (x : α) : List Nat ×ₗ Nat := tailOrder d (bytes x)

/-- **`sub_insertion_sort`** sorts its range by the bytes from the depth on and
the length. -/
theorem subInsertionSort_spec {pre post : List α} {lo hi : Nat} (hlo : lo = pre.length) (hhi : hi = lo + w.length) :
    ∃ w', subInsertionSort bytes lo hi d (pre ++ w ++ post) = some (pre ++ w' ++ post) ∧
      StableSort (tailKey bytes d) w w' := by
  have hless : ∀ x y, subLessByte (bytes x) (bytes y) d = some (decide (tailKey bytes d x < tailKey bytes d y)) :=
    fun x y => subLessByte_eq (bytes x) (bytes y) d
  obtain ⟨w', hrun, hsort⟩ := swapSort_stable hless w
  exact ⟨w', onWindow_append hlo (by omega) hrun hsort.length_eq, hsort⟩

theorem tailKey_le_iff {x y : α} (hx : d ≤ (bytes x).length) (hy : d ≤ (bytes y).length) :
    tailKey bytes d x ≤ tailKey bytes d y ↔ tail bytes d x ≤ tail bytes d y := by
  have hlen : ∀ {z : α}, d ≤ (bytes z).length → (tail bytes d z).length = (bytes z).length - d := by
    intro z _
    rw [tail, codes, List.length_map, List.length_drop]
  rw [tailKey, tailKey, tailOrder, tailOrder, Prod.Lex.toLex_le_toLex]
  show tail bytes d x < tail bytes d y ∨ tail bytes d x = tail bytes d y ∧ (bytes x).length ≤ (bytes y).length ↔ _
  refine Iff.trans (or_congr_right (and_iff_left_of_imp fun heq => ?_)) le_iff_lt_or_eq.symm
  have hxlen := hlen hx
  have hylen := hlen hy
  rw [heq] at hxlen
  omega

end

/-! ## Distribution -/

theorem distribute_eq {digit : α → Nat} {w b b' : List α} {count count' : List Nat}
    (hb : scatter digit w count b = some b') (hcount : histogram digit w count = some count') :
    distribute digit w count b = some (b', count') := by
  induction w generalizing count b with
  | nil =>
      cases hb
      cases hcount
      rfl
  | cons x w ih =>
      rw [scatter] at hb
      rw [histogram] at hcount
      obtain ⟨c, hc, hb⟩ := Option.bind_eq_some_iff.mp hb
      obtain ⟨b₁, hb₁, hb⟩ := Option.bind_eq_some_iff.mp hb
      obtain ⟨count₁, hcount₁, hb⟩ := Option.bind_eq_some_iff.mp hb
      simp only [hc, hcount₁, Option.bind_eq_bind, Option.bind_some] at hcount
      simp only [distribute, hc, hb₁, hcount₁, Option.bind_eq_bind, Option.bind_some]
      exact ih hb hcount

theorem accumulate_map_range (f : Nat → Nat) (m acc : Nat) :
    accumulate acc ((List.range m).map f) = (List.range m).map fun d => acc + offset f (d + 1) := by
  have happend : ∀ (cs ds : List Nat) (a : Nat), accumulate a (cs ++ ds) = accumulate a cs ++ accumulate (a + cs.sum) ds := by
    intro cs ds
    induction cs with
    | nil => exact fun a => rfl
    | cons c cs ih =>
        intro a
        rw [List.cons_append, accumulate, ih, accumulate, List.sum_cons, Nat.add_assoc]
        rfl
  induction m with
  | zero => rfl
  | succ m ih =>
      rw [List.range_succ, List.map_append, happend, ih, List.map_append]
      rw [List.map_singleton, accumulate, accumulate, List.map_singleton, offset_succ, offset, Nat.add_assoc]

section
variable {bytes : α → List UInt8} {d : Nat} {w : List α}

theorem msdDigit_lt (x : α) : msdDigit bytes d x < 257 := by
  rw [msdDigit]
  split
  · exact Nat.succ_pos _
  · rename_i c _
    exact Nat.succ_lt_succ c.toNat_lt

def sizes (bytes : α → List UInt8) (d : Nat) (w : List α) (r : Nat) : Nat := (bucket (msdDigit bytes d) w r).length

/-- The counts, after the sums, are the places of the buckets; behind the
distribution, their ends. -/
theorem count_spec (w : List α) :
    histogram (fun x => msdDigit bytes d x + 1) w (List.replicate 258 0)
        = some ((List.range 258).map fun r => (bucket (fun x => msdDigit bytes d x + 1) w r).length) ∧
      accumulate 0 ((List.range 258).map fun r => (bucket (fun x => msdDigit bytes d x + 1) w r).length)
        = (List.range 258).map (offset (sizes bytes d w)) := by
  refine ⟨histogram_spec w fun x _ => Nat.succ_lt_succ (msdDigit_lt x), ?_⟩
  have hshift : ∀ r, (bucket (fun x => msdDigit bytes d x + 1) w (r + 1)).length = sizes bytes d w r := by
    intro r
    rw [sizes, bucket, bucket, ofKey, ofKey]
    simp only [Nat.add_right_cancel_iff]
  have hzero : (bucket (fun x => msdDigit bytes d x + 1) w 0).length = 0 := by
    rw [bucket, ofKey_eq_nil fun x _ => Nat.succ_ne_zero _]
    rfl
  rw [accumulate_map_range]
  refine List.map_congr_left fun r hr => ?_
  clear hr
  rw [Nat.zero_add]
  induction r with
  | zero => rw [offset_succ, hzero]; rfl
  | succ r ih => rw [offset_succ, ih, hshift, offset_succ]

theorem distribute_spec (w b : List α) (hb : b.length = w.length) :
    distribute (msdDigit bytes d) w ((List.range 258).map (offset (sizes bytes d w))) b
      = some (blocks 258 (bucket (msdDigit bytes d) w),
        (List.range 258).map fun r => offset (sizes bytes d w) (r + 1)) := by
  have hlt : ∀ x ∈ w, msdDigit bytes d x < 258 := fun x _ => Nat.lt_succ_of_lt (msdDigit_lt x)
  have hscatter := scatter_spec w b hlt hb
  rw [offsets_map_range] at hscatter
  have hcount : histogram (msdDigit bytes d) w ((List.range 258).map (offset (sizes bytes d w)))
      = some ((List.range 258).map fun r => offset (sizes bytes d w) r + sizes bytes d w r) :=
    histogram_append (offset (sizes bytes d w)) [] w hlt
  simp only [← offset_succ] at hcount
  exact distribute_eq hscatter hcount

end

end Montauk.Strings
