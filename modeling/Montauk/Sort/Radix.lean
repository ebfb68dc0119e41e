import Montauk.Sort.Words
import Montauk.Sort.Insertion

/-!
# The serial radix sort

`radix.c`: a least-significant-byte-first radix sort over unsigned words. One
scan counts all byte columns; a pass gathers a line of `wc` words for every
bucket and copies full lines, the rest at the end; a column in which all words
agree is skipped. Signed arrays are sorted through their keys.

A failed allocation falls back to an insertion sort. `malloc` is given as what
it returns: nothing, or memory with arbitrary contents.
-/

namespace Montauk.Sort

variable {α : Type}

/-- An allocation of `n` elements: `none` when it fails, else what the memory
held before. -/
def malloc (mem : Option (Nat → α)) (n : Nat) : Option (List α) :=
  mem.map fun contents => (List.range n).map contents

theorem length_malloc {mem : Option (Nat → α)} {n : Nat} {buf : List α}
    (h : malloc mem n = some buf) : buf.length = n := by
  obtain ⟨contents, -, rfl⟩ := Option.map_eq_some_iff.mp h
  rw [List.length_map, List.length_range]

theorem malloc_isSome {mem : Option (Nat → α)} (h : mem.isSome = true) (n : Nat) :
    ∃ buf, malloc mem n = some buf ∧ buf.length = n := by
  obtain ⟨contents, rfl⟩ := Option.isSome_iff_exists.mp h
  exact ⟨(List.range n).map contents, rfl, by rw [List.length_map, List.length_range]⟩

/-! ## The counting scan -/

section
variable (digit : Nat → α → Nat)

/-- `hist[0][byte 0 of v]++; hist[1][byte 1 of v]++; ...` -/
def countColumns (v : α) : Nat → List (List Nat) → Option (List (List Nat))
  | _, [] => some []
  | p, h :: hist => do
      let c ← load h (digit p v)
      let h ← store h (digit p v) (c + 1)
      let hist ← countColumns v (p + 1) hist
      some (h :: hist)

def histograms : List α → List (List Nat) → Option (List (List Nat))
  | [], hist => some hist
  | v :: vs, hist => do
      let hist ← countColumns digit v 0 hist
      histograms vs hist

end

/-! ## The write-combining scatter -/

section
variable (digit : α → Nat) (wc : Nat)

/-- The scatter loop of a pass. `lines` holds what is in the line of each
bucket, its length is `pos[d]`. -/
def wcScatter : List α → List α → List Nat → List (List α) →
    Option (List α × List Nat × List (List α))
  | [], dst, head, lines => some (dst, head, lines)
  | v :: vs, dst, head, lines => do
      let line ← load lines (digit v)
      if line.length + 1 = wc then
        let h ← load head (digit v)
        let dst ← storeN dst h (line ++ [v])
        let head ← store head (digit v) (h + wc)
        let lines ← store lines (digit v) []
        wcScatter vs dst head lines
      else
        let lines ← store lines (digit v) (line ++ [v])
        wcScatter vs dst head lines

/-- The lines that are not full, at the end of a pass. -/
def wcFlush : Nat → List (List α) → List α → List Nat → Option (List α)
  | _, [], dst, _ => some dst
  | d, line :: lines, dst, head =>
      if line.length = 0 then wcFlush (d + 1) lines dst head
      else do
        let h ← load head d
        let dst ← storeN dst h line
        wcFlush (d + 1) lines dst head

end

/-! ## The sort -/

/-- `RADIX_INSERTION`: below this, radix's fixed pass overhead loses. -/
def radixInsertion : Nat := 32

/-- The passes over the columns of `hist`, the first of them `p`. `swapped`
says that `src` is the scratch half. -/
def corePasses (digit : Nat → α → Nat) (wc : Nat) :
    Nat → List (List Nat) → List α → List α → Bool → Option (List α × List α × Bool)
  | _, [], src, dst, swapped => some (src, dst, swapped)
  | p, h :: hist, src, dst, swapped => do
      let first ← load src 0
      let c ← load h (digit p first)
      if c = src.length then corePasses digit wc (p + 1) hist src dst swapped
      else
        let (dst, head, lines) ←
          wcScatter (digit p) wc src dst (offsets 0 h) (List.replicate 256 [])
        let dst ← wcFlush 0 lines dst head
        corePasses digit wc (p + 1) hist dst src !swapped

/-- `radix_u64_core` and `radix_u32_core`, for words of `bytes` bytes. -/
def radixCore (gt : α → α → Bool) (digit : Nat → α → Nat) (bytes wc : Nat) (arr buf : List α) :
    Option (List α) :=
  if arr.length < radixInsertion then insertionSort gt arr
  else do
    let hist ← histograms digit arr (List.replicate bytes (List.replicate 256 0))
    let (src, dst, swapped) ← corePasses digit wc 0 hist arr buf false
    if swapped then
      let sorted ← loadN src 0 arr.length
      storeN dst 0 sorted
    else some src

def radixU64Core (arr buf : List UInt64) : Option (List UInt64) :=
  radixCore (fun x y => y.toNat < x.toNat) (fun p v => byte64 v p) 8 8 arr buf

def radixU32Core (arr buf : List UInt32) : Option (List UInt32) :=
  radixCore (fun x y => y.toNat < x.toNat) (fun p v => byte32 v p) 4 16 arr buf

/-- The insertion sort of `OOM_FALLBACK`. -/
def oomSort [SubInt α] (arr : List α) : Option (List α) :=
  insertionSort (fun x y => SubInt.value y < SubInt.value x) arr

def subRadixSortU64 (buf : Option (Nat → UInt64)) (arr : List UInt64) : Option (List UInt64) :=
  if arr.length < 2 then some arr
  else
    match malloc buf arr.length with
    | none => oomSort arr
    | some buf => radixU64Core arr buf

def subRadixSortU32 (buf : Option (Nat → UInt32)) (arr : List UInt32) : Option (List UInt32) :=
  if arr.length < 2 then some arr
  else
    match malloc buf arr.length with
    | none => oomSort arr
    | some buf => radixU32Core arr buf

/-- The keys have a buffer of their own: `keysOk` says that it could be
allocated, it is filled before it is read. -/
def subRadixSortI64 (keysOk : Bool) (buf : Option (Nat → UInt64)) (arr : List Int64) :
    Option (List Int64) :=
  if arr.length < 2 then some arr
  else
    match malloc buf arr.length with
    | none => oomSort arr
    | some buf =>
        if !keysOk then oomSort arr
        else do
          let keys ← radixU64Core (arr.map key64) buf
          some (keys.map unkey64)

def subRadixSortI32 (keysOk : Bool) (buf : Option (Nat → UInt32)) (arr : List Int32) :
    Option (List Int32) :=
  if arr.length < 2 then some arr
  else
    match malloc buf arr.length with
    | none => oomSort arr
    | some buf =>
        if !keysOk then oomSort arr
        else do
          let keys ← radixU32Core (arr.map key32) buf
          some (keys.map unkey32)

/-! ## The histograms -/

section
variable {digit : Nat → α → Nat} {m : Nat}

/-- The histogram of column `p`. -/
def column (digit : Nat → α → Nat) (m : Nat) (xs : List α) (p : Nat) : List Nat :=
  (List.range m).map fun d => (bucket (digit p) xs d).length

theorem countColumns_spec (xs : List α) (v : α) (hv : ∀ p, digit p v < m) (p k : Nat) :
    countColumns digit v p ((List.range' p k).map (column digit m xs))
      = some ((List.range' p k).map (column digit m (xs ++ [v]))) := by
  induction k generalizing p with
  | zero => rfl
  | succ k ih =>
      rw [List.range'_succ, List.map_cons, countColumns, column, load_map_range _ (hv p)]
      show (store _ (digit p v) _).bind _ = _
      rw [store_map_range _ _ (hv p), update_bucket_length]
      show (countColumns digit v (p + 1) _).bind _ = _
      rw [ih]
      rfl

theorem histograms_append (xs ys : List α) (h : ∀ p, ∀ y ∈ ys, digit p y < m) (k : Nat) :
    histograms digit ys ((List.range' 0 k).map (column digit m xs))
      = some ((List.range' 0 k).map (column digit m (xs ++ ys))) := by
  induction ys generalizing xs with
  | nil => rw [histograms, List.append_nil]
  | cons y ys ih =>
      rw [histograms, countColumns_spec xs y fun p => h p y List.mem_cons_self]
      show histograms digit ys _ = _
      rw [ih (xs ++ [y]) fun p z hz => h p z (List.mem_cons_of_mem _ hz), List.append_assoc]
      rfl

theorem histograms_spec (xs : List α) (h : ∀ p, ∀ x ∈ xs, digit p x < m) (k : Nat) :
    histograms digit xs (List.replicate k (List.replicate m 0))
      = some ((List.range' 0 k).map (column digit m xs)) := by
  have hzero : List.replicate k (List.replicate m 0)
      = (List.range' 0 k).map (column digit m ([] : List α)) := by
    symm
    rw [List.eq_replicate_iff]
    simp [column, bucket]
  rw [hzero, histograms_append [] xs h]
  rfl

theorem column_perm {xs ys : List α} (h : xs.Perm ys) (p : Nat) :
    column digit m xs p = column digit m ys p :=
  List.map_congr_left fun _ _ => (h.filter _).length_eq

end

/-! ## The scatter -/

section
variable {digit : α → Nat} {m wc : Nat}

/-- What the scatter has copied of each bucket (`W`) and what is in its line
(`L`): together the part of the bucket that was read. -/
structure Gathered (digit : α → Nat) (m wc : Nat) (xs : List α) (W L : Nat → List α) : Prop where
  split : ∀ d, d < m → bucket digit xs d = W d ++ L d
  room : ∀ d, d < m → (L d).length < wc

theorem Gathered.full {xs : List α} {W L : Nat → List α} {v : α}
    (h : Gathered digit m wc xs W L) (hwc : 0 < wc) :
    Gathered digit m wc (xs ++ [v]) (Function.update W (digit v) (W (digit v) ++ (L (digit v) ++ [v])))
      (Function.update L (digit v) []) := by
  constructor
  · intro d hd
    by_cases hdv : d = digit v
    · subst hdv
      rw [Function.update_self, Function.update_self, bucket_concat_self, h.split _ hd,
        List.append_nil, List.append_assoc]
    · rw [Function.update_of_ne hdv, Function.update_of_ne hdv, bucket_concat_ne _ hdv, h.split d hd]
  · intro d hd
    by_cases hdv : d = digit v
    · subst hdv
      rw [Function.update_self]
      exact hwc
    · rw [Function.update_of_ne hdv]
      exact h.room d hd

theorem Gathered.line {xs : List α} {W L : Nat → List α} {v : α}
    (h : Gathered digit m wc xs W L) (hroom : (L (digit v)).length + 1 < wc) :
    Gathered digit m wc (xs ++ [v]) W (Function.update L (digit v) (L (digit v) ++ [v])) := by
  constructor
  · intro d hd
    by_cases hdv : d = digit v
    · subst hdv
      rw [Function.update_self, bucket_concat_self, h.split _ hd, List.append_assoc]
    · rw [Function.update_of_ne hdv, bucket_concat_ne _ hdv, h.split d hd]
  · intro d hd
    by_cases hdv : d = digit v
    · subst hdv
      rw [Function.update_self, List.length_append]
      exact hroom
    · rw [Function.update_of_ne hdv]
      exact h.room d hd

/-- Block `d` starts with `W d`, the sizes of the blocks are final. -/
def Placed (m : Nat) (tot : Nat → Nat) (B W : Nat → List α) : Prop :=
  ∀ d, d < m → ∃ free, B d = W d ++ free ∧ (B d).length = tot d

theorem Placed.write {tot : Nat → Nat} {B W : Nat → List α} {d i : Nat} (h : Placed m tot B W)
    (vs : List α) (hd : d < m) (hroom : (W d).length + vs.length ≤ tot d)
    (hi : i = offset tot d + (W d).length) :
    ∃ B', storeN (blocks m B) i vs = some (blocks m B')
      ∧ Placed m tot B' (Function.update W d (W d ++ vs)) := by
  obtain ⟨free, hB, hlen⟩ := h d hd
  have hfree : vs.length ≤ free.length := by
    rw [hB, List.length_append] at hlen
    omega
  have hcut : B d = W d ++ free.take vs.length ++ free.drop vs.length := by
    rw [List.append_assoc, List.take_append_drop, hB]
  refine ⟨Function.update B d (W d ++ vs ++ free.drop vs.length), ?_, fun e he => ?_⟩
  · refine storeN_blocks B hd hcut (by rw [List.length_take, Nat.min_eq_left hfree]) ?_
    rw [hi, offset_congr fun e he => ?_]
    obtain ⟨-, -, hlen⟩ := h e (he.trans hd)
    exact hlen.symm
  · by_cases hed : e = d
    · subst hed
      refine ⟨free.drop vs.length, by rw [Function.update_self, Function.update_self], ?_⟩
      rw [Function.update_self, ← hlen, hB]
      simp only [List.length_append, List.length_drop]
      omega
    · rw [Function.update_of_ne hed, Function.update_of_ne hed]
      exact h e he

theorem Placed.full {xs : List α} {B : Nat → List α}
    (h : Placed m (fun d => (bucket digit xs d).length) B (bucket digit xs)) :
    blocks m B = buckets digit m xs := by
  have hall : ∀ d ∈ List.range m, B d = bucket digit xs d := by
    intro d hd
    obtain ⟨free, hB, hlen⟩ := h d (List.mem_range.mp hd)
    have hnone : free.length = 0 := by
      have htot : (B d).length = (bucket digit xs d).length := hlen
      rw [hB, List.length_append] at htot
      omega
    rw [hB, List.eq_nil_of_length_eq_zero hnone, List.append_nil]
  rw [buckets, blocks, blocks, List.flatMap_def, List.flatMap_def, List.map_congr_left hall]

theorem wcScatter_append (xs ys : List α) (hys : ∀ y ∈ ys, digit y < m) (hwc : 0 < wc)
    (B W L : Nat → List α) (h : Gathered digit m wc xs W L)
    (hB : Placed m (fun d => (bucket digit (xs ++ ys) d).length) B W) :
    ∃ B' W' L', wcScatter digit wc ys (blocks m B)
        ((List.range m).map fun d =>
          offset (fun e => (bucket digit (xs ++ ys) e).length) d + (W d).length)
        ((List.range m).map L)
      = some (blocks m B', (List.range m).map fun d =>
          offset (fun e => (bucket digit (xs ++ ys) e).length) d + (W' d).length,
        (List.range m).map L')
      ∧ Gathered digit m wc (xs ++ ys) W' L'
      ∧ Placed m (fun d => (bucket digit (xs ++ ys) d).length) B' W' := by
  induction ys generalizing xs B W L with
  | nil =>
      refine ⟨B, W, L, rfl, ?_, hB⟩
      rwa [List.append_nil]
  | cons y ys ih =>
      have hy := hys y List.mem_cons_self
      have hcut : xs ++ y :: ys = xs ++ [y] ++ ys := by rw [List.append_assoc]; rfl
      have hsize : (bucket digit (xs ++ y :: ys) (digit y)).length
          = (bucket digit xs (digit y) ++ bucket digit (y :: ys) (digit y)).length :=
        congrArg List.length (bucket_append xs (y :: ys) (digit y))
      rw [bucket_cons_self, h.split _ hy] at hsize
      simp only [List.length_append, List.length_cons] at hsize
      generalize htot : (fun e => (bucket digit (xs ++ y :: ys) e).length) = tot at *
      have htot' : (fun e => (bucket digit (xs ++ [y] ++ ys) e).length) = tot := by rw [← hcut, htot]
      have htoty : tot (digit y) = (bucket digit (xs ++ y :: ys) (digit y)).length := by rw [← htot]
      rw [wcScatter, load_map_range _ hy]
      show ∃ B' W' L', (if (L (digit y)).length + 1 = wc then _ else _) = _ ∧ _
      by_cases hfull : (L (digit y)).length + 1 = wc
      · obtain ⟨B₁, hstore, hB₁⟩ := hB.write (L (digit y) ++ [y]) hy
          (by rw [List.length_append, List.length_singleton]; omega) rfl
        have hhead : Function.update (fun d => offset tot d + (W d).length) (digit y)
            (offset tot (digit y) + (W (digit y)).length + wc)
            = fun d => offset tot d
              + (Function.update W (digit y) (W (digit y) ++ (L (digit y) ++ [y])) d).length := by
          funext d
          by_cases hd : d = digit y
          · subst hd
            rw [Function.update_self, Function.update_self, List.length_append, List.length_append,
              List.length_singleton]
            omega
          · rw [Function.update_of_ne hd, Function.update_of_ne hd]
        rw [if_pos hfull, load_map_range _ hy]
        show ∃ B' W' L', (storeN (blocks m B) _ (L (digit y) ++ [y])).bind _ = _ ∧ _
        rw [hstore]
        show ∃ B' W' L', (store _ (digit y) _).bind _ = _ ∧ _
        rw [store_map_range _ _ hy, hhead]
        show ∃ B' W' L', (store _ (digit y) []).bind _ = _ ∧ _
        rw [store_map_range _ _ hy]
        have hnext := ih (xs ++ [y]) (fun z hz => hys z (List.mem_cons_of_mem _ hz)) B₁ _ _
          (h.full hwc)
        rw [htot', ← hcut] at hnext
        exact hnext hB₁
      · have hroom : (L (digit y)).length + 1 < wc := by
          have := h.room _ hy
          omega
        rw [if_neg hfull]
        show ∃ B' W' L', (store _ (digit y) (L (digit y) ++ [y])).bind _ = _ ∧ _
        rw [store_map_range _ _ hy]
        have hnext := ih (xs ++ [y]) (fun z hz => hys z (List.mem_cons_of_mem _ hz)) B _ _
          (h.line hroom)
        rw [htot', ← hcut] at hnext
        exact hnext hB

/-- The lines from `d` on are copied behind what their blocks have. -/
theorem wcFlush_spec (tot : Nat → Nat) (L W : Nat → List α) (k : Nat) :
    ∀ (d : Nat) (B W' : Nat → List α), d + k = m → Placed m tot B W' →
      (∀ e, d ≤ e → e < m → W' e = W e ∧ (W e).length + (L e).length ≤ tot e) →
      ∃ B', wcFlush d ((List.range' d k).map L) (blocks m B)
          ((List.range m).map fun e => offset tot e + (W e).length) = some (blocks m B')
        ∧ Placed m tot B' fun e => if d ≤ e then W' e ++ L e else W' e := by
  induction k with
  | zero =>
      intro d B W' hd hB hW
      refine ⟨B, rfl, fun e he => ?_⟩
      show ∃ free, B e = (if d ≤ e then _ else _) ++ free ∧ _
      rw [if_neg (by omega)]
      exact hB e he
  | succ k ih =>
      intro d B W' hd hB hW
      have hlt : d < m := by omega
      obtain ⟨hWd, hroom⟩ := hW d (Nat.le_refl d) hlt
      have hrest : ∀ W'' : Nat → List α, (∀ e, W'' e = if e = d then W d ++ L d else W' e) →
          (fun e => if d + 1 ≤ e then W'' e ++ L e else W'' e)
            = fun e => if d ≤ e then W' e ++ L e else W' e := by
        intro W'' hW''
        funext e
        rw [hW'']
        rcases Nat.lt_trichotomy e d with hlt | rfl | hgt
        · rw [if_neg (by omega), if_neg (by omega), if_neg (by omega)]
        · rw [if_neg (by omega), if_pos rfl, if_pos (Nat.le_refl _), hWd]
        · rw [if_pos (by omega), if_neg (by omega), if_pos (by omega)]
      rw [List.range'_succ, List.map_cons, wcFlush]
      by_cases hnil : (L d).length = 0
      · rw [if_pos hnil]
        obtain ⟨B', hrun, hB'⟩ := ih (d + 1) B W' (by omega) hB fun e he => hW e (by omega)
        refine ⟨B', hrun, ?_⟩
        rw [← hrest W' fun e => ?_]
        · exact hB'
        · split
          · rename_i hed
            rw [hed, hWd, List.eq_nil_of_length_eq_zero hnil, List.append_nil]
          · rfl
      · rw [if_neg hnil, load_map_range _ hlt]
        obtain ⟨B₁, hstore, hB₁⟩ := hB.write (L d) hlt (by rw [hWd]; exact hroom) rfl
        show ∃ B', (storeN (blocks m B) (offset tot d + (W d).length) (L d)).bind _ = _ ∧ _
        rw [← hWd, hstore]
        obtain ⟨B', hrun, hB'⟩ := ih (d + 1) B₁ _ (by omega) hB₁ fun e he hem => by
          rw [Function.update_of_ne (by omega)]
          exact hW e (by omega) hem
        refine ⟨B', hrun, ?_⟩
        rw [← hrest _ fun e => ?_]
        · exact hB'
        · rw [Function.update_apply, hWd]

/-- A pass with write combining, into any buffer of the array's length. -/
theorem wcPass_spec (xs dst : List α) (hxs : ∀ x ∈ xs, digit x < m) (hwc : 0 < wc)
    (hdst : dst.length = xs.length) :
    ∃ dst' head lines, wcScatter digit wc xs dst
        (offsets 0 ((List.range m).map fun d => (bucket digit xs d).length))
        (List.replicate m []) = some (dst', head, lines)
      ∧ wcFlush 0 lines dst' head = some (buckets digit m xs) := by
  obtain ⟨B, rfl, hB⟩ := exists_blocks (fun d => (bucket digit xs d).length) dst m
    (hdst.trans (length_buckets xs hxs).symm)
  have hlines : List.replicate m ([] : List α) = (List.range m).map fun _ => [] := by
    symm
    rw [List.eq_replicate_iff]
    simp
  obtain ⟨B', W, L, hscatter, hgathered, hB'⟩ := wcScatter_append [] xs hxs hwc B (fun _ => [])
    (fun _ => []) ⟨fun _ _ => rfl, fun _ _ => hwc⟩ fun d hd => ⟨B d, rfl, hB d hd⟩
  have hflush := wcFlush_spec (fun d => (bucket digit xs d).length) L W m 0 B' W
    (Nat.zero_add m) hB' fun e _ he => ⟨rfl, by rw [← List.length_append, ← hgathered.split e he]; rfl⟩
  obtain ⟨B'', hflush, hB''⟩ := hflush
  refine ⟨blocks m B', (List.range m).map fun d =>
      offset (fun e => (bucket digit xs e).length) d + (W d).length, (List.range m).map L, ?_, ?_⟩
  · rw [offsets_map_range, hlines]
    exact hscatter
  · rw [List.range_eq_range']
    rw [List.range_eq_range'] at hflush
    refine hflush.trans (congrArg some (Placed.full fun d hd => ?_))
    obtain ⟨free, hsplit, hlen⟩ := hB'' d hd
    have hd' : bucket digit xs d = W d ++ L d := hgathered.split d hd
    refine ⟨free, ?_, hlen⟩
    rw [hd', hsplit]
    show (if 0 ≤ d then _ else _) ++ free = _
    rw [if_pos (Nat.zero_le d)]

end

/-! ## The passes -/

section
variable {key : α → Nat} {digit : Nat → α → Nat} {bytes wc : Nat} {arr : List α}

/-- A column in which all words agree is skipped, any other is distributed: the
array is in order by one byte more. -/
theorem corePasses_spec (hdigit : ∀ p x, p < bytes → digit p x = byteOf (key x) p)
    (hlt : ∀ p x, digit p x < 256) (hwc : 0 < wc) (hne : arr ≠ []) (k : Nat) :
    ∀ (p : Nat) (src dst : List α) (swapped : Bool), p + k = bytes →
      StableSort (fun x => key x % 256 ^ p) arr src → dst.length = src.length →
      ∃ src' dst' swapped', corePasses digit wc p ((List.range' p k).map (column digit 256 arr))
          src dst swapped = some (src', dst', swapped')
        ∧ StableSort (fun x => key x % 256 ^ bytes) arr src' ∧ dst'.length = src'.length := by
  induction k with
  | zero =>
      intro p src dst swapped hp hsrc hdst
      refine ⟨src, dst, swapped, rfl, ?_, hdst⟩
      rwa [← hp, Nat.add_zero]
  | succ k ih =>
      intro p src dst swapped hp hsrc hdst
      have hcolumn : column digit 256 arr p = column digit 256 src p :=
        column_perm hsrc.perm.symm p
      obtain ⟨first, rest, rfl⟩ : ∃ first rest, src = first :: rest := by
        refine List.exists_cons_of_ne_nil fun hnil => hne ?_
        rw [hnil] at hsrc
        exact List.eq_nil_of_length_eq_zero hsrc.length_eq.symm
      have hbyte : (fun x => byteOf (key x) p) = digit p := by
        funext x
        exact (hdigit p x (by omega)).symm
      rw [List.range'_succ, List.map_cons, corePasses, hcolumn]
      show ∃ src' dst' swapped', (load (column digit 256 (first :: rest) p) (digit p first)).bind _ = _ ∧ _
      rw [column, load_map_range _ (hlt p first)]
      show ∃ src' dst' swapped',
        (if (bucket (digit p) (first :: rest) (digit p first)).length = _ then _ else _) = _ ∧ _
      split
      · rename_i hconst
        refine ih (p + 1) _ dst swapped (by omega) (hsrc.byte ?_) hdst
        rw [hbyte]
        exact .of_constant hconst
      · obtain ⟨dst₁, head, lines, hscatter, hflush⟩ :=
          wcPass_spec (first :: rest) dst (fun x _ => hlt p x) hwc hdst
        rw [hscatter]
        show ∃ src' dst' swapped', (wcFlush 0 lines dst₁ head).bind _ = _ ∧ _
        rw [hflush]
        have hpass : StableSort (digit p) (first :: rest) (buckets (digit p) 256 (first :: rest)) :=
          buckets_stable _ fun x _ => hlt p x
        refine ih (p + 1) _ (first :: rest) (!swapped) (by omega) (hsrc.byte ?_)
          hpass.length_eq.symm
        rw [hbyte]
        exact hpass

theorem radixCore_spec (hkey : ∀ x, key x < 256 ^ bytes)
    (hdigit : ∀ p x, p < bytes → digit p x = byteOf (key x) p) (hlt : ∀ p x, digit p x < 256)
    (hwc : 0 < wc) (arr buf : List α) (hbuf : buf.length = arr.length) :
    ∃ out, radixCore (fun x y => key y < key x) digit bytes wc arr buf = some out
      ∧ StableSort key arr out := by
  rw [radixCore]
  by_cases hsmall : arr.length < radixInsertion
  · rw [if_pos hsmall]
    exact insertionSort_stable key arr
  · have hne : arr ≠ [] := by
      rintro rfl
      exact hsmall (Nat.zero_lt_succ _)
    obtain ⟨src, dst, swapped, hpasses, hsort, hlen⟩ := corePasses_spec hdigit hlt hwc hne bytes 0
      arr buf false (Nat.zero_add bytes) (.no_bytes arr) hbuf
    have hfull : (fun x => key x % 256 ^ bytes) = key := by
      funext x
      exact Nat.mod_eq_of_lt (hkey x)
    rw [hfull] at hsort
    rw [if_neg hsmall, histograms_spec arr fun p x _ => hlt p x]
    show ∃ out, (corePasses digit wc 0 _ arr buf false).bind _ = _ ∧ _
    rw [hpasses]
    refine ⟨src, ?_, hsort⟩
    cases swapped with
    | false => rfl
    | true =>
        show (loadN src 0 arr.length).bind _ = _
        rw [loadN, if_pos (by rw [hsort.length_eq]; omega), List.drop_zero,
          List.take_of_length_le hsort.length_eq.le]
        show storeN dst 0 src = _
        rw [storeN, if_pos (by omega), List.take_zero, List.nil_append, Nat.zero_add,
          List.drop_of_length_le hlen.le, List.append_nil]

end

theorem radixU64Core_spec (arr buf : List UInt64) (hbuf : buf.length = arr.length) :
    ∃ out, radixU64Core arr buf = some out ∧ StableSort UInt64.toNat arr out :=
  radixCore_spec (fun x => x.toNat_lt) (fun _ x hp => byte64_eq x hp) (fun p x => byte64_lt x p)
    (by decide) arr buf hbuf

theorem radixU32Core_spec (arr buf : List UInt32) (hbuf : buf.length = arr.length) :
    ∃ out, radixU32Core arr buf = some out ∧ StableSort UInt32.toNat arr out :=
  radixCore_spec (fun x => x.toNat_lt) (fun _ x hp => byte32_eq x hp) (fun p x => byte32_lt x p)
    (by decide) arr buf hbuf

/-! ## The entries -/

theorem oomSort_spec [SubInt α] (arr : List α) :
    ∃ out, oomSort arr = some out ∧ StableSort SubInt.value arr out :=
  insertionSort_stable SubInt.value arr

theorem subRadixSortU64_spec (buf : Option (Nat → UInt64)) (arr : List UInt64) :
    ∃ out, subRadixSortU64 buf arr = some out ∧ StableSort SubInt.value arr out := by
  rw [subRadixSortU64]
  split
  · exact ⟨arr, rfl, stableSort_short _ ‹_›⟩
  · split
    · exact oomSort_spec arr
    · obtain ⟨out, hout, hsort⟩ := radixU64Core_spec arr _ (length_malloc ‹_›)
      exact ⟨out, hout, hsort.of_le_iff fun _ _ => Int.ofNat_le⟩

theorem subRadixSortU32_spec (buf : Option (Nat → UInt32)) (arr : List UInt32) :
    ∃ out, subRadixSortU32 buf arr = some out ∧ StableSort SubInt.value arr out := by
  rw [subRadixSortU32]
  split
  · exact ⟨arr, rfl, stableSort_short _ ‹_›⟩
  · split
    · exact oomSort_spec arr
    · obtain ⟨out, hout, hsort⟩ := radixU32Core_spec arr _ (length_malloc ‹_›)
      exact ⟨out, hout, hsort.of_le_iff fun _ _ => Int.ofNat_le⟩

theorem StableSort.of_keys {β : Type} {κ : Type*} [LinearOrder κ] {key : β → κ} {f : α → β}
    {g : β → α} (hgf : ∀ x, g (f x) = x) (hfg : ∀ k, f (g k) = k) {arr : List α} {keys : List β}
    (h : StableSort key (arr.map f) keys) : StableSort (fun x => key (f x)) arr (keys.map g) := by
  constructor
  · refine List.pairwise_map.mpr (h.sorted.imp fun hab => ?_)
    simpa only [hfg] using hab
  · intro k
    have hkeys : ofKey (fun x => key (f x)) k (keys.map g) = (ofKey key k keys).map g := by
      rw [ofKey, ofKey, List.filter_map]
      simp only [Function.comp_def, hfg]
    have harr : ofKey key k (arr.map f) = (ofKey (fun x => key (f x)) k arr).map f := by
      rw [ofKey, ofKey, List.filter_map]
      rfl
    rw [hkeys, h.stable, harr, List.map_map]
    simp only [Function.comp_def, hgf, List.map_id']

theorem subRadixSortI64_spec (keysOk : Bool) (buf : Option (Nat → UInt64)) (arr : List Int64) :
    ∃ out, subRadixSortI64 keysOk buf arr = some out ∧ StableSort SubInt.value arr out := by
  rw [subRadixSortI64]
  split
  · exact ⟨arr, rfl, stableSort_short _ ‹_›⟩
  · split
    · exact oomSort_spec arr
    · rename_i buf' hbuf
      split
      · exact oomSort_spec arr
      · obtain ⟨keys, hkeys, hsort⟩ := radixU64Core_spec (arr.map key64) buf'
          (by rw [length_malloc hbuf, List.length_map])
        refine ⟨keys.map unkey64, ?_, ?_⟩
        · show (radixU64Core (arr.map key64) buf').bind _ = _
          rw [hkeys]
          rfl
        · exact (StableSort.of_keys unkey64_key64 key64_unkey64 hsort).of_le_iff
            fun x y => (SubInt.orderKey_le_iff x y).symm

theorem subRadixSortI32_spec (keysOk : Bool) (buf : Option (Nat → UInt32)) (arr : List Int32) :
    ∃ out, subRadixSortI32 keysOk buf arr = some out ∧ StableSort SubInt.value arr out := by
  rw [subRadixSortI32]
  split
  · exact ⟨arr, rfl, stableSort_short _ ‹_›⟩
  · split
    · exact oomSort_spec arr
    · rename_i buf' hbuf
      split
      · exact oomSort_spec arr
      · obtain ⟨keys, hkeys, hsort⟩ := radixU32Core_spec (arr.map key32) buf'
          (by rw [length_malloc hbuf, List.length_map])
        refine ⟨keys.map unkey32, ?_, ?_⟩
        · show (radixU32Core (arr.map key32) buf').bind _ = _
          rw [hkeys]
          rfl
        · exact (StableSort.of_keys unkey32_key32 key32_unkey32 hsort).of_le_iff
            fun x y => (SubInt.orderKey_le_iff x y).symm

/-! ## `SUB_TYPED(sub_radix_sort)` -/

/-- What the allocations of one call return. -/
structure RadixMem (ω : Type) where
  keysOk : Bool
  buf : Option (Nat → ω)

/-- The radix sort of a type, as the templates call it. -/
class SubRadix (α : Type) extends SubInt α where
  /-- the unsigned word of its scratch -/
  Word : Type
  subRadixSort : RadixMem Word → List α → Option (List α)
  subRadixSort_spec : ∀ mem arr,
    ∃ out, subRadixSort mem arr = some out ∧ StableSort SubInt.value arr out

instance : SubRadix UInt64 where
  Word := UInt64
  subRadixSort mem := subRadixSortU64 mem.buf
  subRadixSort_spec mem := subRadixSortU64_spec mem.buf

instance : SubRadix UInt32 where
  Word := UInt32
  subRadixSort mem := subRadixSortU32 mem.buf
  subRadixSort_spec mem := subRadixSortU32_spec mem.buf

instance : SubRadix Int64 where
  Word := UInt64
  subRadixSort mem := subRadixSortI64 mem.keysOk mem.buf
  subRadixSort_spec mem := subRadixSortI64_spec mem.keysOk mem.buf

instance : SubRadix Int32 where
  Word := UInt32
  subRadixSort mem := subRadixSortI32 mem.keysOk mem.buf
  subRadixSort_spec mem := subRadixSortI32_spec mem.keysOk mem.buf

end Montauk.Sort
