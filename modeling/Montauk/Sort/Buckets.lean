import Mathlib.Algebra.BigOperators.Group.List.Basic
import Mathlib.Algebra.GroupWithZero.Nat
import Mathlib.Data.List.Range
import Mathlib.Logic.Function.Basic
import Montauk.Sort.Stable
import Montauk.Sort.Buffer

/-!
# Distribution by a digit

One pass of a radix sort: a histogram over `m` digits, the offset of every
bucket, and a scatter that writes each element at its bucket's next place. The
result is the concatenation of the buckets, each in the order of the input
(`buckets`), which is the stable sort by the digit.

A pass on a more significant digit over a list that is in order for the less
significant ones is in order for both (`StableSort.lex`).
-/

namespace Montauk.Sort

section
variable {α : Type}

/-- The histogram: `count[digit(x)]++` for every element. -/
def histogram (digit : α → Nat) : List α → List Nat → Option (List Nat)
  | [], count => some count
  | x :: xs, count => do
      let c ← load count (digit x)
      let count ← store count (digit x) (c + 1)
      histogram digit xs count

/-- The offsets of the buckets: the running sum of the counts. -/
def offsets : Nat → List Nat → List Nat
  | _, [] => []
  | acc, c :: cs => acc :: offsets (acc + c) cs

/-- The scatter: `b[count[digit(x)]++] = x` for every element. -/
def scatter (digit : α → Nat) : List α → List Nat → List α → Option (List α)
  | [], _, b => some b
  | x :: xs, count, b => do
      let c ← load count (digit x)
      let b ← store b c x
      let count ← store count (digit x) (c + 1)
      scatter digit xs count b

end

/-! ## Tables and blocks -/

section
variable {α β : Type} {m d : Nat}

theorem load_map_range (f : Nat → β) (hd : d < m) : load ((List.range m).map f) d = some (f d) := by
  rw [load, List.getElem?_map, List.getElem?_range hd]
  rfl

theorem map_update_of_notMem {xs : List Nat} (f : Nat → β) (v : β) (h : d ∉ xs) :
    xs.map (Function.update f d v) = xs.map f := by
  refine List.map_congr_left fun x hx => Function.update_of_ne ?_ ..
  rintro rfl
  exact h hx

theorem range_split (hd : d < m) :
    ∃ rest, List.range m = List.range d ++ d :: rest ∧ d ∉ rest := by
  refine ⟨List.range' (d + 1) (m - d - 1), ?_, ?_⟩
  · have h := List.range'_append_1 (s := 0) (m := d) (n := m - d)
    rw [Nat.add_sub_cancel' hd.le, Nat.zero_add] at h
    rw [List.range_eq_range', List.range_eq_range', ← h]
    congr 1
    obtain ⟨e, he⟩ : ∃ e, m - d = e + 1 := ⟨m - d - 1, by omega⟩
    rw [he, List.range'_succ, Nat.add_sub_cancel]
  · rw [List.mem_range'_1]
    omega

theorem store_map_range (f : Nat → β) (v : β) (hd : d < m) :
    store ((List.range m).map f) d v = some ((List.range m).map (Function.update f d v)) := by
  obtain ⟨rest, hrange, hrest⟩ := range_split hd
  rw [hrange, List.map_append, List.map_cons, List.map_append, List.map_cons,
    Function.update_self, map_update_of_notMem _ _ hrest,
    map_update_of_notMem _ _ (by simp)]
  exact store_append (by rw [List.length_map, List.length_range])

/-- The sum of the first `d` values. -/
def offset (f : Nat → Nat) (d : Nat) : Nat := ((List.range d).map f).sum

theorem offset_succ (f : Nat → Nat) (d : Nat) : offset f (d + 1) = offset f d + f d := by
  rw [offset, List.range_succ, List.map_append, List.sum_append, offset]
  simp

theorem offsets_append (acc : Nat) (cs ds : List Nat) :
    offsets acc (cs ++ ds) = offsets acc cs ++ offsets (acc + cs.sum) ds := by
  induction cs generalizing acc with
  | nil => rfl
  | cons c cs ih =>
      rw [List.cons_append, offsets, ih, offsets, List.sum_cons, Nat.add_assoc]
      rfl

theorem offsets_map_range (f : Nat → Nat) (m : Nat) :
    offsets 0 ((List.range m).map f) = (List.range m).map (offset f) := by
  induction m with
  | zero => rfl
  | succ m ih =>
      rw [List.range_succ, List.map_append, offsets_append, ih, List.map_append, Nat.zero_add]
      rfl

/-- The blocks of an array, one behind the other. -/
def blocks (m : Nat) (B : Nat → List α) : List α := (List.range m).flatMap B

theorem length_blocks (m : Nat) (B : Nat → List α) :
    (blocks m B).length = offset (fun d => (B d).length) m := by
  rw [blocks, List.length_flatMap, offset]

theorem blocks_succ (m : Nat) (B : Nat → List α) : blocks (m + 1) B = blocks m B ++ B m := by
  rw [blocks, List.range_succ, List.flatMap_append, List.flatMap_singleton]
  rfl

theorem flatMap_update_of_notMem {xs : List Nat} (B : Nat → List α) (v : List α) (h : d ∉ xs) :
    xs.flatMap (Function.update B d v) = xs.flatMap B := by
  rw [List.flatMap_def, List.flatMap_def, map_update_of_notMem B v h]

theorem blocks_split (B : Nat → List α) (hd : d < m) :
    ∃ post, ∀ v, blocks m (Function.update B d v) = blocks d B ++ v ++ post := by
  obtain ⟨rest, hrange, hrest⟩ := range_split hd
  refine ⟨rest.flatMap B, fun v => ?_⟩
  rw [blocks, hrange, List.flatMap_append, List.flatMap_cons, Function.update_self,
    flatMap_update_of_notMem _ _ hrest, flatMap_update_of_notMem _ _ (by simp), List.append_assoc]
  rfl

theorem storeN_blocks (B : Nat → List α) (hd : d < m) {pre old vs post : List α} {i : Nat}
    (hB : B d = pre ++ old ++ post) (hvs : vs.length = old.length)
    (hi : i = offset (fun d => (B d).length) d + pre.length) :
    storeN (blocks m B) i vs = some (blocks m (Function.update B d (pre ++ vs ++ post))) := by
  obtain ⟨rest, hsplit⟩ := blocks_split B hd
  have hself : blocks m B = blocks d B ++ (pre ++ old ++ post) ++ rest := by
    rw [← hB, ← hsplit (B d), Function.update_eq_self]
  rw [hself, hsplit]
  have hassoc : ∀ v : List α, blocks d B ++ (pre ++ v ++ post) ++ rest
      = blocks d B ++ pre ++ v ++ (post ++ rest) := by
    intro v
    simp only [List.append_assoc]
  rw [hassoc, hassoc]
  exact storeN_append (by rw [hi, List.length_append, length_blocks]) hvs

theorem loadN_blocks (B : Nat → List α) (hd : d < m) {i n : Nat}
    (hi : i = offset (fun d => (B d).length) d) (hn : n = (B d).length) :
    loadN (blocks m B) i n = some (B d) := by
  obtain ⟨rest, hsplit⟩ := blocks_split B hd
  rw [← Function.update_eq_self d B, hsplit, Function.update_eq_self]
  exact loadN_append (by rw [hi, length_blocks]) hn

theorem onWindow_blocks (B : Nat → List α) (hd : d < m) {f : List α → Option (List α)}
    {w : List α} {i n : Nat} (hi : i = offset (fun d => (B d).length) d) (hn : n = (B d).length)
    (hf : f (B d) = some w) (hw : w.length = (B d).length) :
    onWindow (blocks m B) i n f = some (blocks m (Function.update B d w)) := by
  have hB : B d = [] ++ B d ++ [] := by rw [List.nil_append, List.append_nil]
  rw [onWindow, loadN_blocks B hd hi hn]
  show (f (B d)).bind _ = _
  rw [hf]
  show storeN (blocks m B) i w = _
  rw [storeN_blocks B hd hB hw (by rw [hi]; rfl), List.nil_append, List.append_nil]

theorem load_blocks (B : Nat → List α) (hd : d < m) {pre post : List α} {x : α} {i : Nat}
    (hB : B d = pre ++ x :: post) (hi : i = offset (fun d => (B d).length) d + pre.length) :
    load (blocks m B) i = some x := by
  obtain ⟨rest, hsplit⟩ := blocks_split B hd
  have hself : blocks m B = blocks d B ++ pre ++ x :: (post ++ rest) := by
    rw [← Function.update_eq_self d B, hsplit, Function.update_eq_self, hB]
    simp only [List.append_assoc, List.cons_append]
  rw [hself]
  exact load_append (by rw [hi, List.length_append, length_blocks])

theorem blocks_perm (B : Nat → List α) (hd : d < m) (v : List α) :
    (blocks m (Function.update B d v)).Perm (v ++ blocks m (Function.update B d [])) := by
  obtain ⟨rest, hsplit⟩ := blocks_split B hd
  rw [hsplit, hsplit, List.append_nil, List.append_assoc, ← List.append_assoc v]
  rw [← List.append_assoc]
  exact List.perm_append_comm.append_right rest

theorem blocks_concat_perm (B : Nat → List α) (hd : d < m) (x : α) :
    (blocks m (Function.update B d (B d ++ [x]))).Perm (x :: blocks m B) := by
  have hB := blocks_perm B hd (B d)
  rw [Function.update_eq_self] at hB
  refine (blocks_perm B hd _).trans ?_
  rw [List.append_assoc]
  exact List.perm_middle.trans (hB.symm.cons x)

theorem blocks_uncons_perm (B : Nat → List α) (hd : d < m) {x : α} {rest : List α}
    (h : B d = x :: rest) : (blocks m B).Perm (x :: blocks m (Function.update B d rest)) := by
  have hB := blocks_perm B hd (B d)
  rw [Function.update_eq_self, h] at hB
  exact hB.trans ((blocks_perm B hd rest).symm.cons x)

theorem blocks_append_perm (A B : Nat → List α) (m : Nat) :
    (blocks m fun d => A d ++ B d).Perm (blocks m A ++ blocks m B) := by
  induction m with
  | zero => exact List.Perm.refl _
  | succ m ih =>
      rw [blocks_succ, blocks_succ, blocks_succ]
      refine (ih.append_right _).trans ?_
      rw [List.append_assoc, List.append_assoc]
      refine List.Perm.append_left _ ?_
      rw [← List.append_assoc, ← List.append_assoc]
      exact List.perm_append_comm.append_right _

/-! ## The pass -/

variable {digit : α → Nat}

/-- The elements of digit `d`. -/
def bucket (digit : α → Nat) (xs : List α) (d : Nat) : List α := ofKey digit d xs

def buckets (digit : α → Nat) (m : Nat) (xs : List α) : List α := blocks m (bucket digit xs)

theorem bucket_append (xs ys : List α) (d : Nat) :
    bucket digit (xs ++ ys) d = bucket digit xs d ++ bucket digit ys d := ofKey_append ..

theorem bucket_cons_self (x : α) (xs : List α) :
    bucket digit (x :: xs) (digit x) = x :: bucket digit xs (digit x) := ofKey_cons_self ..

theorem bucket_cons_ne {x : α} (h : digit x ≠ d) (xs : List α) :
    bucket digit (x :: xs) d = bucket digit xs d := ofKey_cons_ne h xs

theorem bucket_concat_self (xs : List α) (x : α) :
    bucket digit (xs ++ [x]) (digit x) = bucket digit xs (digit x) ++ [x] := by
  rw [bucket, ofKey_append, ofKey_cons_self]
  rfl

theorem bucket_concat_ne (xs : List α) {x : α} (h : d ≠ digit x) :
    bucket digit (xs ++ [x]) d = bucket digit xs d := by
  rw [bucket, ofKey_append, ofKey_cons_ne h.symm, ofKey_nil, List.append_nil]
  rfl

theorem update_place (o : Nat → Nat) (xs : List α) (x : α) :
    Function.update (fun d => o d + (bucket digit xs d).length) (digit x)
        (o (digit x) + (bucket digit xs (digit x)).length + 1)
      = fun d => o d + (bucket digit (xs ++ [x]) d).length := by
  funext d
  by_cases hd : d = digit x
  · subst hd
    rw [Function.update_self, bucket_concat_self, List.length_append, List.length_singleton,
      Nat.add_assoc]
  · rw [Function.update_of_ne hd, bucket_concat_ne _ hd]

theorem update_bucket_length (xs : List α) (x : α) :
    Function.update (fun d => (bucket digit xs d).length) (digit x)
        ((bucket digit xs (digit x)).length + 1)
      = fun d => (bucket digit (xs ++ [x]) d).length := by
  have h : Function.update (fun d => 0 + (bucket digit xs d).length) (digit x)
      (0 + (bucket digit xs (digit x)).length + 1) = fun d => 0 + (bucket digit (xs ++ [x]) d).length :=
    update_place (fun _ => 0) xs x
  simpa only [Nat.zero_add] using h

theorem histogram_append (o : Nat → Nat) (xs ys : List α) (h : ∀ x ∈ ys, digit x < m) :
    histogram digit ys ((List.range m).map fun d => o d + (bucket digit xs d).length)
      = some ((List.range m).map fun d => o d + (bucket digit (xs ++ ys) d).length) := by
  induction ys generalizing xs with
  | nil => rw [histogram, List.append_nil]
  | cons x ys ih =>
      have hx := h x List.mem_cons_self
      rw [histogram, load_map_range _ hx]
      show (store _ (digit x) _).bind _ = _
      rw [store_map_range _ _ hx, update_place]
      show histogram digit ys _ = _
      rw [ih (xs ++ [x]) fun y hy => h y (List.mem_cons_of_mem _ hy), List.append_assoc]
      rfl

theorem histogram_spec (xs : List α) (h : ∀ x ∈ xs, digit x < m) :
    histogram digit xs (List.replicate m 0)
      = some ((List.range m).map fun d => (bucket digit xs d).length) := by
  have hzero : List.replicate m 0
      = (List.range m).map fun d => 0 + (bucket digit ([] : List α) d).length := by
    symm
    rw [List.eq_replicate_iff]
    simp [bucket]
  rw [hzero, histogram_append (fun _ => 0) [] xs h]
  simp only [Nat.zero_add, List.nil_append]

/-- An array is cut into blocks of any sizes that add up to its length. -/
theorem exists_blocks (f : Nat → Nat) (xs : List α) (m : Nat) (h : xs.length = offset f m) :
    ∃ B, xs = blocks m B ∧ ∀ d, d < m → (B d).length = f d := by
  induction m generalizing xs with
  | zero => exact ⟨fun _ => [], List.eq_nil_of_length_eq_zero h, by omega⟩
  | succ m ih =>
      rw [offset_succ] at h
      obtain ⟨B, hB, hlen⟩ := ih (xs.take (offset f m)) (by rw [List.length_take]; omega)
      refine ⟨Function.update B m (xs.drop (offset f m)), ?_, fun d hd => ?_⟩
      · rw [blocks, List.range_succ, List.flatMap_append, flatMap_update_of_notMem _ _ (by simp),
          List.flatMap_singleton, Function.update_self]
        rw [← blocks, ← hB, List.take_append_drop]
      · rcases Nat.lt_succ_iff_lt_or_eq.mp hd with hd | rfl
        · rw [Function.update_of_ne hd.ne, hlen d hd]
        · rw [Function.update_self, List.length_drop]
          omega

theorem offset_congr {f g : Nat → Nat} (h : ∀ d, d < m → f d = g d) : offset f m = offset g m := by
  rw [offset, offset, List.map_congr_left fun d hd => h d (List.mem_range.mp hd)]

/-- The scatter from the middle: `xs` is in its buckets, the places behind
are free. -/
theorem scatter_append (xs ys : List α) (B : Nat → List α) (h : ∀ y ∈ ys, digit y < m)
    (hB : ∀ d, d < m → ∃ free, B d = bucket digit xs d ++ free
      ∧ free.length = (bucket digit ys d).length) :
    scatter digit ys
        ((List.range m).map fun d =>
          offset (fun e => (bucket digit (xs ++ ys) e).length) d + (bucket digit xs d).length)
        (blocks m B)
      = some (buckets digit m (xs ++ ys)) := by
  induction ys generalizing xs B with
  | nil =>
      rw [scatter, List.append_nil, buckets, blocks, blocks]
      have hall : ∀ d ∈ List.range m, B d = bucket digit xs d := by
        intro d hd
        obtain ⟨free, hfree, hlen⟩ := hB d (List.mem_range.mp hd)
        rw [hfree, List.eq_nil_of_length_eq_zero hlen, List.append_nil]
      rw [List.flatMap_def, List.flatMap_def, List.map_congr_left hall]
  | cons y ys ih =>
      have hy := h y List.mem_cons_self
      obtain ⟨free, hfree, hlen⟩ := hB (digit y) hy
      rw [bucket_cons_self, List.length_cons] at hlen
      obtain ⟨old, rest, rfl⟩ := List.exists_cons_of_length_eq_add_one hlen
      -- the blocks have their final sizes from the start
      have hsize : ∀ e, e < m → (bucket digit (xs ++ y :: ys) e).length = (B e).length := by
        intro e he
        obtain ⟨free, hfree, hlen⟩ := hB e he
        rw [hfree, List.length_append, hlen, bucket_append, List.length_append]
      have hstore : storeN (blocks m B)
          (offset (fun e => (bucket digit (xs ++ y :: ys) e).length) (digit y)
            + (bucket digit xs (digit y)).length) [y]
          = some (blocks m
            (Function.update B (digit y) (bucket digit xs (digit y) ++ [y] ++ rest))) := by
        refine storeN_blocks B hy ?_ (Nat.succ.inj rfl : [y].length = [old].length) ?_
        · rw [hfree, List.append_assoc]
          rfl
        · rw [offset_congr fun e he => hsize e (he.trans hy)]
      rw [scatter, load_map_range _ hy]
      show (store _ _ y).bind _ = _
      rw [store_eq_storeN, hstore]
      show (store _ (digit y) _).bind _ = _
      rw [store_map_range _ _ hy, update_place]
      show scatter digit ys _ _ = _
      have hcut : xs ++ y :: ys = xs ++ [y] ++ ys := by rw [List.append_assoc]; rfl
      rw [hcut]
      refine ih (xs ++ [y]) _ (fun z hz => h z (List.mem_cons_of_mem _ hz)) fun d hd => ?_
      by_cases hdy : d = digit y
      · subst hdy
        refine ⟨rest, ?_, Nat.succ.inj hlen⟩
        rw [Function.update_self, bucket_concat_self]
      · obtain ⟨free, hfree, hlen⟩ := hB d hd
        refine ⟨free, ?_, ?_⟩
        · rw [Function.update_of_ne hdy, hfree, bucket_concat_ne _ hdy]
        · rw [hlen, bucket_cons_ne (Ne.symm hdy)]

theorem bucket_blocks (B : Nat → List α) (hB : ∀ d, ∀ x ∈ B d, digit x = d) (k : Nat) :
    bucket digit (blocks m B) k = if k < m then B k else [] := by
  induction m with
  | zero => rfl
  | succ m ih =>
      rw [blocks, List.range_succ, List.flatMap_append, List.flatMap_singleton, bucket_append,
        ← blocks, ih]
      by_cases hk : k = m
      · subst hk
        rw [if_neg (Nat.lt_irrefl k), if_pos (Nat.lt_succ_self k), List.nil_append]
        exact List.filter_eq_self.mpr fun x hx => decide_eq_true (hB k x hx)
      · have hnone : bucket digit (B m) k = [] := by
          refine ofKey_eq_nil fun x hx => ?_
          rw [hB m x hx]
          exact Ne.symm hk
        rw [hnone, List.append_nil]
        simp only [Nat.lt_succ_iff_lt_or_eq, hk, or_false]

theorem digit_of_mem_bucket {xs : List α} {x : α} (h : x ∈ bucket digit xs d) : digit x = d :=
  of_decide_eq_true (List.mem_filter.mp h).2

theorem mem_blocks {B : Nat → List α} {x : α} : x ∈ blocks m B ↔ ∃ d, d < m ∧ x ∈ B d := by
  rw [blocks, List.mem_flatMap]
  simp only [List.mem_range]

theorem pairwise_blocks {R : α → α → Prop} {B : Nat → List α}
    (hin : ∀ d, d < m → (B d).Pairwise R)
    (hacross : ∀ d e, d < e → e < m → ∀ x ∈ B d, ∀ y ∈ B e, R x y) :
    (blocks m B).Pairwise R := by
  induction m with
  | zero => exact List.Pairwise.nil
  | succ m ih =>
      rw [blocks_succ]
      refine List.pairwise_append.mpr ⟨ih (fun d hd => hin d (by omega))
        fun d e hde he => hacross d e hde (by omega), hin m (Nat.lt_succ_self m), ?_⟩
      intro x hx y hy
      obtain ⟨d, hd, hxd⟩ := mem_blocks.mp hx
      exact hacross d m hd (Nat.lt_succ_self m) x hxd y hy

theorem blocks_perm_blocks {A B : Nat → List α} (h : ∀ d, d < m → (A d).Perm (B d)) :
    (blocks m A).Perm (blocks m B) := by
  induction m with
  | zero => exact List.Perm.refl _
  | succ m ih =>
      rw [blocks_succ, blocks_succ]
      exact (ih fun d hd => h d (by omega)).append (h m (Nat.lt_succ_self m))

theorem sameOrder_blocks {κ : Type} [LinearOrder κ] {key : α → κ} {A B : Nat → List α}
    (h : ∀ d, d < m → SameOrder key (A d) (B d)) : SameOrder key (blocks m A) (blocks m B) := by
  induction m with
  | zero => exact fun _ => rfl
  | succ m ih =>
      intro k
      have hinit := ih (fun d hd => h d (by omega)) k
      rw [blocks_succ, blocks_succ, ofKey_append, ofKey_append, hinit, h m (Nat.lt_succ_self m) k]

theorem ascending_blocks (B : Nat → List α) (hB : ∀ d, ∀ x ∈ B d, digit x = d) :
    Ascending digit (blocks m B) := by
  refine pairwise_blocks (fun d _ => ?_) fun d e hde _ x hx y hy => ?_
  · exact List.Pairwise.imp_of_mem (fun ha hb _ => by rw [hB d _ ha, hB d _ hb])
      (List.pairwise_of_forall fun _ _ => trivial)
  · rw [hB d x hx, hB e y hy]
    exact hde.le

theorem buckets_stable (xs : List α) (h : ∀ x ∈ xs, digit x < m) :
    StableSort digit xs (buckets digit m xs) := by
  refine ⟨ascending_blocks _ fun _ _ => digit_of_mem_bucket, fun k => ?_⟩
  have hk := bucket_blocks (m := m) (bucket digit xs) (fun _ _ => digit_of_mem_bucket) k
  rw [bucket] at hk
  rw [buckets, hk]
  split
  · rfl
  · symm
    refine ofKey_eq_nil fun x hx => ?_
    have := h x hx
    omega

theorem length_buckets (xs : List α) (h : ∀ x ∈ xs, digit x < m) :
    offset (fun d => (bucket digit xs d).length) m = xs.length := by
  rw [← (buckets_stable xs h).length_eq, buckets, length_blocks]

theorem scatter_spec (xs b : List α) (h : ∀ x ∈ xs, digit x < m) (hb : b.length = xs.length) :
    scatter digit xs (offsets 0 ((List.range m).map fun d => (bucket digit xs d).length)) b
      = some (buckets digit m xs) := by
  obtain ⟨B, rfl, hB⟩ := exists_blocks (fun d => (bucket digit xs d).length) b m
    (hb.trans (length_buckets xs h).symm)
  rw [offsets_map_range]
  exact scatter_append [] xs B h fun d hd => ⟨B d, rfl, hB d hd⟩

theorem StableSort.of_constant {xs : List α} (h : (bucket digit xs d).length = xs.length) :
    StableSort digit xs xs := by
  have hall : ∀ x ∈ xs, digit x = d := by
    intro x hx
    exact of_decide_eq_true (List.length_filter_eq_length_iff.mp h x hx)
  refine StableSort.refl (List.Pairwise.imp_of_mem (fun ha hb _ => ?_)
    (List.pairwise_of_forall fun _ _ => trivial))
  rw [hall _ ha, hall _ hb]

end

/-! ## Passes -/

section
variable {α κ κ' μ : Type*} [LinearOrder κ] [LinearOrder κ'] [LinearOrder μ]
variable {low : α → κ} {high : α → κ'} {key : α → μ}

theorem Ascending.lex {xs : List α} (hhigh : Ascending high xs)
    (hlow : ∀ k, Ascending low (ofKey high k xs))
    (hkey : ∀ x y, high x < high y ∨ high x = high y ∧ low x ≤ low y → key x ≤ key y) :
    Ascending key xs := by
  induction xs with
  | nil => exact List.Pairwise.nil
  | cons x xs ih =>
      obtain ⟨hx, hxs⟩ := List.pairwise_cons.mp hhigh
      refine List.pairwise_cons.mpr ⟨fun y hy => hkey x y ?_, ih hxs fun k => ?_⟩
      · rcases (hx y hy).lt_or_eq with hlt | heq
        · exact Or.inl hlt
        · have hsame := hlow (high x)
          rw [ofKey_cons_self] at hsame
          refine Or.inr ⟨heq, (List.pairwise_cons.mp hsame).1 y ?_⟩
          exact List.mem_filter.mpr ⟨hy, decide_eq_true heq.symm⟩
      · exact (hlow k).sublist (List.Sublist.filter _ (List.sublist_cons_self ..))

/-- A stable sort by the less significant part of a key, then one by the more
significant part, is the stable sort by the key. -/
theorem StableSort.lex {a b c : List α} (h : StableSort low a b) (h' : StableSort high b c)
    (hkey : ∀ x y, key x ≤ key y ↔ high x < high y ∨ high x = high y ∧ low x ≤ low y) :
    StableSort key a c := by
  have hlow : ∀ k, Ascending low (ofKey high k c) := by
    intro k
    rw [h'.stable]
    exact h.sorted.sublist List.filter_sublist
  refine ⟨h'.sorted.lex hlow fun x y => (hkey x y).mpr, fun k => ?_⟩
  by_cases hk : ∃ z, key z = k
  · obtain ⟨z, rfl⟩ := hk
    -- one key is one high part and one low part
    have hpart : ∀ xs : List α, ofKey key (key z) xs
        = ofKey low (low z) (ofKey high (high z) xs) := by
      intro xs
      rw [ofKey, ofKey, ofKey, List.filter_filter]
      refine List.filter_congr fun x _ => ?_
      rw [← Bool.decide_and, decide_eq_decide, le_antisymm_iff, hkey, hkey]
      constructor
      · rintro ⟨hxz, hzx⟩
        rcases hxz with hxz | ⟨hhigh, hxz⟩
        · rcases hzx with hzx | ⟨hhigh, -⟩
          · exact absurd hzx hxz.not_gt
          · exact absurd hhigh hxz.ne'
        · rcases hzx with hzx | ⟨-, hzx⟩
          · exact absurd hhigh hzx.ne'
          · exact ⟨le_antisymm hxz hzx, hhigh⟩
      · rintro ⟨hlow, hhigh⟩
        exact ⟨Or.inr ⟨hhigh, hlow.le⟩, Or.inr ⟨hhigh.symm, hlow.ge⟩⟩
    have hcomm : ∀ xs : List α, ofKey low (low z) (ofKey high (high z) xs)
        = ofKey high (high z) (ofKey low (low z) xs) := fun xs => List.filter_comm ..
    rw [hpart, hpart, h'.stable, hcomm, h.stable, hcomm]
  · rw [ofKey_eq_nil fun x _ hx => hk ⟨x, hx⟩, ofKey_eq_nil fun x _ hx => hk ⟨x, hx⟩]

end

end Montauk.Sort
