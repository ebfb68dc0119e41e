import Mathlib.Data.List.Lex
import Mathlib.Order.Lattice
import Montauk.Sort.Gather

/-!
# Refining a row order

`sublimation_refine_order_f64` reorders rows by one more key column: it gathers
the keys in the current order, sorts positions by them and scatters the rows
back. When the three buffers can be allocated it returns true whatever the sort
did: without its scratch the sort leaves the positions alone, and with it the
sort tells the zeros apart. `RefineMeets` is what it takes for the result to be
the stable reordering (`refine_iff`); in a run of such steps that all return
true the rows end up in lexicographic order (`refineColumns_run`).
-/

namespace Montauk.Sort

/-- What the machine gives a refinement: the three buffers, the scratch of the
sort, and the memory of its merge. -/
structure RefineMem where
  gathered : Bool
  idx : Bool
  scattered : Bool
  scratch : Option (Nat → Slot)
  pack : PackMem

variable {ρ : Type}

/-- `sublimation_refine_order_f64`, with the bits of the keys: what it returns,
and the order it leaves. -/
def sublimationRefineOrderF64 (flt : Floats) (resistance : Nat → Nat → ρ) (gt : ρ → ρ → Bool)
    (mem : RefineMem) (order : List UInt32) (keyByRow : List UInt64) (descending : Bool) :
    Option (Bool × List UInt32) :=
  if order.length < 2 then some (true, order)
  else if !mem.gathered || !mem.idx || !mem.scattered then some (false, order)
  else do
    let gathered ← order.mapM fun r => load keyByRow r.toNat
    let idx := (List.range order.length).map UInt32.ofNat
    let idx ← sublimationPackSortF64 flt resistance gt mem.pack mem.scratch gathered idx descending
    let scattered ← idx.mapM fun j => load order j.toNat
    some (true, scattered)

/-- The refinements of a multi-key sort, from the least significant column to
the most significant one: whether all of them returned true, and the order. -/
def refineColumns (flt : Floats) (resistance : Nat → Nat → ρ) (gt : ρ → ρ → Bool) (descending : Bool) :
    List (RefineMem × List UInt64) → List UInt32 → Option (Bool × List UInt32)
  | [], order => some (true, order)
  | (mem, column) :: columns, order => do
      let (ok, order) ← sublimationRefineOrderF64 flt resistance gt mem order column descending
      let (rest, order) ← refineColumns flt resistance gt descending columns order
      some (ok && rest, order)

/-! ## What is promised -/

def rowBits (keyByRow : List UInt64) (r : UInt32) : UInt64 := (keyByRow[r.toNat]?).getD 0

/-- A row's key: the value of the double, for a descending order turned round. -/
def rowKey (descending : Bool) (keyByRow : List UInt64) (r : UInt32) : Int :=
  if descending then -Binary.signed 52 63 (rowBits keyByRow r).toNat
  else Binary.signed 52 63 (rowBits keyByRow r).toNat

/-- The rows of `order` by key, equal keys in the order they had. -/
def StableReorder (descending : Bool) (keyByRow : List UInt64) (order out : List UInt32) : Prop :=
  StableSort (rowKey descending keyByRow) order out

/-- The keys are the two zeros, and the sort exchanges them. -/
def ZerosApart (descending : Bool) (x y : UInt64) : Prop :=
  if descending then x = 0x8000000000000000 ∧ y = 0 else x = 0 ∧ y = 0x8000000000000000

/-- There is nothing to reorder; or a buffer is missing, which is reported; or
the sort has no scratch, and the rows are in order already; or it has, and no
zero stands in front of one that it takes for smaller. -/
def RefineMeets (mem : RefineMem) (descending : Bool) (keyByRow : List UInt64) (order : List UInt32) :
    Prop :=
  order.length < 2 ∨
  (mem.gathered && mem.idx && mem.scattered) = false ∨
  mem.scratch = none ∧ (order.Pairwise fun r s =>
    rowKey descending keyByRow r ≤ rowKey descending keyByRow s) ∨
  mem.scratch ≠ none ∧ order.Pairwise fun r s =>
    ¬ ZerosApart descending (rowBits keyByRow r) (rowBits keyByRow s)

/-! ## The order of the keys -/

def sortedKey (descending : Bool) (keyByRow : List UInt64) (r : UInt32) : Nat :=
  (if descending then ~~~(subKeyFromF64 (rowBits keyByRow r)) else subKeyFromF64 (rowBits keyByRow r)).toNat

variable {descending : Bool} {keyByRow : List UInt64} {r s : UInt32}

theorem rowKey_asc : rowKey false keyByRow r = Binary.signed 52 63 (rowBits keyByRow r).toNat :=
  if_neg Bool.false_ne_true

theorem sortedKey_eq : sortedKey descending keyByRow r = Binary.directedBits 63 descending (rowBits keyByRow r).toNat :=
  slotKey_f64 descending (rowBits keyByRow r)

theorem zerosApart_iff (x y : UInt64) : ZerosApart descending x y ↔ Binary.ZerosApart 63 descending x.toNat y.toNat := by
  have hzero : ∀ x : UInt64, x = 0 ↔ x.toNat = 0 := fun x => UInt64.toNat_inj.symm
  have hsign : ∀ x : UInt64, x = 0x8000000000000000 ↔ x.toNat = 2 ^ 63 := fun x => UInt64.toNat_inj.symm
  rw [ZerosApart, Binary.ZerosApart, hzero, hsign, hzero, hsign]

theorem rowBits_lt (keyByRow : List UInt64) (r : UInt32) : (rowBits keyByRow r).toNat < 2 ^ (63 + 1) := by
  have h := (rowBits keyByRow r).toNat_lt
  omega

/-- The stable sort by the sort's own keys is the stable reordering exactly if
no zero has to be moved. -/
theorem stableReorder_iff {order out : List UInt32}
    (h : StableSort (sortedKey descending keyByRow) order out) :
    StableReorder descending keyByRow order out ↔ order.Pairwise fun r s =>
      ¬ ZerosApart descending (rowBits keyByRow r) (rowBits keyByRow s) := by
  refine h.coarsen_pairwise (fun r s hle => ?_) fun r s => ?_
  · rw [sortedKey_eq, sortedKey_eq] at hle
    exact Binary.directed_le_of_directedBits_le (rowBits_lt keyByRow r) (rowBits_lt keyByRow s) hle
  · rw [sortedKey_eq, sortedKey_eq, zerosApart_iff]
    exact Binary.directedBits_tie_iff (rowBits_lt keyByRow r) (rowBits_lt keyByRow s)

/-! ## One refinement -/

variable (flt : Floats) (resistance : Nat → Nat → ρ) (gt : ρ → ρ → Bool)

/-- The positions behind the sort: left alone without the scratch, and with it
in the order of the sort's own keys. -/
theorem sorted_positions {mem : RefineMem} {order : List UInt32} (hn : order.length ≤ 2 ^ 32)
    (hlen : ¬ order.length < 2) :
    ∃ idx out, sublimationPackSortF64 flt resistance gt mem.pack mem.scratch
        (order.map (rowBits keyByRow)) ((List.range order.length).map UInt32.ofNat) descending = some idx ∧
      idx.mapM (fun j => load order j.toNat) = some out ∧
      (mem.scratch = none → out = order) ∧
      (mem.scratch ≠ none → StableSort (sortedKey descending keyByRow) order out) :=
  packSort_gather flt resistance gt mem.pack mem.scratch hn hlen

theorem refine_scattered {mem : RefineMem} {order : List UInt32} (hn : order.length ≤ 2 ^ 32)
    (hrows : ∀ r ∈ order, r.toNat < keyByRow.length) (hlen : ¬ order.length < 2)
    (hbufs : (mem.gathered && mem.idx && mem.scattered) = true) :
    ∃ out, sublimationRefineOrderF64 flt resistance gt mem order keyByRow descending = some (true, out) ∧
      (mem.scratch = none → out = order) ∧
      (mem.scratch ≠ none → StableSort (sortedKey descending keyByRow) order out) := by
  have hmissing : ¬ (!mem.gathered || !mem.idx || !mem.scattered) = true := by
    rw [Bool.and_eq_true, Bool.and_eq_true] at hbufs
    rw [hbufs.1.1, hbufs.1.2, hbufs.2]
    exact Bool.false_ne_true
  have hgather : order.mapM (fun r => load keyByRow r.toNat) = some (order.map (rowBits keyByRow)) := by
    refine mapM_eq_map fun r hr => ?_
    rw [load_of_lt (hrows r hr), rowBits, List.getElem?_eq_getElem (hrows r hr), Option.getD_some]
  obtain ⟨idx, out, hsort, hscatter, hout⟩ := @sorted_positions ρ descending keyByRow flt resistance gt mem
    order hn hlen
  refine ⟨out, ?_, hout⟩
  rw [sublimationRefineOrderF64, if_neg hlen, if_neg hmissing, hgather]
  dsimp only
  rw [Option.bind_eq_bind, Option.bind_some, hsort, Option.bind_eq_bind, Option.bind_some, hscatter]
  rfl

/-- A refinement keeps its promise exactly if it meets the condition. -/
theorem refine_iff (descending : Bool) (mem : RefineMem) {order : List UInt32} (hn : order.length ≤ 2 ^ 32)
    (hrows : ∀ r ∈ order, r.toNat < keyByRow.length) :
    ∃ ok out, sublimationRefineOrderF64 flt resistance gt mem order keyByRow descending = some (ok, out) ∧
      out.Perm order ∧
      ((ok = true → StableReorder descending keyByRow order out) ∧ (ok = false → out = order)
        ↔ RefineMeets mem descending keyByRow order) := by
  by_cases hlen : order.length < 2
  · refine ⟨true, order, ?_, List.Perm.refl order, ?_⟩
    · rw [sublimationRefineOrderF64, if_pos hlen]
    · exact iff_of_true ⟨fun _ => stableSort_short _ hlen, nofun⟩ (Or.inl hlen)
  · cases hbufs : mem.gathered && mem.idx && mem.scattered with
    | false =>
        have hmissing : (!mem.gathered || !mem.idx || !mem.scattered) = true := by
          rw [← Bool.not_and, ← Bool.not_and, hbufs]
          rfl
        refine ⟨false, order, ?_, List.Perm.refl order, ?_⟩
        · rw [sublimationRefineOrderF64, if_neg hlen, if_pos hmissing]
        · exact iff_of_true ⟨nofun, fun _ => rfl⟩ (Or.inr (Or.inl hbufs))
    | true =>
        obtain ⟨out, hrun, hnone, hsome⟩ := @refine_scattered ρ descending keyByRow flt resistance gt
          mem order hn hrows hlen hbufs
        have hmeets : RefineMeets mem descending keyByRow order ↔
            mem.scratch = none ∧ Ascending (rowKey descending keyByRow) order ∨
            mem.scratch ≠ none ∧ order.Pairwise fun r s =>
              ¬ ZerosApart descending (rowBits keyByRow r) (rowBits keyByRow s) := by
          rw [RefineMeets, or_iff_right hlen, hbufs, or_iff_right Bool.true_eq_false.mp]
          rfl
        rw [hmeets]
        by_cases hscratch : mem.scratch = none
        · obtain rfl := hnone hscratch
          refine ⟨true, out, hrun, List.Perm.refl out, ?_⟩
          rw [or_iff_left fun h => h.1 hscratch, and_iff_right hscratch]
          exact ⟨fun h => (h.1 rfl).sorted, fun h => ⟨fun _ => .refl h, nofun⟩⟩
        · have hsort := hsome hscratch
          refine ⟨true, out, hrun, hsort.perm, ?_⟩
          rw [or_iff_right fun h => hscratch h.1, and_iff_right hscratch, ← stableReorder_iff hsort]
          exact ⟨fun h => h.1 rfl, fun h => ⟨fun _ => h, nofun⟩⟩

/-! ## Columns -/

/-- A row's keys, the most significant first. -/
def rowKeys (descending : Bool) (columns : List (List UInt64)) (r : UInt32) : List Int :=
  columns.map fun column => rowKey descending column r

/-- Every refinement of the run meets the condition. -/
def RunMeets (flt : Floats) (resistance : Nat → Nat → ρ) (gt : ρ → ρ → Bool) (descending : Bool) :
    List (RefineMem × List UInt64) → List UInt32 → Prop
  | [], _ => True
  | (mem, column) :: columns, order =>
      RefineMeets mem descending column order ∧
      ∀ ok out, sublimationRefineOrderF64 flt resistance gt mem order column descending = some (ok, out) →
        RunMeets flt resistance gt descending columns out

theorem rowKeys_cons_le_iff {column : List UInt64} {columns : List (List UInt64)} :
    rowKeys descending (column :: columns) r ≤ rowKeys descending (column :: columns) s ↔
      rowKey descending column r < rowKey descending column s ∨
      rowKey descending column r = rowKey descending column s
        ∧ rowKeys descending columns r ≤ rowKeys descending columns s := by
  have hlt : rowKeys descending (column :: columns) r < rowKeys descending (column :: columns) s ↔
      rowKey descending column r < rowKey descending column s ∨
      rowKey descending column r = rowKey descending column s
        ∧ rowKeys descending columns r < rowKeys descending columns s := List.cons_lt_cons_iff
  have heq : rowKeys descending (column :: columns) r = rowKeys descending (column :: columns) s ↔
      rowKey descending column r = rowKey descending column s
        ∧ rowKeys descending columns r = rowKeys descending columns s := List.cons_eq_cons
  rw [le_iff_lt_or_eq, hlt, heq, or_assoc, ← and_or_left, ← le_iff_lt_or_eq]

theorem StableSort.column {columns : List (List UInt64)} {column : List UInt64}
    {order order' out : List UInt32} (h : StableSort (rowKeys descending columns) order order')
    (h' : StableReorder descending column order' out) :
    StableSort (rowKeys descending (column :: columns)) order out :=
  h.lex h' fun _ _ => rowKeys_cons_le_iff

theorem refineColumns_run {columns : List (RefineMem × List UInt64)} {done : List (List UInt64)}
    {start order : List UInt32} (hn : order.length ≤ 2 ^ 32)
    (hrows : ∀ c ∈ columns, ∀ r ∈ order, r.toNat < c.2.length)
    (hmeets : RunMeets flt resistance gt descending columns order)
    (hdone : StableSort (rowKeys descending done) start order) :
    ∃ ok out, refineColumns flt resistance gt descending columns order = some (ok, out) ∧
      (ok = true → StableSort (rowKeys descending ((columns.map Prod.snd).reverse ++ done)) start out) := by
  induction columns generalizing done order with
  | nil => exact ⟨true, order, rfl, fun _ => hdone⟩
  | cons c columns ih =>
      obtain ⟨mem, column⟩ := c
      obtain ⟨ok, out, hrun, hperm, hiff⟩ := refine_iff flt resistance gt descending mem hn
        (hrows (mem, column) List.mem_cons_self)
      obtain ⟨hstep, hrest⟩ := hmeets
      have hkept := hiff.mpr hstep
      have hn' : out.length ≤ 2 ^ 32 := by rwa [hperm.length_eq]
      have hrows' : ∀ c ∈ columns, ∀ r ∈ out, r.toNat < c.2.length :=
        fun c hc r hr => hrows c (List.mem_cons_of_mem _ hc) r (hperm.mem_iff.mp hr)
      cases ok with
      | true =>
          obtain ⟨ok', out', hrun', hsort⟩ := ih hn' hrows' (hrest _ _ hrun)
            (hdone.column (hkept.1 rfl))
          refine ⟨ok', out', ?_, ?_⟩
          · rw [refineColumns, hrun, Option.bind_eq_bind, Option.bind_some]
            dsimp only
            rw [hrun']
            rfl
          · rw [List.map_cons, List.reverse_cons, List.append_assoc]
            exact hsort
      | false =>
          -- a column that was skipped shows in the result
          obtain rfl := hkept.2 rfl
          obtain ⟨ok', out', hrun', -⟩ := ih hn' hrows' (hrest _ _ hrun) hdone
          refine ⟨false, out', ?_, nofun⟩
          rw [refineColumns, hrun, Option.bind_eq_bind, Option.bind_some]
          dsimp only
          rw [hrun']
          rfl

theorem stableSort_nil (order : List UInt32) : StableSort (rowKeys descending []) order order := by
  have hnil : ∀ r, rowKeys descending [] r = [] := fun _ => rfl
  refine .refl (List.pairwise_of_forall fun r s => ?_)
  rw [hnil, hnil]

/-- For every outcome of the allocations: one refinement returns true with the
stable reordering, or false with the order unchanged, exactly if it meets the
condition; and a run of such refinements that all return true, from the least
significant column to the most significant one, leaves the rows in the
lexicographic order of their keys, ties in the original row order. -/
theorem sublimationRefineOrderF64_iff (descending : Bool) :
    (∀ (mem : RefineMem) (keyByRow : List UInt64) (order : List UInt32), order.length ≤ 2 ^ 32 →
      (∀ r ∈ order, r.toNat < keyByRow.length) →
      ∃ ok out, sublimationRefineOrderF64 flt resistance gt mem order keyByRow descending = some (ok, out) ∧
        ((ok = true → StableReorder descending keyByRow order out) ∧ (ok = false → out = order)
          ↔ RefineMeets mem descending keyByRow order)) ∧
    ∀ (columns : List (RefineMem × List UInt64)) (order : List UInt32), order.length ≤ 2 ^ 32 →
      (∀ c ∈ columns, ∀ r ∈ order, r.toNat < c.2.length) →
      RunMeets flt resistance gt descending columns order →
      ∃ ok out, refineColumns flt resistance gt descending columns order = some (ok, out) ∧
        (ok = true → StableSort (rowKeys descending (columns.map Prod.snd).reverse) order out) := by
  constructor
  · intro mem keyByRow order hn hrows
    obtain ⟨ok, out, hrun, hkept⟩ := refine_iff flt resistance gt descending mem hn hrows
    exact ⟨ok, out, hrun, hkept.2⟩
  · intro columns order hn hrows hmeets
    obtain ⟨ok, out, hrun, hsort⟩ := refineColumns_run flt resistance gt hn hrows hmeets
      (stableSort_nil order)
    rw [List.append_nil] at hsort
    exact ⟨ok, out, hrun, hsort⟩

def plentyMem : RefineMem := ⟨true, true, true, some fun _ => ⟨0, 0⟩, ⟨true, fun _ => true⟩⟩

/-- The keys 2.0 and 1.0, and the keys 1.0 and 1.0. -/
def twoOne : List UInt64 := [0x4000000000000000, 0x3ff0000000000000]

def oneOne : List UInt64 := [0x3ff0000000000000, 0x3ff0000000000000]

/-- Two rows by the keys 2.0 and 1.0, and by a column of ties in front of them. -/
theorem sublimationRefineOrderF64_pair :
    (∃ ok out, sublimationRefineOrderF64 noFloats (fun _ _ => ()) (fun _ _ => false) plentyMem [0, 1] twoOne false
        = some (ok, out) ∧
      ((ok = true → StableReorder false twoOne [0, 1] out) ∧ (ok = false → out = [0, 1])
        ↔ RefineMeets plentyMem false twoOne [0, 1])) ∧
    ∃ ok out, refineColumns noFloats (fun _ _ => ()) (fun _ _ => false) false
        [(plentyMem, twoOne), (plentyMem, oneOne)] [0, 1] = some (ok, out) ∧
      (ok = true → StableSort (rowKeys false [oneOne, twoOne]) [0, 1] out) := by
  have hrows : ∀ c ∈ [(plentyMem, twoOne), (plentyMem, oneOne)], ∀ r ∈ ([0, 1] : List UInt32),
      r.toNat < c.2.length := by simp [twoOne, oneOne]
  have hscratch : plentyMem.scratch ≠ none := Option.some_ne_none _
  have hrun : sublimationRefineOrderF64 noFloats (fun _ _ => ()) (fun _ _ => false) plentyMem [0, 1] twoOne false
      = some (true, [1, 0]) := by decide +kernel
  have hmeets : RunMeets noFloats (fun _ _ => ()) (fun _ _ => false) false
      [(plentyMem, twoOne), (plentyMem, oneOne)] [0, 1] := by
    refine ⟨.inr (.inr (.inr ⟨hscratch, by simp only [ZerosApart]; decide⟩)), fun ok out hout => ?_⟩
    obtain ⟨-, rfl⟩ := Prod.mk.inj (Option.some.inj (hrun.symm.trans hout))
    exact ⟨.inr (.inr (.inr ⟨hscratch, by simp only [ZerosApart]; decide⟩)), fun _ _ _ => trivial⟩
  exact ⟨(sublimationRefineOrderF64_iff noFloats (fun _ _ => ()) (fun _ _ => false) false).1 plentyMem twoOne [0, 1]
      (by decide) (hrows _ List.mem_cons_self),
    (sublimationRefineOrderF64_iff noFloats (fun _ _ => ()) (fun _ _ => false) false).2 _ _ (by decide) hrows
      hmeets⟩

/-- Without the scratch of the sort the keys 2.0 and 1.0 stay where they are,
and the refinement returns true. -/
theorem not_stableReorder_noScratch :
    sublimationRefineOrderF64 noFloats (fun _ _ => ()) (fun _ _ => false)
        ⟨true, true, true, none, ⟨true, fun _ => true⟩⟩ [0, 1]
        [0x4000000000000000, 0x3ff0000000000000] false = some (true, [0, 1]) ∧
      ¬ StableReorder false [0x4000000000000000, 0x3ff0000000000000] [0, 1] [0, 1] := by
  refine ⟨rfl, fun h => ?_⟩
  have hle : rowKey false [0x4000000000000000, 0x3ff0000000000000] 0
      ≤ rowKey false [0x4000000000000000, 0x3ff0000000000000] 1 :=
    (List.pairwise_cons.mp h.sorted).1 1 List.mem_cons_self
  have htwo : (rowBits [0x4000000000000000, 0x3ff0000000000000] 0).toNat = 4611686018427387904 := rfl
  have hone : (rowBits [0x4000000000000000, 0x3ff0000000000000] 1).toNat = 4607182418800017408 := rfl
  rw [rowKey_asc, rowKey_asc, htwo, hone, Binary.signed, Binary.signed,
    if_pos (by omega), if_pos (by omega), Int.ofNat_le, (Binary.magnitude_strictMono 52).le_iff_le] at hle
  exact absurd hle (by decide)

end Montauk.Sort
