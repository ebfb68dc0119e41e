import Mathlib.Data.List.TakeWhile
import Montauk.Sort.PackFloat
import Montauk.Strings.Introsort
import Montauk.Strings.MsdStack
import Montauk.Strings.PaddedKey

/-!
# The string sorts

`sort_strings.c`: the prefix keys of the strings are sorted as words, the
pointers and lengths follow, and each run of one key is left to `sub_msd_radix`
at depth 4. Without memory the pointers are sorted by `strcmp`, or the indices
are those of the array.

A run is sorted by insertion where it is short, and by its bytes from the fourth
on where it is not. The latter does not tell apart strings that end within the
key, which are equal up to NUL bytes at their end: they stay as they were. So
the sorts keep their contract exactly if such strings come in the order of their
lengths (`Settled`).
-/

namespace Montauk.Strings

open Montauk.Sort

/-! ## Strings in memory -/

/-- A pointer with a length: the bytes that can be read from it on, and how many
of them are the string. -/
structure Str where
  mem : List UInt8
  len : Nat
  le : len ≤ mem.length

def Str.bytes (s : Str) : List UInt8 := s.mem.take s.len

/-- What `strcmp` reads. -/
def Str.cstr (s : Str) : CStr where
  bytes := s.mem.takeWhile fun c => c ≠ 0
  nonul h := by simpa using List.mem_takeWhile_imp h

/-- The pointer to a string that ends in a NUL, with `strlen` of it. -/
def CStr.str (s : CStr) : Str where
  mem := s.bytes ++ [0]
  len := s.bytes.length
  le := by
    rw [List.length_append]
    exact Nat.le_add_right _ _

/-! ## The functions -/

/-- What the allocations of a call return, with the memory of
`sublimation_u64` and of `sub_msd_radix` for the run of a key. `lensWork` is the
copy of the lengths, whatever its name. -/
structure StringsMem where
  arrWork : Bool
  lensWork : Bool
  packed : Bool
  strScratch : Bool
  lensScratch : Bool
  sort : EntryEnv UInt64
  msd : UInt32 → MsdMem

/-- `sub_strcmp_introsort` of pointers. `strcmp` is defined on strings that end
in a NUL. -/
def strcmpFallback (arr : List Str) : Option (List Str) :=
  if ∀ s ∈ arr, 0 ∈ s.mem then strcmpIntrosort Str.cstr arr else none

abbrev Cell := Str × UInt32

def cellBytes (x : Cell) : List UInt8 := x.1.bytes

/-- The words in front that have the key `p`. -/
def runLength (p : UInt32) : List UInt64 → Nat
  | [] => 0
  | w :: ws => if highWord w = p then runLength p ws + 1 else 0

/-- The loop over the runs, from `i` on. -/
def clusterLoop (mem : UInt32 → MsdMem) (indices : Bool) (packed : List UInt64) :
    Nat → Nat → List Cell → List Cell → Option (List Cell)
  | 0, _, _, _ => none
  | fuel + 1, i, scratch, arr =>
      if i < packed.length then do
        let w ← load packed i
        let j := i + 1 + runLength (highWord w) (packed.drop (i + 1))
        if 2 ≤ j - i then do
          let (arr, scratch) ← subMsdRadix cellBytes (mem (highWord w)) indices scratch i j 4 arr
          clusterLoop mem indices packed fuel j scratch arr
        else clusterLoop mem indices packed fuel j scratch arr
      else some arr

/-- The indices, where there are any, are overwritten. -/
def writeIndices (xs : List UInt32) : Option (List UInt32) → Option (Option (List UInt32))
  | none => some none
  | some prev => (storeN prev 0 xs).map some

/-- `arr[indices[i]]` for all `i`. -/
def gather (arr : List Str) (indices : List UInt32) : Option (List Str) :=
  indices.mapM fun i => load arr i.toNat

section
variable {ρ : Type} (flt : Floats) (resistance : Int → Int → ρ) (gt : ρ → ρ → Bool) (mem : StringsMem)

/-- `sub_strings_internal`: the array and the indices. -/
def subStringsInternal (arr : List Str) (indices : Option (List UInt32)) :
    Option (List Str × Option (List UInt32)) :=
  if arr.length < 2 then do
    let indices ← if arr.length = 1 then writeIndices [0] indices else some indices
    some (arr, indices)
  else if 2 ^ 32 - 1 < arr.length then do
    let arr ← strcmpFallback arr
    some (arr, indices)
  else if !mem.packed || !mem.strScratch || !mem.lensScratch then do
    let arr ← strcmpFallback arr
    some (arr, indices)
  else do
    let words := List.zipWith (fun s i => pairWord (subPackPrefix4 s.bytes) i) arr (identityIndices arr.length)
    let packed ← sublimationU64 flt resistance gt mem.sort words
    let arr ← gather arr (packed.map lowWord)
    -- from here on the indices move with the strings
    let cells := arr.zip (packed.map lowWord)
    let cells ← clusterLoop mem.msd indices.isSome packed (packed.length + 1) 0 cells cells
    let indices ← writeIndices (cells.map Prod.snd) indices
    some (cells.map Prod.fst, indices)

def sublimationStringsLen (arr : List Str) : Option (List Str) :=
  if arr.length < 2 then some arr
  else if !mem.lensWork then strcmpFallback arr
  else do
    let (arr, _) ← subStringsInternal flt resistance gt mem arr none
    some arr

def sublimationStringsIndicesLen (arr : List Str) (indices : List UInt32) : Option (List UInt32) :=
  if arr.length = 0 then some indices
  else if arr.length = 1 then store indices 0 0
  else if !mem.arrWork || !mem.lensWork then storeN indices 0 (identityIndices arr.length)
  else do
    let (_, indices) ← subStringsInternal flt resistance gt mem arr (some indices)
    indices

/-- `sublimation_strings`: the lengths are those of `strlen`. -/
def sublimationStrings (arr : List CStr) : Option (List Str) :=
  sublimationStringsLen flt resistance gt mem (arr.map CStr.str)

def sublimationStringsIndices (arr : List CStr) (indices : List UInt32) : Option (List UInt32) :=
  sublimationStringsIndicesLen flt resistance gt mem (arr.map CStr.str) indices

end

/-! ## Runs -/

def cellKey (x : Cell) : Nat := (subPackPrefix4 (cellBytes x)).toNat

def cellWord (x : Cell) : UInt64 := pairWord (subPackPrefix4 (cellBytes x)) x.2

def RunSort (mem : UInt32 → MsdMem) (indices : Bool) (p : UInt32) (w w' : List Cell) : Prop :=
  if subStringsMsdCutover ≤ w.length ∧ (mem p).ready indices = true then StableSort (tail cellBytes 4) w w'
  else StableSort (tailKey cellBytes 4) w w'

/-- The cells in the order of their keys, each run for itself sorted as far as
it is. -/
structure RunsSorted (mem : UInt32 → MsdMem) (indices : Bool) (a b : List Cell) : Prop where
  perm : b.Perm a
  sorted : Ascending cellKey b
  runs : ∀ p : UInt32, RunSort mem indices p (ofKey cellKey p.toNat a) (ofKey cellKey p.toNat b)

section
variable {mem : UInt32 → MsdMem} {indices : Bool} {p : UInt32} {w w' rest rest' : List Cell}

theorem RunSort.perm (h : RunSort mem indices p w w') : w'.Perm w := by
  rw [RunSort] at h
  split at h
  · exact StableSort.perm h
  · exact StableSort.perm h

theorem runSort_short (h : w.length < 2) : RunSort mem indices p w w := by
  rw [RunSort]
  split
  · exact stableSort_short _ h
  · exact stableSort_short _ h

theorem RunsSorted.append (hw : ∀ x ∈ w, cellKey x = p.toNat) (hrest : ∀ x ∈ rest, p.toNat < cellKey x)
    (hrun : RunSort mem indices p w w') (h : RunsSorted mem indices rest rest') :
    RunsSorted mem indices (w ++ rest) (w' ++ rest') := by
  have hw' : ∀ x ∈ w', cellKey x = p.toNat := fun x hx => hw x (hrun.perm.mem_iff.mp hx)
  have hrest' : ∀ x ∈ rest', p.toNat < cellKey x := fun x hx => hrest x (h.perm.mem_iff.mp hx)
  refine ⟨hrun.perm.append h.perm, Ascending.append ?_ h.sorted fun x hx y hy => ?_, fun q => ?_⟩
  · exact List.Pairwise.imp_of_mem (fun hx hy _ => ((hw' _ hx).trans (hw' _ hy).symm).le)
      (List.pairwise_of_forall fun _ _ => trivial)
  · rw [hw' x hx]
    exact (hrest' y hy).le
  · rw [ofKey_append, ofKey_append]
    by_cases hq : q = p
    · have hall : ∀ xs : List Cell, (∀ x ∈ xs, cellKey x = p.toNat) → ofKey cellKey p.toNat xs = xs := fun xs hxs =>
        List.filter_eq_self.mpr fun x hx => decide_eq_true (hxs x hx)
      rw [hq, hall w hw, hall w' hw', ofKey_eq_nil fun x hx => (hrest x hx).ne',
        ofKey_eq_nil fun x hx => (hrest' x hx).ne', List.append_nil, List.append_nil]
      exact hrun
    · have hne : p.toNat ≠ q.toNat := fun heq => hq (UInt32.toNat_inj.mp heq.symm)
      rw [ofKey_eq_nil fun x hx => (hw x hx).trans_ne hne, ofKey_eq_nil fun x hx => (hw' x hx).trans_ne hne,
        List.nil_append, List.nil_append]
      exact h.runs q

theorem exists_run {cs : List Cell} (hcs : Ascending cellKey cs) (hle : ∀ x ∈ cs, p.toNat ≤ cellKey x) :
    ∃ run next, cs = run ++ next ∧ runLength p (cs.map cellWord) = run.length ∧ (∀ x ∈ run, cellKey x = p.toNat) ∧
      ∀ x ∈ next, p.toNat < cellKey x := by
  induction cs with
  | nil => exact ⟨[], [], rfl, rfl, nofun, nofun⟩
  | cons x cs ih =>
      obtain ⟨hx, hcs⟩ := List.pairwise_cons.mp hcs
      rw [List.map_cons, runLength, cellWord, highWord_pairWord]
      by_cases hp : subPackPrefix4 (cellBytes x) = p
      · obtain ⟨run, next, rfl, hlen, hrun, hnext⟩ := ih hcs fun y hy => hle y (List.mem_cons_of_mem x hy)
        refine ⟨x :: run, next, rfl, ?_, List.forall_mem_cons.mpr ⟨congrArg UInt32.toNat hp, hrun⟩, hnext⟩
        rw [if_pos hp, hlen, List.length_cons]
      · have hlt : p.toNat < cellKey x := by
          refine lt_of_le_of_ne (hle x List.mem_cons_self) fun heq => hp (UInt32.toNat_inj.mp heq.symm)
        exact ⟨[], x :: cs, rfl, if_neg hp, nofun, List.forall_mem_cons.mpr ⟨hlt, fun y hy => hlt.trans_le (hx y hy)⟩⟩

/-- **The loop over the runs** leaves each of them to `sub_msd_radix`. -/
theorem clusterLoop_spec (mem : UInt32 → MsdMem) (indices : Bool) (fuel : Nat) {front : List UInt64}
    {done rest scratch : List Cell} (hrest : Ascending cellKey rest) (hdone : done.length = front.length)
    (hscratch : (done ++ rest).length ≤ scratch.length) (hfuel : rest.length < fuel) :
    ∃ rest', clusterLoop mem indices (front ++ rest.map cellWord) fuel front.length scratch (done ++ rest)
        = some (done ++ rest') ∧ RunsSorted mem indices rest rest' := by
  induction fuel generalizing front done rest scratch with
  | zero => exact absurd hfuel (Nat.not_lt_zero _)
  | succ fuel ih =>
      rw [clusterLoop, List.length_append, List.length_map]
      cases rest with
      | nil =>
          refine ⟨[], if_neg (Nat.lt_irrefl _), List.Perm.nil, List.Pairwise.nil, fun p => runSort_short ?_⟩
          exact Nat.zero_lt_two
      | cons x cs =>
          obtain ⟨p, hp⟩ : ∃ p, subPackPrefix4 (cellBytes x) = p := ⟨_, rfl⟩
          obtain ⟨hx, hcs⟩ := List.pairwise_cons.mp hrest
          have hkey : cellKey x = p.toNat := congrArg UInt32.toNat hp
          obtain ⟨run, next, rfl, hlen, hrun, hnext⟩ := @exists_run p cs hcs fun y hy => hkey ▸ hx y hy
          have hall : ∀ y ∈ x :: run, cellKey y = p.toNat := List.forall_mem_cons.mpr ⟨hkey, hrun⟩
          have hload : load (front ++ (x :: (run ++ next)).map cellWord) front.length = some (cellWord x) :=
            load_append rfl
          have hdrop : (front ++ (x :: (run ++ next)).map cellWord).drop (front.length + 1)
              = (run ++ next).map cellWord := by
            rw [List.drop_append, List.drop_of_length_le (Nat.le_succ _), Nat.add_sub_cancel_left]
            rfl
          have hhigh : highWord (cellWord x) = p := by rw [cellWord, highWord_pairWord, hp]
          -- what the loop does behind the run
          have hafter : ∀ {w' scratch' : List Cell}, RunSort mem indices p (x :: run) w' →
              scratch'.length = scratch.length →
              ∃ rest', clusterLoop mem indices (front ++ (x :: (run ++ next)).map cellWord) fuel
                  (front.length + 1 + run.length) scratch' (done ++ w' ++ next) = some (done ++ rest')
                ∧ RunsSorted mem indices (x :: (run ++ next)) rest' := by
            intro w' scratch' hw' hscratch'
            have hlen' : w'.length = run.length + 1 := hw'.perm.length_eq
            have hfront : (front ++ (x :: run).map cellWord).length = front.length + 1 + run.length := by
              rw [List.length_append, List.length_map, List.length_cons]
              omega
            obtain ⟨next', hloop, hsorted⟩ := @ih (front ++ (x :: run).map cellWord) (done ++ w') next scratch'
              (List.pairwise_append.mp hcs).2.1
              (by rw [List.length_append, hlen', hfront, hdone]; omega)
              (by
                rw [hscratch']
                simp only [List.length_append, List.length_cons] at hscratch ⊢
                omega)
              (by
                simp only [List.length_append, List.length_cons] at hfuel
                omega)
            rw [hfront, List.append_assoc, ← List.map_append, List.cons_append, List.append_assoc done] at hloop
            refine ⟨w' ++ next', ?_, ?_⟩
            · rw [List.append_assoc done, ← List.append_assoc done w' next']
              exact hloop
            · exact RunsSorted.append hall hnext hw' hsorted
          rw [if_pos (by rw [List.length_cons]; omega), hload, Option.bind_eq_bind, Option.bind_some, hdrop, hhigh,
            hlen]
          dsimp only
          by_cases htwo : 2 ≤ front.length + 1 + run.length - front.length
          · obtain ⟨w', scratch', hradix, hscratch', hw'⟩ := @subMsdRadix_spec Cell cellBytes 4 (x :: run) done next
              scratch (mem p) indices (by rw [List.append_assoc]; exact hscratch)
            rw [List.length_cons, hdone, Nat.add_comm run.length, ← Nat.add_assoc, List.append_assoc done,
              List.cons_append] at hradix
            rw [if_pos htwo, hradix, Option.bind_eq_bind, Option.bind_some]
            exact hafter hw' hscratch'
          · rw [if_neg htwo, ← List.cons_append, ← List.append_assoc done]
            exact hafter (runSort_short (by rw [List.length_cons]; omega)) rfl

end

/-! ## The pipeline -/

theorem storeN_all {α : Type} {vs xs : List α} (h : vs.length = xs.length) : storeN xs 0 vs = some vs := by
  have hstore : storeN (xs ++ []) 0 vs = some (vs ++ []) := storeN_front h
  rwa [List.append_nil, List.append_nil] at hstore

section
variable {arr : List Str} {p : UInt32}

/-- The cells of the array, in its order. -/
def cellsOf (arr : List Str) : List Cell := arr.zip (identityIndices arr.length)

theorem map_fst_cellsOf : (cellsOf arr).map Prod.fst = arr :=
  List.map_fst_zip (by rw [length_identityIndices])

theorem map_snd_cellsOf : (cellsOf arr).map Prod.snd = identityIndices arr.length := map_snd_zip_identity arr

theorem load_of_mem_cellsOf (hn : arr.length < 2 ^ 32) {x : Cell} (hx : x ∈ cellsOf arr) :
    load arr x.2.toNat = some x.1 := by
  obtain ⟨i, hi⟩ := List.mem_iff_getElem?.mp hx
  obtain ⟨hs, hidx⟩ := List.getElem?_zip_eq_some.mp hi
  have hlt := (List.getElem?_eq_some_iff.mp hs).1
  rw [identityIndices, List.getElem?_map, List.getElem?_range hlt, Option.map_some, Option.some_inj] at hidx
  rw [← hidx, toNat_ofNat_of_lt hn.le hlt]
  exact hs

theorem gather_cells (hn : arr.length < 2 ^ 32) {cs : List Cell} (hcs : ∀ x ∈ cs, x ∈ cellsOf arr) :
    gather arr (cs.map Prod.snd) = some (cs.map Prod.fst) := by
  rw [gather, List.mapM_map]
  exact mapM_eq_map fun x hx => load_of_mem_cellsOf hn (hcs x hx)

theorem words_eq :
    List.zipWith (fun (s : Str) i => pairWord (subPackPrefix4 s.bytes) i) arr (identityIndices arr.length)
      = (cellsOf arr).map cellWord := by
  rw [cellsOf, List.zip, List.map_zipWith]
  rfl

/-- The words sort the cells by their keys; equal keys keep the order of the
array. -/
theorem cellWord_stable (hn : arr.length < 2 ^ 32) {cs : List Cell}
    (h : StableSort (fun x => SubInt.value (cellWord x)) (cellsOf arr) cs) : StableSort cellKey (cellsOf arr) cs := by
  have hascend : (cellsOf arr).Pairwise fun x y => x.2.toNat < y.2.toNat := by
    have hall := identityIndices_pairwise hn.le
    rw [← map_snd_cellsOf, List.pairwise_map] at hall
    exact hall
  have hword : StableSort (fun x => (cellWord x).toNat) (cellsOf arr) cs := h.of_le_iff fun _ _ => Int.ofNat_le.symm
  refine (hword.coarsen_iff fun x y hle => ?_).mpr (hascend.imp fun hlt heq => ?_)
  · rcases pairWord_le_iff.mp hle with hlt | ⟨heq, -⟩
    · exact hlt.le
    · exact heq.le
  · exact pairWord_le_iff.mpr (.inr ⟨heq, hlt.le⟩)

end

section
variable {ρ : Type} {flt : Floats} {resistance : Int → Int → ρ} {gt : ρ → ρ → Bool} {mem : StringsMem}
  {arr : List Str}

/-- The scratch of `sub_strings_internal` is there. -/
def StringsMem.scratch (mem : StringsMem) : Bool := mem.packed && mem.strScratch && mem.lensScratch

theorem subStringsInternal_spec (h2 : 2 ≤ arr.length) (hn : arr.length < 2 ^ 32) (hmem : mem.scratch = true)
    (indices : Option (List UInt32)) (hindices : ∀ prev ∈ indices, prev.length = arr.length) :
    ∃ cells, subStringsInternal flt resistance gt mem arr indices
        = some (cells.map Prod.fst, indices.map fun _ => cells.map Prod.snd) ∧
      RunsSorted mem.msd indices.isSome (cellsOf arr) cells := by
  have hscratch : (!mem.packed || !mem.strScratch || !mem.lensScratch) = false := by
    rw [← Bool.not_and, ← Bool.not_and]
    exact congrArg not hmem
  obtain ⟨out, hsort, hstable⟩ := @sublimationU64_spec flt ρ resistance gt mem.sort ((cellsOf arr).map cellWord)
  obtain ⟨cs, rfl, hcs⟩ := hstable.lift
  have hkeys := cellWord_stable hn hcs
  have hlow : (cs.map cellWord).map lowWord = cs.map Prod.snd := by
    rw [List.map_map]
    exact List.map_congr_left fun x _ => lowWord_pairWord
  have hgather := @gather_cells arr hn cs fun x hx => hkeys.perm.mem_iff.mp hx
  have hzip : (cs.map Prod.fst).zip (cs.map Prod.snd) = cs := by
    rw [List.zip_map', List.map_id'']
    exact fun x => rfl
  obtain ⟨cells, hloop, hruns⟩ := @clusterLoop_spec mem.msd indices.isSome (cs.length + 1) [] [] cs cs hkeys.sorted rfl
    (Nat.le_refl _) (Nat.lt_succ_self _)
  rw [List.nil_append, List.nil_append, List.nil_append, List.length_nil] at hloop
  have hperm : cells.Perm (cellsOf arr) := hruns.perm.trans hkeys.perm
  have hwrite : writeIndices (cells.map Prod.snd) indices = some (indices.map fun _ => cells.map Prod.snd) := by
    cases indices with
    | none => rfl
    | some prev =>
        have hprev : (cells.map Prod.snd).length = prev.length := by
          rw [hindices prev rfl, (hperm.map Prod.snd).length_eq, map_snd_cellsOf, length_identityIndices]
        have hstore := storeN_all hprev
        rw [writeIndices, hstore]
        rfl
  refine ⟨cells, ?_, hperm, hruns.sorted, fun p => ?_⟩
  · rw [subStringsInternal, if_neg (by omega), if_neg (by omega), hscratch, if_neg Bool.false_ne_true, words_eq]
    simp only [hsort, hlow, hgather, hzip, hloop, hwrite, List.length_map, Option.bind_eq_bind, Option.bind_some]
  · rw [← hkeys.stable]
    exact hruns.runs p

end

/-! ## The order -/

/-- The strings in the order of the contract: by their bytes. -/
def order (s : Str) : List Nat := codes s.bytes

def cluster (p : UInt32) (arr : List Str) : List Str := arr.filter fun s => subPackPrefix4 s.bytes = p

/-- In each run that is left to the distribution, the strings that end within
the key come in the order of their lengths. -/
def Settled (mem : UInt32 → MsdMem) (indices : Bool) (arr : List Str) : Prop :=
  ∀ p ∈ arr.map fun s => subPackPrefix4 s.bytes,
    subStringsMsdCutover ≤ (cluster p arr).length → (mem p).ready indices = true →
      (cluster p arr).Pairwise fun s t => s.len ≤ 4 → t.len ≤ 4 → s.len ≤ t.len

instance (mem : UInt32 → MsdMem) (indices : Bool) (arr : List Str) : Decidable (Settled mem indices arr) :=
  List.decidableBAll _ _

theorem Str.length_bytes (s : Str) : s.bytes.length = s.len := List.length_take_of_le s.le

section
variable {mem : UInt32 → MsdMem} {indices : Bool} {arr : List Str} {cells : List Cell} {x y : Cell} {p : UInt32}

theorem order_lt_of_cellKey_lt (h : cellKey x < cellKey y) : order x.1 < order y.1 :=
  codes_lt_of_padded_lt (key_lt_iff.mp h)

theorem order_le_iff_of_cellKey_eq (h : cellKey x = cellKey y) :
    order x.1 ≤ order y.1 ↔ tailKey cellBytes 4 x ≤ tailKey cellBytes 4 y :=
  codes_le_iff_of_padded_eq (key_eq_iff.mp (UInt32.toNat_inj.mp h))

/-- What the distribution does not tell apart are strings that end within the
key. -/
theorem tie_iff : (tail cellBytes 4 x = tail cellBytes 4 y → tailKey cellBytes 4 x ≤ tailKey cellBytes 4 y)
    ↔ (x.1.len ≤ 4 → y.1.len ≤ 4 → x.1.len ≤ y.1.len) := by
  have hlen : ∀ z : Cell, (tail cellBytes 4 z).length = z.1.len - 4 := by
    intro z
    rw [tail, codes, List.length_map, List.length_drop, cellBytes, Str.length_bytes]
  have hend : ∀ z : Cell, z.1.len ≤ 4 → tail cellBytes 4 z = [] := fun z hz =>
    List.eq_nil_of_length_eq_zero (by rw [hlen]; omega)
  have hle : tail cellBytes 4 x = tail cellBytes 4 y →
      (tailKey cellBytes 4 x ≤ tailKey cellBytes 4 y ↔ x.1.len ≤ y.1.len) := by
    intro heq
    rw [← x.1.length_bytes, ← y.1.length_bytes]
    refine tailOrder_le_iff.trans ⟨fun h => ?_, fun h => .inr ⟨heq, h⟩⟩
    rcases h with hlt | ⟨-, h⟩
    · exact absurd heq (ne_of_lt hlt)
    · exact h
  constructor
  · intro h hx hy
    have heq := (hend x hx).trans (hend y hy).symm
    exact (hle heq).mp (h heq)
  · intro h heq
    have hlens := congrArg List.length heq
    rw [hlen, hlen] at hlens
    refine (hle heq).mpr ?_
    by_cases hx : x.1.len ≤ 4
    · by_cases hy : y.1.len ≤ 4
      · exact h hx hy
      · omega
    · omega

theorem map_fst_ofKey (arr : List Str) (p : UInt32) :
    (ofKey cellKey p.toNat (cellsOf arr)).map Prod.fst = cluster p arr := by
  conv_rhs => rw [cluster, ← @map_fst_cellsOf arr, List.filter_map]
  refine congrArg (List.map Prod.fst) (List.filter_congr fun x _ => decide_eq_decide.mpr ?_)
  exact UInt32.toNat_inj

/-- A run comes out in the order of the contract exactly if it is left to the
insertion sort or its short strings were in order. -/
theorem run_ordered_iff (h : RunsSorted mem indices (cellsOf arr) cells) (p : UInt32) :
    Ascending (fun x => order x.1) (ofKey cellKey p.toNat cells) ↔
      (subStringsMsdCutover ≤ (cluster p arr).length → (mem p).ready indices = true →
        (cluster p arr).Pairwise fun s t => s.len ≤ 4 → t.len ≤ 4 → s.len ≤ t.len) := by
  have hkey : Ascending (fun x : Cell => order x.1) (ofKey cellKey p.toNat cells)
      ↔ Ascending (tailKey cellBytes 4) (ofKey cellKey p.toNat cells) := by
    have hiff : ∀ x ∈ ofKey cellKey p.toNat cells, ∀ y ∈ ofKey cellKey p.toNat cells,
        (order x.1 ≤ order y.1 ↔ tailKey cellBytes 4 x ≤ tailKey cellBytes 4 y) := fun x hx y hy =>
      order_le_iff_of_cellKey_eq ((of_decide_eq_true (List.mem_filter.mp hx).2).trans
        (of_decide_eq_true (List.mem_filter.mp hy).2).symm)
    exact ⟨fun hasc => hasc.imp_of_mem fun hx hy hxy => (hiff _ hx _ hy).mp hxy,
      fun hasc => hasc.imp_of_mem fun hx hy hxy => (hiff _ hx _ hy).mpr hxy⟩
  have hrun := h.runs p
  have hlen : (ofKey cellKey p.toNat (cellsOf arr)).length = (cluster p arr).length := by
    rw [← map_fst_ofKey, List.length_map]
  rw [RunSort, hlen] at hrun
  rw [hkey]
  by_cases hbig : subStringsMsdCutover ≤ (cluster p arr).length ∧ (mem p).ready indices = true
  · rw [if_pos hbig] at hrun
    have hmono : ∀ x y : Cell, tail cellBytes 4 x < tail cellBytes 4 y →
        tailKey cellBytes 4 x ≤ tailKey cellBytes 4 y := fun x y hlt => tailOrder_le_iff.mpr (.inl hlt)
    rw [hrun.ascending_fine_iff hmono, ← map_fst_ofKey, List.pairwise_map]
    constructor
    · exact fun hpair _ _ => hpair.imp fun hxy => tie_iff.mp hxy
    · exact fun hpair => (hpair (by rw [map_fst_ofKey]; exact hbig.1) hbig.2).imp fun hxy => tie_iff.mpr hxy
  · rw [if_neg hbig] at hrun
    exact iff_of_true hrun.sorted fun hlong hready => absurd ⟨hlong, hready⟩ hbig

/-- The strings come out in the order of the contract exactly if they were
settled. -/
theorem RunsSorted.ordered_iff (h : RunsSorted mem indices (cellsOf arr) cells) :
    (cells.map Prod.fst).Pairwise (fun s t => order s ≤ order t) ↔ Settled mem indices arr := by
  rw [List.pairwise_map]
  constructor
  · intro hpair p _
    exact (run_ordered_iff h p).mp (List.Pairwise.filter _ hpair)
  · intro hsettled
    refine h.sorted.ascending_of_ofKey (fun x y hlt => (order_lt_of_cellKey_lt hlt).le) fun k => ?_
    by_cases hk : ∃ x ∈ cells, cellKey x = k
    · obtain ⟨x, hx, rfl⟩ := hk
      refine (run_ordered_iff h (subPackPrefix4 (cellBytes x))).mpr (hsettled _ ?_)
      refine List.mem_map.mpr ⟨x.1, ?_, rfl⟩
      rw [← @map_fst_cellsOf arr]
      exact List.mem_map_of_mem (h.perm.mem_iff.mp hx)
    · rw [ofKey_eq_nil fun x hx hxk => hk ⟨x, hx, hxk⟩]
      exact List.Pairwise.nil

theorem settled_short (h : arr.length < subStringsMsdCutover) : Settled mem indices arr := by
  intro p _ hlong
  exact absurd (hlong.trans (List.length_filter_le _ _)) (Nat.not_le.mpr h)

end

/-! ## The entries -/

def SortsStrings (arr out : List Str) : Prop := out.Perm arr ∧ out.Pairwise fun s t => order s ≤ order t

/-- The contract of the indices: those of the array, and it is sorted in their
order. -/
def SortsIndices (arr : List Str) (indices : List UInt32) : Prop :=
  indices.Perm (identityIndices arr.length) ∧
    ∃ out, gather arr indices = some out ∧ out.Pairwise fun s t => order s ≤ order t

/-- The working arrays of the index sorts are there. -/
def StringsMem.work (mem : StringsMem) : Bool := mem.arrWork && mem.lensWork

section
variable {ρ : Type} {flt : Floats} {resistance : Int → Int → ρ} {gt : ρ → ρ → Bool} {mem : StringsMem}
  {arr : List Str}

theorem pairwise_of_short {R : Str → Str → Prop} (h : arr.length < 2) : arr.Pairwise R := by
  match arr, h with
  | [], _ => exact List.Pairwise.nil
  | [s], _ => exact List.pairwise_singleton R s

theorem RunsSorted.perm_fst {indices : Bool} {cells : List Cell} (h : RunsSorted mem.msd indices (cellsOf arr) cells) :
    (cells.map Prod.fst).Perm arr := by
  have hperm := h.perm.map Prod.fst
  rwa [map_fst_cellsOf] at hperm

theorem RunsSorted.perm_snd {indices : Bool} {cells : List Cell} (h : RunsSorted mem.msd indices (cellsOf arr) cells) :
    (cells.map Prod.snd).Perm (identityIndices arr.length) := by
  have hperm := h.perm.map Prod.snd
  rwa [map_snd_cellsOf] at hperm

/-- With its memory, `sublimation_strings_len` keeps the contract exactly if the
strings are settled. -/
theorem sublimationStringsLen_spec (hn : arr.length < 2 ^ 32) (hlens : mem.lensWork = true)
    (hmem : mem.scratch = true) :
    ∃ out, sublimationStringsLen flt resistance gt mem arr = some out ∧ out.Perm arr ∧
      (SortsStrings arr out ↔ Settled mem.msd false arr) := by
  rw [sublimationStringsLen]
  by_cases h2 : arr.length < 2
  · refine ⟨arr, if_pos h2, List.Perm.refl arr, iff_of_true ⟨List.Perm.refl arr, pairwise_of_short h2⟩ ?_⟩
    exact settled_short (h2.trans (by decide))
  · obtain ⟨cells, hrun, hsorted⟩ := @subStringsInternal_spec ρ flt resistance gt mem arr (Nat.not_lt.mp h2) hn hmem
      none nofun
    refine ⟨cells.map Prod.fst, ?_, hsorted.perm_fst, (and_iff_right hsorted.perm_fst).trans hsorted.ordered_iff⟩
    rw [if_neg h2, hlens, if_neg (by decide), hrun]
    rfl

theorem sublimationStringsIndicesLen_short {prev : List UInt32} (h2 : arr.length < 2)
    (hprev : prev.length = arr.length) :
    sublimationStringsIndicesLen flt resistance gt mem arr prev = some (identityIndices arr.length) ∧
      SortsIndices arr (identityIndices arr.length) := by
  have hall := @gather_cells arr (h2.trans (by decide)) (cellsOf arr) fun x hx => hx
  rw [map_snd_cellsOf, map_fst_cellsOf] at hall
  refine ⟨?_, List.Perm.refl _, arr, hall, pairwise_of_short h2⟩
  match arr, prev, hprev with
  | [], [], _ => rfl
  | [_], [_], _ => rfl
  | _ :: _ :: _, _, _ => exact absurd h2 (by rw [List.length_cons, List.length_cons]; omega)

/-- With its memory, `sublimation_strings_indices_len` keeps the contract
exactly if the strings are settled. -/
theorem sublimationStringsIndicesLen_spec {prev : List UInt32} (hn : arr.length < 2 ^ 32) (hwork : mem.work = true)
    (hmem : mem.scratch = true) (hprev : prev.length = arr.length) :
    ∃ indices, sublimationStringsIndicesLen flt resistance gt mem arr prev = some indices ∧
      indices.Perm (identityIndices arr.length) ∧ (SortsIndices arr indices ↔ Settled mem.msd true arr) := by
  by_cases h2 : arr.length < 2
  · obtain ⟨hrun, hsorts⟩ := @sublimationStringsIndicesLen_short ρ flt resistance gt mem arr prev h2 hprev
    exact ⟨_, hrun, List.Perm.refl _, iff_of_true hsorts (settled_short (h2.trans (by decide)))⟩
  · obtain ⟨cells, hrun, hsorted⟩ := @subStringsInternal_spec ρ flt resistance gt mem arr (Nat.not_lt.mp h2) hn hmem
      (some prev) fun _ h => Option.some.inj h ▸ hprev
    have hgather := @gather_cells arr hn cells fun x hx => hsorted.perm.mem_iff.mp hx
    have hgranted : (!mem.arrWork || !mem.lensWork) = false := by
      rw [← Bool.not_and]
      exact congrArg not hwork
    refine ⟨cells.map Prod.snd, ?_, hsorted.perm_snd, ?_⟩
    · rw [sublimationStringsIndicesLen, if_neg (by omega), if_neg (by omega), hgranted, if_neg Bool.false_ne_true, hrun]
      rfl
    · refine (and_iff_right hsorted.perm_snd).trans (Iff.trans ?_ hsorted.ordered_iff)
      rw [hgather]
      exact ⟨fun ⟨out, heq, hpair⟩ => Option.some.inj heq ▸ hpair, fun hpair => ⟨_, rfl, hpair⟩⟩

/-- **The string sorts** leave a permutation, and with the memory for their
scratch it is sorted exactly if in each run of 16 strings or more, for which the
stack is there, those that end within the key come in the order of their
lengths. -/
theorem sortStrings_iff {prev : List UInt32} (hn : arr.length < 2 ^ 32) (hwork : mem.work = true)
    (hmem : mem.scratch = true) (hprev : prev.length = arr.length) :
    (∃ out, sublimationStringsLen flt resistance gt mem arr = some out ∧ out.Perm arr ∧
      (SortsStrings arr out ↔ Settled mem.msd false arr)) ∧
    ∃ indices, sublimationStringsIndicesLen flt resistance gt mem arr prev = some indices ∧
      indices.Perm (identityIndices arr.length) ∧ (SortsIndices arr indices ↔ Settled mem.msd true arr) := by
  have hlens : mem.lensWork = true := (Bool.and_eq_true_iff.mp hwork).2
  exact ⟨sublimationStringsLen_spec hn hlens hmem, sublimationStringsIndicesLen_spec hn hwork hmem hprev⟩

end

def ampleStrings : StringsMem where
  arrWork := true
  lensWork := true
  packed := true
  strScratch := true
  lensScratch := true
  sort := ampleEnv
  msd _ := ⟨true, true, fun _ => true⟩

/-- `"b"` and `"a"`, with a length. -/
theorem sortStrings_iff_two :
    (∃ out, sublimationStringsLen noFloats (fun _ _ => ()) (fun _ _ => false) ampleStrings
        [⟨[98], 1, by decide⟩, ⟨[97], 1, by decide⟩] = some out ∧
      out.Perm [⟨[98], 1, by decide⟩, ⟨[97], 1, by decide⟩] ∧
      (SortsStrings [⟨[98], 1, by decide⟩, ⟨[97], 1, by decide⟩] out
        ↔ Settled ampleStrings.msd false [⟨[98], 1, by decide⟩, ⟨[97], 1, by decide⟩])) ∧
    ∃ indices, sublimationStringsIndicesLen noFloats (fun _ _ => ()) (fun _ _ => false) ampleStrings
        [⟨[98], 1, by decide⟩, ⟨[97], 1, by decide⟩] [7, 7] = some indices ∧
      indices.Perm (identityIndices 2) ∧
      (SortsIndices [⟨[98], 1, by decide⟩, ⟨[97], 1, by decide⟩] indices
        ↔ Settled ampleStrings.msd true [⟨[98], 1, by decide⟩, ⟨[97], 1, by decide⟩]) :=
  @sortStrings_iff Unit noFloats (fun _ _ => ()) (fun _ _ => false) ampleStrings
    [⟨[98], 1, by decide⟩, ⟨[97], 1, by decide⟩] [7, 7] (by decide) rfl rfl rfl

/-- A string of one NUL byte in front of 15 empty ones stays there. -/
example : ¬ Settled ampleStrings.msd false (⟨[0], 1, by decide⟩ :: List.replicate 15 ⟨[0], 0, by decide⟩) := by decide

end Montauk.Strings
