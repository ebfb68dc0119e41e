import Montauk.Sort.Pack

/-!
# Gathering by sorted positions

A list is put in the order of its keys through an index sort: the positions are
sorted by the keys, and the list is read at the sorted positions
(`packSort_gather`). That is the stable sort by the keys as the index sort
compares them, or the list as it was where the sort gets no scratch.
-/

namespace Montauk.Sort

def slotKey {κ : Type} (keyFrom : κ → UInt64) (desc : Bool) (k : κ) : UInt64 :=
  if desc then ~~~(keyFrom k) else keyFrom k

theorem slotKey_f64 (desc : Bool) (u : UInt64) :
    (slotKey subKeyFromF64 desc u).toNat = Binary.directedBits 63 desc u.toNat := by
  rw [slotKey, Binary.directedBits]
  cases desc with
  | false => exact subKeyFromF64_toNat u
  | true =>
      rw [if_pos rfl, if_pos rfl, UInt64.toNat_not, subKeyFromF64_toNat]
      rfl

def elementAt {α : Type} (x : α) (xs : List α) (s : Slot) : α := (xs[s.idx.toNat]?).getD x

theorem mapM_eq_map {β γ : Type} {f : β → Option γ} {g : β → γ} {xs : List β}
    (h : ∀ x ∈ xs, f x = some (g x)) : xs.mapM f = some (xs.map g) := by
  induction xs with
  | nil => rfl
  | cons x xs ih =>
      rw [List.mapM_cons, h x List.mem_cons_self, ih fun y hy => h y (List.mem_cons_of_mem x hy)]
      rfl

section
variable {α κ : Type} {keyOf : α → κ} {keyFrom : κ → UInt64} {desc : Bool} {xs : List α}

def positions (keyOf : α → κ) (keyFrom : κ → UInt64) (desc : Bool) (xs : List α) : List Slot :=
  packSlots keyFrom desc (xs.map keyOf) ((List.range xs.length).map UInt32.ofNat)

theorem positions_getElem? (x : α) (hn : xs.length ≤ 2 ^ 32) {k : Nat} {s : Slot}
    (hs : (positions keyOf keyFrom desc xs)[k]? = some s) :
    load xs s.idx.toNat = some (elementAt x xs s) ∧ xs[k]? = some (elementAt x xs s) ∧
      slotKey keyFrom desc (keyOf (elementAt x xs s)) = s.key := by
  rw [positions, packSlots, List.getElem?_zipWith_eq_some] at hs
  obtain ⟨key, j, hkey, hj, rfl⟩ := hs
  rw [List.getElem?_map, Option.map_eq_some_iff] at hkey hj
  obtain ⟨y, hy, rfl⟩ := hkey
  obtain ⟨k', hk', rfl⟩ := hj
  have hk := (List.getElem?_eq_some_iff.mp hy).1
  rw [List.getElem?_range hk, Option.some_inj] at hk'
  subst hk'
  have hidx : (UInt32.ofNat k).toNat = k := by
    rw [UInt32.toNat_ofNat']
    exact Nat.mod_eq_of_lt (Nat.lt_of_lt_of_le hk hn)
  have helement : elementAt x xs ⟨if desc then ~~~(keyFrom (keyOf y)) else keyFrom (keyOf y), UInt32.ofNat k⟩ = y := by
    rw [elementAt, hidx, hy, Option.getD_some]
  rw [helement, hidx]
  exact ⟨hy, hy, rfl⟩

theorem length_positions : (positions keyOf keyFrom desc xs).length = xs.length := by
  rw [positions, packSlots, List.length_zipWith, List.length_map, List.length_map, List.length_range, Nat.min_self]

theorem map_elementAt_positions (x : α) (hn : xs.length ≤ 2 ^ 32) :
    (positions keyOf keyFrom desc xs).map (elementAt x xs) = xs := by
  refine List.ext_getElem? fun k => ?_
  rw [List.getElem?_map]
  cases hs : (positions keyOf keyFrom desc xs)[k]? with
  | some s => exact (positions_getElem? x hn hs).2.1.symm
  | none =>
      rw [List.getElem?_eq_none_iff, length_positions] at hs
      exact (List.getElem?_eq_none hs).symm

theorem map_idx_packSlots (keyFrom : κ → UInt64) (desc : Bool) {keys : List κ} {indices : List UInt32}
    (h : keys.length = indices.length) : (packSlots keyFrom desc keys indices).map Slot.idx = indices := by
  rw [packSlots]
  induction keys generalizing indices with
  | nil => exact (List.length_eq_zero_iff.mp h.symm).symm
  | cons k keys ih =>
      cases indices with
      | nil => exact absurd h (Nat.succ_ne_zero _)
      | cons i indices =>
          rw [List.zipWith_cons_cons, List.map_cons, ih (Nat.succ.inj h)]

theorem packSortWithScratch_perm {ρ : Type} (flt : Floats) (resistance : Nat → Nat → ρ) (gt : ρ → ρ → Bool)
    (mem : PackMem) {keys : List κ} {indices : List UInt32} {b : List Slot} (hlen : keys.length = indices.length)
    (hb : b.length = indices.length) :
    ∃ idx, packSortWithScratch keyFrom flt resistance gt mem keys indices desc b = some idx ∧ idx.Perm indices := by
  have hidx := map_idx_packSlots keyFrom desc hlen
  have hslots : b.length = (packSlots keyFrom desc keys indices).length := by
    rw [hb, packSlots, List.length_zipWith, hlen, Nat.min_self]
  obtain ⟨sorted, hrun, hsort⟩ := subPackDispatch64_stable flt resistance gt mem _ b hslots
  refine ⟨sorted.map Slot.idx, ?_, ?_⟩
  · rw [packSortWithScratch, hrun]
    rfl
  · rw [← hidx]
    exact hsort.perm.map Slot.idx

/-- **Reading a list at its sorted positions**: the stable sort by the slots'
keys, whatever the other half of the scratch held. -/
theorem packSortWithScratch_gather {ρ : Type} (flt : Floats) (resistance : Nat → Nat → ρ) (gt : ρ → ρ → Bool)
    (mem : PackMem) {b : List Slot} (hn : xs.length ≤ 2 ^ 32) (hne : 0 < xs.length) (hb : b.length = xs.length) :
    ∃ idx out, packSortWithScratch keyFrom flt resistance gt mem (xs.map keyOf)
        ((List.range xs.length).map UInt32.ofNat) desc b = some idx ∧
      idx.mapM (fun j => load xs j.toNat) = some out ∧
      StableSort (fun x => (slotKey keyFrom desc (keyOf x)).toNat) xs out := by
  obtain ⟨x, hx⟩ : ∃ x, x ∈ xs := List.exists_mem_of_length_pos hne
  have hall := @map_elementAt_positions α κ keyOf keyFrom desc xs x hn
  have hload : ∀ s ∈ positions keyOf keyFrom desc xs, load xs s.idx.toNat = some (elementAt x xs s) ∧
      (slotKey keyFrom desc (keyOf (elementAt x xs s))).toNat = s.key.toNat := by
    intro s hs
    obtain ⟨k, hk⟩ := List.mem_iff_getElem?.mp hs
    obtain ⟨hat, -, hkey⟩ := positions_getElem? x hn hk
    exact ⟨hat, congrArg UInt64.toNat hkey⟩
  have hblen : b.length = (positions keyOf keyFrom desc xs).length := by rw [hb, length_positions]
  obtain ⟨sorted, hrun, hsort⟩ := subPackDispatch64_stable flt resistance gt mem _ b hblen
  refine ⟨sorted.map Slot.idx, sorted.map (elementAt x xs), ?_, ?_, ?_⟩
  · rw [positions] at hrun
    rw [packSortWithScratch, hrun]
    rfl
  · rw [List.mapM_map]
    exact mapM_eq_map fun s hs => (hload s (hsort.perm.mem_iff.mp hs)).1
  · have hmap : StableSort (fun x => (slotKey keyFrom desc (keyOf x)).toNat)
        ((positions keyOf keyFrom desc xs).map (elementAt x xs)) (sorted.map (elementAt x xs)) :=
      hsort.map fun s hs => (hload s hs).2
    rwa [hall] at hmap

/-- The same for a sort that gets its scratch by itself: the list as it was if
there is none. -/
theorem packSort_gather {ρ : Type} (flt : Floats) (resistance : Nat → Nat → ρ) (gt : ρ → ρ → Bool) (mem : PackMem)
    (scratch : Option (Nat → Slot)) (hn : xs.length ≤ 2 ^ 32) (hlen : ¬ xs.length < 2) :
    ∃ idx out, packSort keyFrom flt resistance gt mem scratch (xs.map keyOf)
        ((List.range xs.length).map UInt32.ofNat) desc = some idx ∧
      idx.mapM (fun j => load xs j.toNat) = some out ∧
      (scratch = none → out = xs) ∧
      (scratch ≠ none → StableSort (fun x => (slotKey keyFrom desc (keyOf x)).toNat) xs out) := by
  have hidxlen : ((List.range xs.length).map UInt32.ofNat).length = xs.length := by
    rw [List.length_map, List.length_range]
  rw [packSort, hidxlen, if_neg hlen]
  cases scratch with
  | none =>
      obtain ⟨x, hx⟩ : ∃ x, x ∈ xs := List.exists_mem_of_length_pos (by omega)
      have hidx : (positions keyOf keyFrom desc xs).map Slot.idx = (List.range xs.length).map UInt32.ofNat :=
        map_idx_packSlots keyFrom desc (by rw [hidxlen, List.length_map])
      refine ⟨_, xs, rfl, ?_, fun _ => rfl, fun hne => absurd rfl hne⟩
      rw [← hidx, List.mapM_map]
      have hread : (positions keyOf keyFrom desc xs).mapM (fun s => load xs s.idx.toNat)
          = some ((positions keyOf keyFrom desc xs).map (elementAt x xs)) := mapM_eq_map fun s hs => by
        obtain ⟨k, hk⟩ := List.mem_iff_getElem?.mp hs
        exact (positions_getElem? x hn hk).1
      rw [map_elementAt_positions x hn] at hread
      exact hread
  | some fill =>
      obtain ⟨b, hb⟩ : ∃ b, malloc (some fill) xs.length = some b := ⟨_, rfl⟩
      obtain ⟨idx, out, hrun, hread, hsort⟩ := packSortWithScratch_gather flt resistance gt mem hn (by omega)
        (length_malloc hb)
      refine ⟨idx, out, ?_, hread, nofun, fun _ => hsort⟩
      rw [hb]
      exact hrun

end

end Montauk.Sort
