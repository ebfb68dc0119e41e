import Montauk.Machine.Binary
import Montauk.Sort.Classify
import Montauk.Sort.Radix
import Montauk.Sort.SpectralMerge

/-!
# Index sorts

A 64-bit key and a 32-bit index do not fit one word, so the index sorts of
64-bit keys move slots. `sub_pack_dispatch64` takes a long array to the keyed
spectral merge if its keys have structure, and everything else to a stable
byte-by-byte radix that skips constant bytes. Either way the slots end in the
stable order of their keys (`subPackDispatch64_stable`), which there is only one
of, so neither the route nor the memory there is can be told from the result
(`subPackDispatch64_eq_radix`).
-/

namespace Montauk.Sort

/-- `sublimation_pack64_slot` -/
structure Slot where
  key : UInt64
  idx : UInt32
deriving DecidableEq

/-- `(a[i].key >> shift) & 0xFFu` -/
def Slot.digit (pass : Nat) (s : Slot) : Nat := byte64 s.key pass

/-! ## The radix -/

/-- The passes, the first of them `pass`. `swapped` says that `a` is the other
half. -/
def pairPasses : Nat → Nat → List Slot → List Slot → Bool → Option (List Slot × List Slot × Bool)
  | 0, _, a, b, swapped => some (a, b, swapped)
  | k + 1, pass, a, b, swapped => do
      let count ← histogram (Slot.digit pass) a (List.replicate 256 0)
      let first ← load a 0
      let c ← load count (first.digit pass)
      if c = a.length then pairPasses k (pass + 1) a b swapped
      else
        let b ← scatter (Slot.digit pass) a (offsets 0 count) b
        pairPasses k (pass + 1) b a !swapped

def subRadixPairs64 (a b : List Slot) : Option (List Slot) :=
  if a.length = 0 then some a
  else do
    let (src, dest, swapped) ← pairPasses 8 0 a b false
    if swapped then
      let sorted ← loadN src 0 a.length
      storeN dest 0 sorted
    else some src

/-! ## The dispatch -/

def subPackAdaptMin : Nat := 512

/-- What the machine gives a sort of slots: whether the key copy can be
allocated, and the scratch of each merge. -/
structure PackMem where
  keys : Bool
  merge : Nat → Bool

variable {ρ : Type}

def Disorder.structured (d : Disorder) : Bool :=
  d = .sorted || d = .reversed || d = .nearlySorted || d = .phased

/-- `sub_pack_dispatch64`; `resistance` and `gt` are the floating-point part of
the merge. -/
def subPackDispatch64 (flt : Floats) (resistance : Nat → Nat → ρ) (gt : ρ → ρ → Bool) (mem : PackMem)
    (a b : List Slot) : Option (List Slot) :=
  if a.length < 2 then some a
  else if subPackAdaptMin ≤ a.length ∧ mem.keys = true then do
    let p ← subClassifyInternal flt (a.map Slot.key)
    if p.disorder.structured then
      subSpectralMerge resistance gt (fun s : Slot => s.key.toNat) (a.length + 1) mem.merge a
    else subRadixPairs64 a b
  else subRadixPairs64 a b

/-! ## The entries -/

def subKeyFromU64 (k : UInt64) : UInt64 := k

def subKeyFromI64 (k : Int64) : UInt64 := k.toUInt64 ^^^ 0x8000000000000000

/-- `sub_key_from_f64`, of the bits of the double. -/
def subKeyFromF64 (u : UInt64) : UInt64 :=
  let signBit := u >>> 63
  let mask := (0 - signBit) ||| 0x8000000000000000
  u ^^^ mask

/-- The slots of a sort: the key, for a descending sort inverted, and the
index. -/
def packSlots {κ : Type} (keyFrom : κ → UInt64) (desc : Bool) (keys : List κ) (indices : List UInt32) :
    List Slot :=
  List.zipWith (fun k i => ⟨if desc then ~~~(keyFrom k) else keyFrom k, i⟩) keys indices

/-- `sublimation_pack_sort_*_with_scratch`; `b` is the other half of the
scratch. -/
def packSortWithScratch {κ : Type} (keyFrom : κ → UInt64) (flt : Floats) (resistance : Nat → Nat → ρ)
    (gt : ρ → ρ → Bool) (mem : PackMem) (keys : List κ) (indices : List UInt32) (desc : Bool)
    (b : List Slot) : Option (List UInt32) := do
  let a ← subPackDispatch64 flt resistance gt mem (packSlots keyFrom desc keys indices) b
  some (a.map Slot.idx)

/-- `sublimation_pack_sort_f64_with_scratch`; the keys are the bits of the
doubles. -/
def sublimationPackSortF64WithScratch (flt : Floats) (resistance : Nat → Nat → ρ) (gt : ρ → ρ → Bool)
    (mem : PackMem) (keys : List UInt64) (indices : List UInt32) (desc : Bool) (b : List Slot) :
    Option (List UInt32) :=
  packSortWithScratch subKeyFromF64 flt resistance gt mem keys indices desc b

/-- `sublimation_pack_sort_*`; `scratch` is the memory for the slots. -/
def packSort {κ : Type} (keyFrom : κ → UInt64) (flt : Floats) (resistance : Nat → Nat → ρ)
    (gt : ρ → ρ → Bool) (mem : PackMem) (scratch : Option (Nat → Slot)) (keys : List κ)
    (indices : List UInt32) (desc : Bool) : Option (List UInt32) :=
  if indices.length < 2 then some indices
  else
    match malloc scratch indices.length with
    | none => some indices
    | some b => packSortWithScratch keyFrom flt resistance gt mem keys indices desc b

def sublimationPackSortU64 (flt : Floats) (resistance : Nat → Nat → ρ) (gt : ρ → ρ → Bool)
    (mem : PackMem) (scratch : Option (Nat → Slot)) (keys : List UInt64) (indices : List UInt32)
    (desc : Bool) : Option (List UInt32) :=
  packSort subKeyFromU64 flt resistance gt mem scratch keys indices desc

def sublimationPackSortI64 (flt : Floats) (resistance : Nat → Nat → ρ) (gt : ρ → ρ → Bool)
    (mem : PackMem) (scratch : Option (Nat → Slot)) (keys : List Int64) (indices : List UInt32)
    (desc : Bool) : Option (List UInt32) :=
  packSort subKeyFromI64 flt resistance gt mem scratch keys indices desc

/-- The keys are the bits of the doubles. -/
def sublimationPackSortF64 (flt : Floats) (resistance : Nat → Nat → ρ) (gt : ρ → ρ → Bool)
    (mem : PackMem) (scratch : Option (Nat → Slot)) (keys : List UInt64) (indices : List UInt32)
    (desc : Bool) : Option (List UInt32) :=
  packSort subKeyFromF64 flt resistance gt mem scratch keys indices desc

/-! ## Both routes are stable -/

variable {a b : List Slot}

theorem Slot.digit_lt (pass : Nat) (s : Slot) : s.digit pass < 256 := byte64_lt s.key pass

theorem pairPasses_spec {arr : List Slot} (hne : arr ≠ []) (k : Nat) :
    ∀ (pass : Nat) (a b : List Slot) (swapped : Bool), pass + k = 8 →
      StableSort (fun s : Slot => s.key.toNat % 256 ^ pass) arr a → b.length = a.length →
      ∃ src dest swapped', pairPasses k pass a b swapped = some (src, dest, swapped')
        ∧ StableSort (fun s : Slot => s.key.toNat % 256 ^ 8) arr src ∧ dest.length = src.length := by
  induction k with
  | zero =>
      intro pass a b swapped hpass ha hb
      obtain rfl : pass = 8 := hpass
      exact ⟨a, b, swapped, rfl, ha, hb⟩
  | succ k ih =>
      intro pass a b swapped hpass ha hb
      have hbyte : (fun s : Slot => byteOf s.key.toNat pass) = Slot.digit pass := by
        funext s
        exact (byte64_eq s.key (by omega)).symm
      have hdigits : ∀ s ∈ a, s.digit pass < 256 := fun s _ => s.digit_lt pass
      obtain ⟨first, rest, rfl⟩ : ∃ first rest, a = first :: rest := by
        refine List.exists_cons_of_ne_nil fun hnil => hne ?_
        rw [hnil] at ha
        exact List.eq_nil_of_length_eq_zero ha.length_eq.symm
      have hfirst : load (first :: rest) 0 = some first := rfl
      rw [pairPasses, histogram_spec _ hdigits, Option.bind_eq_bind, Option.bind_some, hfirst,
        Option.bind_eq_bind, Option.bind_some, load_map_range _ (first.digit_lt pass), Option.bind_eq_bind,
        Option.bind_some]
      split
      · rename_i hconst
        refine ih (pass + 1) _ b swapped (by omega) (ha.byte ?_) hb
        rw [hbyte]
        exact .of_constant hconst
      · have hpart : StableSort (Slot.digit pass) (first :: rest)
            (buckets (Slot.digit pass) 256 (first :: rest)) := buckets_stable _ hdigits
        rw [scatter_spec _ b hdigits hb]
        refine ih (pass + 1) _ (first :: rest) (!swapped) (by omega) (ha.byte ?_) hpart.length_eq.symm
        rw [hbyte]
        exact hpart

/-- The radix is stable, whatever the other half held. -/
theorem subRadixPairs64_stable (a b : List Slot) (hb : b.length = a.length) :
    ∃ out, subRadixPairs64 a b = some out ∧ StableSort (fun s : Slot => s.key.toNat) a out := by
  rw [subRadixPairs64]
  by_cases hempty : a.length = 0
  · rw [if_pos hempty, List.length_eq_zero_iff.mp hempty]
    exact ⟨[], rfl, .refl List.Pairwise.nil⟩
  · have hne : a ≠ [] := fun hnil => hempty (by rw [hnil]; rfl)
    obtain ⟨src, dest, swapped, hrun, hsort, hlen⟩ := pairPasses_spec hne 8 0 a b false rfl
      (.no_bytes a) hb
    have hfull : (fun s : Slot => s.key.toNat % 256 ^ 8) = fun s : Slot => s.key.toNat := by
      funext s
      exact Nat.mod_eq_of_lt s.key.toNat_lt
    rw [hfull] at hsort
    rw [if_neg hempty, hrun, Option.bind_eq_bind, Option.bind_some]
    refine ⟨src, ?_, hsort⟩
    cases swapped with
    | false => rfl
    | true =>
        have hload : loadN src 0 a.length = some src := by
          rw [loadN, if_pos (by rw [hsort.length_eq, Nat.zero_add]), List.drop_zero,
            List.take_of_length_le hsort.length_eq.le]
        show (loadN src 0 a.length).bind _ = _
        rw [hload, Option.bind_some, storeN, if_pos (by omega), List.take_zero, List.nil_append,
          Nat.zero_add, List.drop_of_length_le hlen.le, List.append_nil]

variable (flt : Floats) (resistance : Nat → Nat → ρ) (gt : ρ → ρ → Bool) (mem : PackMem)

theorem subPackDispatch64_stable (a b : List Slot) (hb : b.length = a.length) :
    ∃ out, subPackDispatch64 flt resistance gt mem a b = some out ∧
      StableSort (fun s : Slot => s.key.toNat) a out := by
  rw [subPackDispatch64]
  by_cases hshort : a.length < 2
  · rw [if_pos hshort]
    exact ⟨a, rfl, stableSort_short _ hshort⟩
  · rw [if_neg hshort]
    split
    · obtain ⟨p, hp⟩ := subClassifyInternal_returns flt (a.map Slot.key)
      rw [hp, Option.bind_eq_bind, Option.bind_some]
      split
      · exact subSpectralMerge_stable resistance gt _ (a.length + 1) mem.merge a (Nat.lt_succ_self _)
      · exact subRadixPairs64_stable a b hb
    · exact subRadixPairs64_stable a b hb

/-- The dispatch and the radix alone give the same slots, whatever is in the
other half and whatever memory there is: the slots by key, equal keys in their
original order. -/
theorem subPackDispatch64_eq_radix (a b b' : List Slot) (hb : b.length = a.length)
    (hb' : b'.length = a.length) :
    ∃ out, subPackDispatch64 flt resistance gt mem a b = some out ∧ subRadixPairs64 a b' = some out ∧
      out.Perm a ∧ (out.Pairwise fun s t => s.key ≤ t.key) ∧
      ∀ k, (out.filter fun s => s.key = k) = a.filter fun s => s.key = k := by
  obtain ⟨out, hout, hsort⟩ := subPackDispatch64_stable flt resistance gt mem a b hb
  obtain ⟨out', hout', hsort'⟩ := subRadixPairs64_stable a b' hb'
  obtain rfl := hsort.unique hsort'
  refine ⟨out, hout, hout', hsort.perm, hsort.sorted.imp fun hle => UInt64.le_iff_toNat_le.mpr hle,
    fun k => ?_⟩
  have hkey : ∀ xs : List Slot, (xs.filter fun s => s.key = k)
      = ofKey (fun s : Slot => s.key.toNat) k.toNat xs := by
    intro xs
    exact List.filter_congr fun s _ => decide_eq_decide.mpr UInt64.toNat_inj.symm
  rw [hkey, hkey, hsort.stable]

theorem subPackDispatch64_pair :
    ∃ out, subPackDispatch64 noFloats (fun _ _ => ()) (fun _ _ => false) ⟨true, fun _ => true⟩
        [⟨2, 0⟩, ⟨1, 1⟩] [⟨0, 0⟩, ⟨0, 0⟩] = some out
      ∧ subRadixPairs64 [⟨2, 0⟩, ⟨1, 1⟩] [⟨7, 7⟩, ⟨7, 7⟩] = some out
      ∧ out.Perm [⟨2, 0⟩, ⟨1, 1⟩] ∧ (out.Pairwise fun s t => s.key ≤ t.key)
      ∧ ∀ k, (out.filter fun s => s.key = k)
        = ([⟨2, 0⟩, ⟨1, 1⟩] : List Slot).filter fun s => s.key = k :=
  subPackDispatch64_eq_radix noFloats (fun _ _ => ()) (fun _ _ => false) ⟨true, fun _ => true⟩
    [⟨2, 0⟩, ⟨1, 1⟩] [⟨0, 0⟩, ⟨0, 0⟩] [⟨7, 7⟩, ⟨7, 7⟩] rfl rfl

/-! ## The keys of the doubles -/

theorem subKeyFromF64_toNat (u : UInt64) : (subKeyFromF64 u).toNat = Binary.orderBits 63 u.toNat := by
  have hu := u.toNat_lt
  have hshift : (u >>> 63).toNat = u.toNat / 2 ^ 63 := by
    rw [UInt64.toNat_shiftRight, Nat.shiftRight_eq_div_pow]
    rfl
  rw [subKeyFromF64, Binary.orderBits]
  by_cases hpos : u.toNat < 2 ^ 63
  · have hzero : u >>> 63 = 0 := by
      rw [← UInt64.toNat_inj, hshift, Nat.div_eq_of_lt hpos]
      rfl
    have hmask : (0 - 0 : UInt64) ||| 0x8000000000000000 = 0x8000000000000000 := by decide
    have hsign : (0x8000000000000000 : UInt64).toNat = 2 ^ 63 := rfl
    rw [hzero, hmask, UInt64.toNat_xor, hsign, xor_signBit hu, if_pos hpos, if_pos hpos]
  · have hone : u >>> 63 = 1 := by
      rw [← UInt64.toNat_inj, hshift]
      show u.toNat / 2 ^ 63 = 1
      omega
    have hmask : (0 - 1 : UInt64) ||| 0x8000000000000000 = -1 := by decide
    rw [hone, hmask, UInt64.xor_neg_one, UInt64.toNat_not, if_neg hpos]
    rfl

end Montauk.Sort
