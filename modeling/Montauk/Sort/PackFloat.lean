import Montauk.Machine.Binary
import Montauk.Sort.Pack32

/-!
# Index sorts of floating-point keys

The bits of a float or a double are turned into an unsigned key in the order of
the values, with one exception: the key of `-0` is below that of `+0`. So the
sorts of `float` and of `double` keys give the positions in the order of the
values, equal values in the order they had, unless the scratch is missing or a
zero has to be moved past the other one (`packSortFloat_iff`).
-/

namespace Montauk.Sort

def identityIndices (n : Nat) : List UInt32 := (List.range n).map UInt32.ofNat

def bitsAt (bits : List Nat) (r : UInt32) : Nat := (bits[r.toNat]?).getD 0

/-- The positions in the order of the values of their keys, equal values in
ascending order; the format has `k` bits below the sign, `f` of them for the
fraction. -/
def SortsByValue (f k : Nat) (desc : Bool) (bits : List Nat) (out : List UInt32) : Prop :=
  StableSort (fun r => Binary.directed f k desc (bitsAt bits r)) (identityIndices bits.length) out

/-- There is nothing to sort; or there is no scratch, and the keys are in order;
or there is, and no zero stands in front of one that the sort takes for
smaller. -/
def FloatMeets (scratch : Bool) (f k : Nat) (desc : Bool) (bits : List Nat) : Prop :=
  bits.length < 2 ∨
  scratch = false ∧ (bits.Pairwise fun u v => Binary.directed f k desc u ≤ Binary.directed f k desc v) ∨
  scratch = true ∧ bits.Pairwise fun u v => ¬ Binary.ZerosApart k desc u v

/-! ## Positions -/

section
variable {n : Nat} {bits : List Nat}

theorem length_identityIndices (n : Nat) : (identityIndices n).length = n := by
  rw [identityIndices, List.length_map, List.length_range]

theorem toNat_ofNat_of_lt {i : Nat} (hn : n ≤ 2 ^ 32) (h : i < n) : (UInt32.ofNat i).toNat = i := by
  rw [UInt32.toNat_ofNat']
  exact Nat.mod_eq_of_lt (Nat.lt_of_lt_of_le h hn)

theorem identityIndices_pairwise (hn : n ≤ 2 ^ 32) :
    (identityIndices n).Pairwise fun r s => r.toNat < s.toNat := by
  rw [identityIndices, List.pairwise_map]
  refine List.pairwise_lt_range.imp_of_mem fun {i j} hi hj hij => ?_
  rwa [toNat_ofNat_of_lt hn (List.mem_range.mp hi), toNat_ofNat_of_lt hn (List.mem_range.mp hj)]

theorem map_bitsAt (hn : bits.length ≤ 2 ^ 32) : (identityIndices bits.length).map (bitsAt bits) = bits := by
  refine List.ext_getElem? fun i => ?_
  rw [identityIndices, List.map_map, List.getElem?_map]
  by_cases hi : i < bits.length
  · rw [List.getElem?_range hi, Option.map_some, Function.comp_apply, bitsAt, toNat_ofNat_of_lt hn hi,
      List.getElem?_eq_getElem hi, Option.getD_some]
  · rw [List.getElem?_eq_none (by rw [List.length_range]; omega), List.getElem?_eq_none (by omega)]
    rfl

/-- What is so of all pairs of keys is so of the keys at all pairs of
positions. -/
theorem pairwise_bitsAt {R : Nat → Nat → Prop} (hn : bits.length ≤ 2 ^ 32) :
    ((identityIndices bits.length).Pairwise fun r s => R (bitsAt bits r) (bitsAt bits s)) ↔ bits.Pairwise R := by
  conv_rhs => rw [← map_bitsAt hn]
  exact List.pairwise_map.symm

theorem bitsAt_of_mem_zip {ω : Type} {toNat : ω → Nat} {keys : List ω} {p : ω × UInt32} (hn : keys.length ≤ 2 ^ 32)
    (hp : p ∈ keys.zip (identityIndices keys.length)) : bitsAt (keys.map toNat) p.2 = toNat p.1 := by
  obtain ⟨i, hi⟩ := List.mem_iff_getElem?.mp hp
  obtain ⟨hkey, hidx⟩ := List.getElem?_zip_eq_some.mp hi
  have hlt := (List.getElem?_eq_some_iff.mp hkey).1
  rw [identityIndices, List.getElem?_map, List.getElem?_range hlt, Option.map_some, Option.some_inj] at hidx
  rw [bitsAt, ← hidx, toNat_ofNat_of_lt hn hlt, List.getElem?_map, hkey]
  rfl

end

/-! ## The order of the keys -/

theorem subKeyFromF32_toNat (u : UInt32) : (subKeyFromF32 u).toNat = Binary.orderBits 31 u.toNat := by
  have hu := u.toNat_lt
  have hshift : (u >>> 31).toNat = u.toNat / 2 ^ 31 := by
    rw [UInt32.toNat_shiftRight, Nat.shiftRight_eq_div_pow]
    rfl
  rw [subKeyFromF32, Binary.orderBits]
  by_cases hpos : u.toNat < 2 ^ 31
  · have hzero : u >>> 31 = 0 := by
      rw [← UInt32.toNat_inj, hshift, Nat.div_eq_of_lt hpos]
      rfl
    have hmask : (0 - 0 : UInt32) ||| 0x80000000 = 0x80000000 := by decide
    have hsign : (0x80000000 : UInt32).toNat = 2 ^ 31 := rfl
    rw [hzero, hmask, UInt32.toNat_xor, hsign, xor_signBit hu, if_pos hpos, if_pos hpos]
  · have hone : u >>> 31 = 1 := by
      rw [← UInt32.toNat_inj, hshift]
      show u.toNat / 2 ^ 31 = 1
      omega
    have hmask : (0 - 1 : UInt32) ||| 0x80000000 = -1 := by decide
    rw [hone, hmask, UInt32.xor_neg_one, UInt32.toNat_not, if_neg hpos]
    rfl

theorem narrowKey_f32 (desc : Bool) (u : UInt32) :
    (narrowKey subKeyFromF32 desc u).toNat = Binary.directedBits 31 desc u.toNat := by
  rw [narrowKey, Binary.directedBits]
  cases desc with
  | false => exact subKeyFromF32_toNat u
  | true =>
      rw [if_pos rfl, if_pos rfl, UInt32.toNat_not, subKeyFromF32_toNat]
      rfl

section
variable {f k : Nat} {desc : Bool} {bits : List Nat} {out : List UInt32}

/-- Positions in the order of the compared bits are in the order of the values
exactly if no zero had to be moved. -/
theorem sortsByValue_iff (hn : bits.length ≤ 2 ^ 32) (hbits : ∀ u ∈ bits, u < 2 ^ (k + 1))
    (h : StableSort (fun r => Binary.directedBits k desc (bitsAt bits r)) (identityIndices bits.length) out) :
    SortsByValue f k desc bits out ↔ bits.Pairwise fun u v => ¬ Binary.ZerosApart k desc u v := by
  have hlt : ∀ r, bitsAt bits r < 2 ^ (k + 1) := by
    intro r
    rw [bitsAt]
    cases hr : bits[r.toNat]? with
    | none => exact Nat.two_pow_pos _
    | some u => exact hbits u (List.mem_of_getElem? hr)
  rw [SortsByValue, ← pairwise_bitsAt hn]
  exact h.coarsen_pairwise (fun r s => Binary.directed_le_of_directedBits_le (hlt r) (hlt s))
    fun r s => Binary.directedBits_tie_iff (hlt r) (hlt s)

theorem sortsByValue_identity_iff (hn : bits.length ≤ 2 ^ 32) : SortsByValue f k desc bits (identityIndices bits.length)
    ↔ bits.Pairwise fun u v => Binary.directed f k desc u ≤ Binary.directed f k desc v := by
  rw [← pairwise_bitsAt hn]
  exact ⟨fun h => h.sorted, fun h => .refl h⟩

/-- What a sort does with its scratch and without it decides. -/
theorem sortsByValue_iff_meets {scratch : Bool} (hn : bits.length ≤ 2 ^ 32) (hbits : ∀ u ∈ bits, u < 2 ^ (k + 1))
    (hshort : bits.length < 2 → out = identityIndices bits.length)
    (hnone : scratch = false → out = identityIndices bits.length)
    (hsome : scratch = true →
      StableSort (fun r => Binary.directedBits k desc (bitsAt bits r)) (identityIndices bits.length) out) :
    SortsByValue f k desc bits out ↔ FloatMeets scratch f k desc bits := by
  rw [FloatMeets]
  by_cases hlen : bits.length < 2
  · rw [hshort hlen]
    exact iff_of_true (stableSort_short _ (by rwa [length_identityIndices])) (.inl hlen)
  · cases scratch with
    | false =>
        rw [hnone rfl, sortsByValue_identity_iff hn]
        simp [hlen]
    | true =>
        rw [sortsByValue_iff hn hbits (hsome rfl)]
        simp [hlen]

end

/-! ## The entries -/

section
variable {ω : Type} {toNat : ω → Nat} {keys : List ω} {sorted : List (ω × UInt32)}

theorem map_snd_zip_identity (keys : List ω) :
    (keys.zip (identityIndices keys.length)).map Prod.snd = identityIndices keys.length :=
  List.map_snd_zip (by rw [length_identityIndices])

theorem StableSort.positions {k : Nat} {desc : Bool} {key : ω → Nat} (hn : keys.length ≤ 2 ^ 32)
    (hkey : ∀ u, key u = Binary.directedBits k desc (toNat u))
    (h : StableSort (fun p : ω × UInt32 => key p.1) (keys.zip (identityIndices keys.length)) sorted) :
    StableSort (fun r => Binary.directedBits k desc (bitsAt (keys.map toNat) r))
      (identityIndices (keys.map toNat).length) (sorted.map Prod.snd) := by
  rw [List.length_map, ← map_snd_zip_identity keys]
  refine h.map fun p hp => ?_
  rw [bitsAt_of_mem_zip hn hp, hkey]

end

section
variable {ρ : Type} (flt : Floats) (desc : Bool)

theorem packSortF32_spec (resistance : Int → Int → ρ) (gt : ρ → ρ → Bool) (env : EntryEnv UInt64) (scratch : Bool)
    {keys : List UInt32} (hn : keys.length ≤ 2 ^ 32) :
    ∃ out, sublimationPackSortF32 flt resistance gt env scratch keys (identityIndices keys.length) desc = some out ∧
      (SortsByValue 23 31 desc (keys.map UInt32.toNat) out
        ↔ FloatMeets scratch 23 31 desc (keys.map UInt32.toNat)) := by
  have hbits : ∀ u ∈ keys.map UInt32.toNat, u < 2 ^ (31 + 1) := by
    intro u hu
    obtain ⟨x, -, rfl⟩ := List.mem_map.mp hu
    exact x.toNat_lt
  have hlen := length_identityIndices keys.length
  have hbitsLen : (keys.map UInt32.toNat).length = keys.length := List.length_map _
  obtain ⟨sorted, hrun, hsort⟩ := @packSort32_pairs UInt32 ρ subKeyFromF32 desc flt resistance gt env keys
    (identityIndices keys.length) hlen.symm
  have hascend : (keys.zip (identityIndices keys.length)).Pairwise fun p q => p.2.toNat < q.2.toNat := by
    have hall := identityIndices_pairwise hn
    rw [← map_snd_zip_identity keys, List.pairwise_map] at hall
    exact hall
  have hnarrow : StableSort (fun p : UInt32 × UInt32 => (narrowKey subKeyFromF32 desc p.1).toNat)
      (keys.zip (identityIndices keys.length)) sorted := by
    refine (hsort.coarsen_iff fun p q hle => ?_).mpr (hascend.imp fun hlt heq => ?_)
    · rcases packedKey_le_iff.mp hle with hlt | ⟨heq, -⟩
      · exact hlt.le
      · exact heq.le
    · exact packedKey_le_iff.mpr (.inr ⟨heq, hlt.le⟩)
  cases scratch with
  | false =>
      refine ⟨identityIndices keys.length, ?_, sortsByValue_iff_meets (by omega) hbits ?_ ?_ fun hsome =>
        absurd hsome Bool.false_ne_true⟩
      · rw [sublimationPackSortF32, packSort32]
        split <;> rfl
      · exact fun _ => by rw [hbitsLen]
      · exact fun _ => by rw [hbitsLen]
  | true =>
      refine ⟨sorted.map Prod.snd, hrun, sortsByValue_iff_meets (by omega) hbits (fun hshort => ?_)
        (fun hnone => absurd hnone.symm Bool.false_ne_true) fun _ => hnarrow.positions hn (narrowKey_f32 desc)⟩
      rw [packSort32, if_pos (by omega), Option.some_inj] at hrun
      rw [← hrun, hbitsLen]

theorem packSortF64_spec (resistance : Nat → Nat → ρ) (gt : ρ → ρ → Bool) (mem : PackMem)
    (scratch : Option (Nat → Slot)) {keys : List UInt64} (hn : keys.length ≤ 2 ^ 32) :
    ∃ out, sublimationPackSortF64 flt resistance gt mem scratch keys (identityIndices keys.length) desc = some out ∧
      (SortsByValue 52 63 desc (keys.map UInt64.toNat) out
        ↔ FloatMeets scratch.isSome 52 63 desc (keys.map UInt64.toNat)) := by
  have hbits : ∀ u ∈ keys.map UInt64.toNat, u < 2 ^ (63 + 1) := by
    intro u hu
    obtain ⟨x, -, rfl⟩ := List.mem_map.mp hu
    exact x.toNat_lt
  have hlen := length_identityIndices keys.length
  have hbitsLen : (keys.map UInt64.toNat).length = keys.length := List.length_map _
  cases scratch with
  | none =>
      refine ⟨identityIndices keys.length, ?_, sortsByValue_iff_meets (by omega) hbits ?_ ?_ fun hsome =>
        absurd hsome Bool.false_ne_true⟩
      · rw [sublimationPackSortF64, packSort]
        split <;> rfl
      · exact fun _ => by rw [hbitsLen]
      · exact fun _ => by rw [hbitsLen]
  | some fill =>
      obtain ⟨sorted, hrun, hsort⟩ := @packSort_pairs UInt64 ρ subKeyFromF64 desc flt resistance gt mem fill keys
        (identityIndices keys.length) hlen.symm
      refine ⟨sorted.map Prod.snd, hrun, sortsByValue_iff_meets (by omega) hbits (fun hshort => ?_)
        (fun hnone => absurd hnone.symm Bool.false_ne_true) fun _ => hsort.positions hn (slotKey_f64 desc)⟩
      rw [packSort, if_pos (by omega), Option.some_inj] at hrun
      rw [← hrun, hbitsLen]

/-- **The index sorts of floating-point keys**, started from the identity, give
the positions in the order of the values and equal values in ascending order,
exactly if there is nothing to sort, or there is no scratch and the keys are in
order, or there is and no zero has to be moved past the other one. -/
theorem packSortFloat_iff (resistance : Int → Int → ρ) (gt : ρ → ρ → Bool) (env : EntryEnv UInt64)
    (resistance' : Nat → Nat → ρ) (gt' : ρ → ρ → Bool) (mem : PackMem) :
    (∀ (scratch : Bool) (keys : List UInt32), keys.length ≤ 2 ^ 32 → ∃ out,
      sublimationPackSortF32 flt resistance gt env scratch keys (identityIndices keys.length) desc = some out ∧
      (SortsByValue 23 31 desc (keys.map UInt32.toNat) out
        ↔ FloatMeets scratch 23 31 desc (keys.map UInt32.toNat))) ∧
    (∀ (scratch : Option (Nat → Slot)) (keys : List UInt64), keys.length ≤ 2 ^ 32 → ∃ out,
      sublimationPackSortF64 flt resistance' gt' mem scratch keys (identityIndices keys.length) desc = some out ∧
      (SortsByValue 52 63 desc (keys.map UInt64.toNat) out
        ↔ FloatMeets scratch.isSome 52 63 desc (keys.map UInt64.toNat))) :=
  ⟨fun scratch _ hn => packSortF32_spec flt desc resistance gt env scratch hn,
    fun scratch _ hn => packSortF64_spec flt desc resistance' gt' mem scratch hn⟩

end

/-- Two floats and two doubles. -/
theorem packSortFloat_two :
    (∃ out, sublimationPackSortF32 noFloats (fun _ _ => ()) (fun _ _ => false) ampleEnv true [0x40000000, 0x3f800000]
          (identityIndices 2) true = some out ∧
        (SortsByValue 23 31 true ([0x40000000, 0x3f800000].map UInt32.toNat) out
          ↔ FloatMeets true 23 31 true ([0x40000000, 0x3f800000].map UInt32.toNat))) ∧
    (∃ out, sublimationPackSortF64 noFloats (fun _ _ => ()) (fun _ _ => false) ⟨true, fun _ => true⟩
          (some fun _ => ⟨0, 0⟩) [0x4000000000000000, 0x3ff0000000000000] (identityIndices 2) true = some out ∧
        (SortsByValue 52 63 true ([0x4000000000000000, 0x3ff0000000000000].map UInt64.toNat) out
          ↔ FloatMeets true 52 63 true ([0x4000000000000000, 0x3ff0000000000000].map UInt64.toNat))) := by
  obtain ⟨hfloat, hdouble⟩ := packSortFloat_iff noFloats true (fun _ _ => ()) (fun _ _ => false) ampleEnv
    (fun _ _ => ()) (fun _ _ => false) ⟨true, fun _ => true⟩
  exact ⟨hfloat true [0x40000000, 0x3f800000] (by decide),
    hdouble (some fun _ => ⟨0, 0⟩) [0x4000000000000000, 0x3ff0000000000000] (by decide)⟩

/-- `+0` in front of `-0` is moved behind it. -/
theorem not_sortsByValue_zeros : ¬ ∀ (flt : Floats) (desc : Bool) (resistance : Nat → Nat → Unit)
    (gt : Unit → Unit → Bool) (mem : PackMem) (fill : Nat → Slot) (keys : List UInt64) (out : List UInt32),
    sublimationPackSortF64 flt resistance gt mem (some fill) keys (identityIndices keys.length) desc = some out →
    SortsByValue 52 63 desc (keys.map UInt64.toNat) out := by
  intro h
  obtain ⟨out, hrun, hiff⟩ := @packSortF64_spec Unit noFloats false (fun _ _ => ()) (fun _ _ => false)
    ⟨true, fun _ => true⟩ (some fun _ => ⟨0, 0⟩) [0, 0x8000000000000000] (by decide)
  have hmeets := hiff.mp (h noFloats false (fun _ _ => ()) (fun _ _ => false) ⟨true, fun _ => true⟩
    (fun _ => ⟨0, 0⟩) [0, 0x8000000000000000] out hrun)
  rcases hmeets with hshort | ⟨hnone, -⟩ | ⟨-, hzeros⟩
  · exact absurd hshort (by decide)
  · exact absurd hnone.symm Bool.false_ne_true
  · exact (List.pairwise_cons.mp hzeros).1 _ List.mem_cons_self ⟨rfl, rfl⟩

end Montauk.Sort
