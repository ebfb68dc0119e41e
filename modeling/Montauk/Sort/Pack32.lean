import Montauk.Sort.Entry
import Montauk.Sort.Gather
import Montauk.Sort.PairWord

/-!
# Index sorts of 32-bit keys

A 32-bit key and an index share a word, so the index sorts of 32-bit keys pack
them and sort the words by `sublimation_u64`. Equal keys are then ordered by
their indices, while the sorts of 64-bit keys leave equal keys in the order in
which they stand. That is the same if the indices of equal keys ascend, as those
of an identity do, and it differs otherwise (`packSort_widened_iff`).
-/

namespace Montauk.Sort

/-! ## The entries -/

def subKeyFromU32 (k : UInt32) : UInt32 := k

def subKeyFromI32 (k : Int32) : UInt32 := k.toUInt32 ^^^ 0x80000000

/-- `sub_key_from_f32`, of the bits of the float. -/
def subKeyFromF32 (u : UInt32) : UInt32 :=
  let signBit := u >>> 31
  let mask := (0 - signBit) ||| 0x80000000
  u ^^^ mask

def subPackKeyU32 (k idx : UInt32) (desc : Bool) : UInt64 :=
  let mono := if desc then ~~~k else k
  pairWord mono idx

section
variable {κ ρ : Type} (keyFrom : κ → UInt32) (flt : Floats) (resistance : Int → Int → ρ) (gt : ρ → ρ → Bool)
  (env : EntryEnv UInt64)

/-- `sublimation_pack_sort_*_with_scratch` -/
def packSort32WithScratch (keys : List κ) (indices : List UInt32) (desc : Bool) : Option (List UInt32) := do
  let scratch ← sublimationU64 flt resistance gt env
    (List.zipWith (fun k i => subPackKeyU32 (keyFrom k) i desc) keys indices)
  some (scratch.map lowWord)

/-- `sublimation_pack_sort_*`; `scratch` says whether the words can be
allocated. -/
def packSort32 (scratch : Bool) (keys : List κ) (indices : List UInt32) (desc : Bool) : Option (List UInt32) :=
  if indices.length < 2 then some indices
  else if scratch then packSort32WithScratch keyFrom flt resistance gt env keys indices desc
  else some indices

end

section
variable {ρ : Type} (flt : Floats) (resistance : Int → Int → ρ) (gt : ρ → ρ → Bool) (env : EntryEnv UInt64)
  (scratch : Bool)

def sublimationPackSortU32 (keys : List UInt32) (indices : List UInt32) (desc : Bool) : Option (List UInt32) :=
  packSort32 subKeyFromU32 flt resistance gt env scratch keys indices desc

def sublimationPackSortI32 (keys : List Int32) (indices : List UInt32) (desc : Bool) : Option (List UInt32) :=
  packSort32 subKeyFromI32 flt resistance gt env scratch keys indices desc

/-- The keys are the bits of the floats. -/
def sublimationPackSortF32 (keys : List UInt32) (indices : List UInt32) (desc : Bool) : Option (List UInt32) :=
  packSort32 subKeyFromF32 flt resistance gt env scratch keys indices desc

end

/-! ## The order of the words -/

def narrowKey {κ : Type} (keyFrom : κ → UInt32) (desc : Bool) (k : κ) : UInt32 :=
  if desc then ~~~(keyFrom k) else keyFrom k

section
variable {κ ρ : Type} {keyFrom : κ → UInt32} {desc : Bool}

def packedKey (keyFrom : κ → UInt32) (desc : Bool) (p : κ × UInt32) : Nat :=
  (subPackKeyU32 (keyFrom p.1) p.2 desc).toNat

theorem packedKey_le_iff {p q : κ × UInt32} : packedKey keyFrom desc p ≤ packedKey keyFrom desc q
    ↔ (narrowKey keyFrom desc p.1).toNat < (narrowKey keyFrom desc q.1).toNat
      ∨ (narrowKey keyFrom desc p.1).toNat = (narrowKey keyFrom desc q.1).toNat ∧ p.2.toNat ≤ q.2.toNat :=
  pairWord_le_iff

theorem packSort32_pairs (flt : Floats) (resistance : Int → Int → ρ) (gt : ρ → ρ → Bool) (env : EntryEnv UInt64)
    {keys : List κ} {indices : List UInt32} (h : keys.length = indices.length) :
    ∃ sorted : List (κ × UInt32),
      packSort32 keyFrom flt resistance gt env true keys indices desc = some (sorted.map Prod.snd) ∧
      StableSort (packedKey keyFrom desc) (keys.zip indices) sorted := by
  have hsnd : (keys.zip indices).map Prod.snd = indices := List.map_snd_zip (by omega)
  rw [packSort32]
  split
  · rename_i hshort
    refine ⟨keys.zip indices, by rw [hsnd], stableSort_short _ ?_⟩
    rw [List.length_zip]
    omega
  · have hwords : List.zipWith (fun k i => subPackKeyU32 (keyFrom k) i desc) keys indices
        = (keys.zip indices).map fun p => subPackKeyU32 (keyFrom p.1) p.2 desc := by
      rw [List.zip, List.map_zipWith]
    obtain ⟨words, hrun, hsort⟩ := @sublimationU64_spec flt ρ resistance gt env
      ((keys.zip indices).map fun p => subPackKeyU32 (keyFrom p.1) p.2 desc)
    obtain ⟨sorted, rfl, hsorted⟩ := hsort.lift
    refine ⟨sorted, ?_, ?_⟩
    · rw [if_pos rfl, packSort32WithScratch, hwords, hrun, Option.bind_eq_bind, Option.bind_some, List.map_map]
      refine congrArg some (List.map_congr_left fun p _ => ?_)
      exact lowWord_pairWord
    · exact hsorted.of_le_iff fun _ _ => Int.ofNat_le.symm

end

/-! ## The same keys, widened -/

def TiesAscend {κ : Type} (keys : List κ) (indices : List UInt32) : Prop :=
  (keys.zip indices).Pairwise fun p q => p.1 = q.1 → p.2 ≤ q.2

section
variable {κ κ' ρ : Type} {keyFrom : κ → UInt32} {keyFrom' : κ' → UInt64} {desc : Bool}

theorem packSort_pairs (flt : Floats) (resistance : Nat → Nat → ρ) (gt : ρ → ρ → Bool) (mem : PackMem)
    (fill : Nat → Slot) {keys : List κ'} {indices : List UInt32} (h : keys.length = indices.length) :
    ∃ sorted : List (κ' × UInt32),
      packSort keyFrom' flt resistance gt mem (some fill) keys indices desc = some (sorted.map Prod.snd) ∧
      StableSort (fun p => (slotKey keyFrom' desc p.1).toNat) (keys.zip indices) sorted := by
  have hsnd : (keys.zip indices).map Prod.snd = indices := List.map_snd_zip (by omega)
  have hlen : (keys.zip indices).length = indices.length := by
    rw [List.length_zip]
    omega
  rw [packSort]
  split
  · exact ⟨keys.zip indices, by rw [hsnd], stableSort_short _ (by omega)⟩
  · have hslots : packSlots keyFrom' desc keys indices
        = (keys.zip indices).map fun p => ⟨slotKey keyFrom' desc p.1, p.2⟩ := by
      rw [packSlots, List.zip, List.map_zipWith]
      rfl
    obtain ⟨b, hb⟩ : ∃ b, malloc (some fill) indices.length = some b := ⟨_, rfl⟩
    have hblen : b.length = ((keys.zip indices).map fun p => (⟨slotKey keyFrom' desc p.1, p.2⟩ : Slot)).length := by
      rw [length_malloc hb, List.length_map, hlen]
    obtain ⟨slots, hrun, hsort⟩ := subPackDispatch64_stable flt resistance gt mem _ b hblen
    obtain ⟨sorted, rfl, hsorted⟩ := hsort.lift
    refine ⟨sorted, ?_, hsorted⟩
    rw [hb]
    dsimp only
    rw [packSortWithScratch, hslots, hrun, Option.bind_eq_bind, Option.bind_some, List.map_map]
    rfl

/-- Two sorted lists of pairs with the same keys are told by their indices. -/
theorem map_snd_inj_of_sorted {key : κ → Nat} (hkey : Function.Injective key) {a b c : List (κ × UInt32)}
    (hb : b.Perm a) (hb' : Ascending (fun p => key p.1) b) (hc : c.Perm a) (hc' : Ascending (fun p => key p.1) c) :
    b.map Prod.snd = c.map Prod.snd ↔ b = c := by
  have hkeys : b.map (fun p => key p.1) = c.map (fun p => key p.1) := by
    refine ((hb.trans hc.symm).map _).eq_of_pairwise (fun x y _ _ hxy hyx => Nat.le_antisymm hxy hyx) ?_ ?_
    · exact List.pairwise_map.mpr hb'
    · exact List.pairwise_map.mpr hc'
  have hfst : b.map Prod.fst = c.map Prod.fst := by
    refine List.map_injective_iff.mpr hkey ?_
    rw [List.map_map, List.map_map]
    exact hkeys
  refine ⟨fun hsnd => ?_, fun heq => by rw [heq]⟩
  have hzip : ∀ l : List (κ × UInt32), l = (l.map Prod.fst).zip (l.map Prod.snd) := by
    intro l
    rw [List.zip_map', List.map_id'']
    exact fun p => rfl
  rw [hzip b, hzip c, hfst, hsnd]

theorem slotKey_widen_le_iff {widen : κ → κ'} {x y : κ}
    (hwiden : ∀ x y, (keyFrom' (widen x)).toNat ≤ (keyFrom' (widen y)).toNat ↔ (keyFrom x).toNat ≤ (keyFrom y).toNat) :
    (slotKey keyFrom' desc (widen x)).toNat ≤ (slotKey keyFrom' desc (widen y)).toNat
      ↔ (narrowKey keyFrom desc x).toNat ≤ (narrowKey keyFrom desc y).toNat := by
  rw [slotKey, slotKey, narrowKey, narrowKey]
  cases desc with
  | false => exact hwiden x y
  | true =>
      have hx := (keyFrom x).toNat_lt
      have hy := (keyFrom y).toNat_lt
      have hx' := (keyFrom' (widen x)).toNat_lt
      have hy' := (keyFrom' (widen y)).toNat_lt
      have hback := hwiden y x
      rw [if_pos rfl, if_pos rfl, if_pos rfl, if_pos rfl, UInt64.toNat_not, UInt64.toNat_not, UInt32.toNat_not,
        UInt32.toNat_not]
      have hsize : UInt64.size = 2 ^ 64 := rfl
      have hsize' : UInt32.size = 2 ^ 32 := rfl
      omega

theorem narrowKey_toNat_injective (hinj : Function.Injective keyFrom) :
    Function.Injective fun k => (narrowKey keyFrom desc k).toNat := by
  intro x y h
  have hkey := UInt32.toNat_inj.mp h
  rw [narrowKey, narrowKey] at hkey
  cases desc with
  | false => exact hinj hkey
  | true => exact hinj (UInt32.not_inj.mp hkey)

/-- Where widening keeps the order of the keys, the sorts of narrow and of wide
keys agree exactly if the indices of equal keys ascend. -/
theorem packSort_widen (flt : Floats) (resistance : Int → Int → ρ) (gt : ρ → ρ → Bool) (env : EntryEnv UInt64)
    (resistance' : Nat → Nat → ρ) (gt' : ρ → ρ → Bool) (mem : PackMem) (fill : Nat → Slot) {widen : κ → κ'}
    (hinj : Function.Injective keyFrom)
    (hwiden : ∀ x y, (keyFrom' (widen x)).toNat ≤ (keyFrom' (widen y)).toNat ↔ (keyFrom x).toNat ≤ (keyFrom y).toNat)
    {keys : List κ} {indices : List UInt32} (h : keys.length = indices.length) :
    ∃ out out', packSort32 keyFrom flt resistance gt env true keys indices desc = some out ∧
      packSort keyFrom' flt resistance' gt' mem (some fill) (keys.map widen) indices desc = some out' ∧
      (out = out' ↔ TiesAscend keys indices) := by
  obtain ⟨b, hb, hsort⟩ := @packSort32_pairs κ ρ keyFrom desc flt resistance gt env keys indices h
  obtain ⟨c', hc, hsort'⟩ := @packSort_pairs κ' ρ keyFrom' desc flt resistance' gt' mem fill
    (keys.map widen) indices (by rw [List.length_map, h])
  rw [List.zip_map_left] at hsort'
  obtain ⟨c, rfl, hlift⟩ := hsort'.lift
  have hwide : StableSort (fun p => (narrowKey keyFrom desc p.1).toNat) (keys.zip indices) c :=
    hlift.of_le_iff fun p q => (slotKey_widen_le_iff hwiden).symm
  have hmono : ∀ p q, packedKey keyFrom desc p ≤ packedKey keyFrom desc q →
      (narrowKey keyFrom desc p.1).toNat ≤ (narrowKey keyFrom desc q.1).toNat := by
    intro p q hle
    rcases packedKey_le_iff.mp hle with hlt | ⟨heq, -⟩
    · exact hlt.le
    · exact heq.le
  refine ⟨b.map Prod.snd, _, hb, hc, ?_⟩
  have hsnd : (c.map (Prod.map widen id)).map Prod.snd = c.map Prod.snd := by
    rw [List.map_map]
    rfl
  have hkey : Function.Injective fun k => (narrowKey keyFrom desc k).toNat := narrowKey_toNat_injective hinj
  rw [hsnd, map_snd_inj_of_sorted hkey hsort.perm (hsort.sorted.imp fun hle => hmono _ _ hle) hwide.perm hwide.sorted]
  have hunique : b = c ↔ StableSort (fun p => (narrowKey keyFrom desc p.1).toNat) (keys.zip indices) b :=
    ⟨fun heq => heq ▸ hwide, fun hb' => hb'.unique hwide⟩
  have hties : ∀ p q : κ × UInt32, ((narrowKey keyFrom desc p.1).toNat = (narrowKey keyFrom desc q.1).toNat →
      packedKey keyFrom desc p ≤ packedKey keyFrom desc q) ↔ (p.1 = q.1 → p.2 ≤ q.2) := by
    intro p q
    rw [hkey.eq_iff, packedKey_le_iff, UInt32.le_iff_toNat_le]
    refine imp_congr_right fun heq => ?_
    rw [heq]
    simp only [lt_irrefl, true_and, false_or]
  rw [hunique, hsort.coarsen_iff hmono, TiesAscend]
  exact ⟨List.Pairwise.imp fun hpq => (hties _ _).mp hpq, List.Pairwise.imp fun hpq => (hties _ _).mpr hpq⟩

end

section
variable {ρ : Type} (flt : Floats) (resistance : Int → Int → ρ) (gt : ρ → ρ → Bool) (env : EntryEnv UInt64)
  (resistance' : Nat → Nat → ρ) (gt' : ρ → ρ → Bool) (mem : PackMem) (fill : Nat → Slot) (desc : Bool)

theorem packSortU32_widen {keys : List UInt32} {indices : List UInt32} (h : keys.length = indices.length) :
    ∃ out out', sublimationPackSortU32 flt resistance gt env true keys indices desc = some out ∧
      sublimationPackSortU64 flt resistance' gt' mem (some fill) (keys.map UInt32.toUInt64) indices desc = some out' ∧
      (out = out' ↔ TiesAscend keys indices) := by
  refine packSort_widen flt resistance gt env resistance' gt' mem fill Function.injective_id (fun x y => ?_) h
  rw [subKeyFromU64, subKeyFromU64, UInt32.toNat_toUInt64, UInt32.toNat_toUInt64]
  rfl

theorem packSortI32_widen {keys : List Int32} {indices : List UInt32} (h : keys.length = indices.length) :
    ∃ out out', sublimationPackSortI32 flt resistance gt env true keys indices desc = some out ∧
      sublimationPackSortI64 flt resistance' gt' mem (some fill) (keys.map Int32.toInt64) indices desc = some out' ∧
      (out = out' ↔ TiesAscend keys indices) := by
  refine packSort_widen flt resistance gt env resistance' gt' mem fill (fun x y hxy => ?_) (fun x y => ?_) h
  · rw [← unkey32_key32 x, ← unkey32_key32 y]
    exact congrArg unkey32 hxy
  · have hx := key32_toNat x
    have hy := key32_toNat y
    have hx' := key64_toNat x.toInt64
    have hy' := key64_toNat y.toInt64
    rw [Int32.toInt_toInt64] at hx' hy'
    show (key64 x.toInt64).toNat ≤ (key64 y.toInt64).toNat ↔ (key32 x).toNat ≤ (key32 y).toNat
    omega

/-- The index sort of 32-bit keys and that of the same keys widened leave the
same indices, exactly if the indices of equal keys ascend in the array they
start from. -/
theorem packSort_widened_iff :
    (∀ (keys indices : List UInt32), keys.length = indices.length → ∃ out out',
      sublimationPackSortU32 flt resistance gt env true keys indices desc = some out ∧
      sublimationPackSortU64 flt resistance' gt' mem (some fill) (keys.map UInt32.toUInt64) indices desc = some out' ∧
      (out = out' ↔ TiesAscend keys indices)) ∧
    (∀ (keys : List Int32) (indices : List UInt32), keys.length = indices.length → ∃ out out',
      sublimationPackSortI32 flt resistance gt env true keys indices desc = some out ∧
      sublimationPackSortI64 flt resistance' gt' mem (some fill) (keys.map Int32.toInt64) indices desc = some out' ∧
      (out = out' ↔ TiesAscend keys indices)) :=
  ⟨fun _ _ h => packSortU32_widen flt resistance gt env resistance' gt' mem fill desc h,
    fun _ _ h => packSortI32_widen flt resistance gt env resistance' gt' mem fill desc h⟩

end

def ampleSort : SortMem (RadixMem UInt64) where
  first := ⟨true, some fun _ => 0⟩
  second := ⟨true, some fun _ => 0⟩
  merge := ⟨true, fun _ => true⟩

def ampleEnv : EntryEnv UInt64 where
  fast := ampleSort
  fork := ⟨fun _ => ampleSort, true, ampleSort⟩
  sched := ⟨true, 1, fun _ => 0⟩
  defaultWorkers := 1

/-- Two equal keys with ascending indices, and one in front of them. -/
theorem packSort_widened_three :
    (∃ out out',
      sublimationPackSortU32 noFloats (fun _ _ => ()) (fun _ _ => false) ampleEnv true [5, 5, 1] [4, 7, 2] false
          = some out ∧
        sublimationPackSortU64 noFloats (fun _ _ => ()) (fun _ _ => false) ⟨true, fun _ => true⟩
          (some fun _ => ⟨0, 0⟩) ([5, 5, 1].map UInt32.toUInt64) [4, 7, 2] false = some out' ∧
        (out = out' ↔ TiesAscend ([5, 5, 1] : List UInt32) [4, 7, 2])) ∧
    (∃ out out',
      sublimationPackSortI32 noFloats (fun _ _ => ()) (fun _ _ => false) ampleEnv true [-5, -5, 1] [4, 7, 2] false
          = some out ∧
        sublimationPackSortI64 noFloats (fun _ _ => ()) (fun _ _ => false) ⟨true, fun _ => true⟩
          (some fun _ => ⟨0, 0⟩) ([-5, -5, 1].map Int32.toInt64) [4, 7, 2] false = some out' ∧
        (out = out' ↔ TiesAscend ([-5, -5, 1] : List Int32) [4, 7, 2])) := by
  obtain ⟨hunsigned, hsigned⟩ := packSort_widened_iff noFloats (fun _ _ => ()) (fun _ _ => false) ampleEnv
    (fun _ _ => ()) (fun _ _ => false) ⟨true, fun _ => true⟩ (fun _ => ⟨0, 0⟩) false
  exact ⟨hunsigned [5, 5, 1] [4, 7, 2] rfl, hsigned [-5, -5, 1] [4, 7, 2] rfl⟩

/-- Equal keys whose indices descend are exchanged by one sort and left by the
other. -/
theorem not_packSort_widened : ¬ ∀ (flt : Floats) (resistance : Int → Int → Unit) (gt : Unit → Unit → Bool)
    (env : EntryEnv UInt64) (resistance' : Nat → Nat → Unit) (mem : PackMem) (fill : Nat → Slot)
    (keys indices : List UInt32) (desc : Bool), keys.length = indices.length →
    sublimationPackSortU32 flt resistance gt env true keys indices desc
      = sublimationPackSortU64 flt resistance' gt mem (some fill) (keys.map UInt32.toUInt64) indices desc := by
  intro h
  have hsame := h noFloats (fun _ _ => ()) (fun _ _ => false) ampleEnv (fun _ _ => ()) ⟨true, fun _ => true⟩
    (fun _ => ⟨0, 0⟩) [5, 5] [1, 0] false rfl
  obtain ⟨out, out', hout, hout', hiff⟩ := @packSortU32_widen Unit noFloats (fun _ _ => ()) (fun _ _ => false)
    ampleEnv (fun _ _ => ()) (fun _ _ => false) ⟨true, fun _ => true⟩ (fun _ => ⟨0, 0⟩) false [5, 5] [1, 0] rfl
  rw [hout, hout', Option.some_inj, hiff] at hsame
  have hties : (1 : UInt32) ≤ 0 := (List.pairwise_cons.mp hsame).1 (5, 0) List.mem_cons_self rfl
  exact absurd hties (by decide)

end Montauk.Sort
