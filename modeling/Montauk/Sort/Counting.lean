import Mathlib.Data.List.Nodup
import Montauk.Machine.Probing
import Montauk.Sort.Gallop
import Montauk.Sort.Words

/-!
# Counting sort for few values

`counting_sort_few_unique` collects the distinct values of an array in order,
counts how often each occurs and writes the array anew. It gives up, and leaves
the array alone, at the 65th distinct value, and behind 64 equal elements
(`countingSortFewUnique_spec`).

With more than eight values the bucket of an element comes from a hash table.
Its lookup does not ask whether a slot is occupied: it goes on to the first slot
whose key has the same bits, and the key of a free slot is all zeros. A lookup
of a value that is in the table ends at its entry all the same, since no slot in
front of the entry is free (`findBucketHash_spec`).
-/

namespace Montauk.Sort

open Montauk.Probing

/-- What the templates use of a type besides its order: the bits. -/
class SubWord (α : Type) extends SubInt α where
  bits : α → UInt64
  bits_injective : Function.Injective bits

instance : SubWord UInt64 where
  bits v := v
  bits_injective _ _ h := h

instance : SubWord Int64 where
  bits := Int64.toUInt64
  bits_injective _ _ h := congrArg Int64.ofUInt64 h

instance : SubWord UInt32 where
  bits := UInt32.toUInt64
  bits_injective _ _ h := UInt32.toUInt64_inj.mp h

instance : SubWord Int32 where
  bits v := v.toUInt32.toUInt64
  bits_injective _ _ h := congrArg Int32.ofUInt32 (UInt32.toUInt64_inj.mp h)

def countingSortMaxK : Nat := 64

def countingSortProbe : Nat := 64

def countingSortHashSize : Nat := 128

variable {α : Type}

/-! ## Counting -/

/-- `histogram[find_bucket(arr[i])]++` for every element. -/
def bucketCounts (find : α → Option Nat) : List α → List Nat → Option (List Nat)
  | [], count => some count
  | x :: xs, count => do
      let bucket ← find x
      let c ← load count bucket
      let count ← store count bucket (c + 1)
      bucketCounts find xs count

/-- Each value as often as it was counted, from place `write` on. -/
def writeCounts : List (α × Nat) → Nat → List α → Option (List α)
  | [], _, arr => some arr
  | (val, count) :: rest, write, arr => do
      let arr ← storeN arr write (List.replicate count val)
      writeCounts rest (write + count) arr

theorem bucketCounts_eq_histogram {find : α → Option Nat} {digit : α → Nat} (arr : List α)
    (h : ∀ x ∈ arr, find x = some (digit x)) (count : List Nat) :
    bucketCounts find arr count = histogram digit arr count := by
  induction arr generalizing count with
  | nil => rfl
  | cons x xs ih =>
      rw [bucketCounts, histogram, h x List.mem_cons_self, Option.bind_eq_bind, Option.bind_some]
      cases hc : load count (digit x) with
      | none => rfl
      | some c =>
          cases hs : store count (digit x) (c + 1) with
          | none => simp only [Option.bind_eq_bind, Option.bind_some, hs, Option.bind_none]
          | some count' =>
              simp only [Option.bind_eq_bind, Option.bind_some, hs]
              exact ih (fun y hy => h y (List.mem_cons_of_mem x hy)) count'

/-- What is written is the values, each as often as it was counted. -/
theorem writeCounts_spec (ps : List (α × Nat)) (done rest : List α)
    (h : (ps.map Prod.snd).sum = rest.length) :
    writeCounts ps done.length (done ++ rest)
      = some (done ++ ps.flatMap fun p => List.replicate p.2 p.1) := by
  induction ps generalizing done rest with
  | nil =>
      rw [List.map_nil, List.sum_nil] at h
      rw [List.eq_nil_of_length_eq_zero h.symm]
      rfl
  | cons p ps ih =>
      rw [List.map_cons, List.sum_cons] at h
      have hlen : (List.replicate p.2 p.1).length = p.2 := List.length_replicate
      rw [writeCounts, storeN_append_drop rfl (by rw [hlen]; omega), Option.bind_eq_bind, Option.bind_some,
        hlen]
      have hplace : done.length + p.2 = (done ++ List.replicate p.2 p.1).length := by
        rw [List.length_append, hlen]
      rw [hplace, ih _ _ (by rw [List.length_drop]; omega), List.flatMap_cons, List.append_assoc]

theorem insertIdx_length (xs ys : List α) (val : α) :
    (xs ++ ys).insertIdx xs.length val = xs ++ val :: ys := by
  induction xs with
  | nil => rfl
  | cons x xs ih => rw [List.cons_append, List.length_cons, List.insertIdx_succ_cons, ih, List.cons_append]

theorem eq_of_length_le_one {xs : List α} {x y : α} (h : xs.length ≤ 1) (hx : x ∈ xs) (hy : y ∈ xs) :
    x = y := by
  match xs, h with
  | [z], _ => rw [List.mem_singleton.mp hx, List.mem_singleton.mp hy]

variable [SubWord α]

def keyEq (a b : α) : Bool := SubWord.bits a == SubWord.bits b

/-! ## The sort -/

/-- The discovery, from element `i` on: the distinct values in order, or
nothing when the sort gives up. -/
def discover : Nat → List α → List α → Option (Option (List α))
  | _, [], uniq => some (some uniq)
  | i, val :: rest, uniq =>
      if i = countingSortProbe ∧ uniq.length = 1 then some none
      else do
        let lo ← gallopBisect (fun u => SubInt.value u < SubInt.value val) uniq (uniq.length + 1) 0
          uniq.length
        if (uniq[lo]?).any fun u => keyEq u val then discover (i + 1) rest uniq
        else if countingSortMaxK ≤ uniq.length then some none
        else discover (i + 1) rest (uniq.insertIdx lo val)

def findBucketSmall (uniq : List α) (val : α) : Nat :=
  uniq.countP fun u => SubInt.value u < SubInt.value val

/-- `hash_val`, of the bits. -/
def hashVal (b : UInt64) : UInt64 := (b * 0x9E3779B97F4A7C15) >>> 57

/-- `build_hash`. An entry is a value with its bucket. -/
def buildHash (uniq : List α) : Option (List (Option (α × Nat))) :=
  moveAll hashVal (fun e => SubWord.bits e.1) (uniq.zipIdx.map some)
    (List.replicate countingSortHashSize none)

/-- The bits of the key of a slot; those of a free slot are zero. -/
def slotBits : Option (α × Nat) → UInt64
  | none => 0
  | some e => SubWord.bits e.1

def findBucketHash (table : List (Option (α × Nat))) (val : α) : Option Nat := do
  let h ← probe (fun s => slotBits s == SubWord.bits val) table table.length
    (home hashVal table.length (SubWord.bits val))
  let s ← table[h]?
  some (s.elim 0 Prod.snd)

/-- `counting_sort_few_unique`: whether the array is done, and the array. -/
def countingSortFewUnique (arr : List α) : Option (Bool × List α) := do
  let found ← discover 0 arr []
  match found with
  | none => some (false, arr)
  | some uniq =>
      if uniq.length ≤ 1 then some (true, arr)
      else do
        let histogram ← (if uniq.length ≤ 8 then
            bucketCounts (fun val => some (findBucketSmall uniq val)) arr (List.replicate uniq.length 0)
          else do
            let table ← buildHash uniq
            bucketCounts (findBucketHash table) arr (List.replicate uniq.length 0))
        let arr ← writeCounts (uniq.zip histogram) 0 arr
        some (true, arr)

/-! ## The discovery -/

def Distinct (uniq : List α) : Prop := uniq.Pairwise fun u v => SubInt.value u < SubInt.value v

variable {uniq arr xs ys : List α} {val : α}

theorem keyEq_iff {a b : α} : keyEq a b = true ↔ a = b := by
  rw [keyEq, beq_iff_eq]
  exact SubWord.bits_injective.eq_iff

theorem Distinct.split (h : Distinct uniq) (val : α) :
    ∃ xs ys, uniq = xs ++ ys ∧ (∀ x ∈ xs, SubInt.value x < SubInt.value val) ∧
      ∀ y ∈ ys, SubInt.value val ≤ SubInt.value y :=
  Ascending.split_lt (h.imp fun hxy => Int.le_of_lt hxy) (SubInt.value val)

theorem any_place (h : Distinct (xs ++ ys)) (hys : ∀ y ∈ ys, SubInt.value val ≤ SubInt.value y)
    (hxs : ∀ x ∈ xs, SubInt.value x < SubInt.value val) :
    (((xs ++ ys)[xs.length]?).any fun u => keyEq u val) = true ↔ val ∈ xs ++ ys := by
  have hnot : val ∉ xs := fun hmem => absurd (hxs val hmem) (Int.lt_irrefl _)
  rw [List.getElem?_append_right (Nat.le_refl _), Nat.sub_self, List.mem_append, or_iff_right hnot]
  cases ys with
  | nil => exact iff_of_false Bool.false_ne_true List.not_mem_nil
  | cons y ys =>
      rw [List.getElem?_cons_zero, Option.any_some, keyEq_iff, List.mem_cons]
      refine ⟨fun heq => Or.inl heq.symm, fun hmem => ?_⟩
      rcases hmem with rfl | hmem
      · rfl
      · -- a value behind the first one is larger than it
        have hlt := (List.pairwise_cons.mp (List.pairwise_append.mp h).2.1).1 val hmem
        exact absurd (hys y List.mem_cons_self) (Int.not_le.mpr hlt)

theorem Distinct.insert (h : Distinct (xs ++ ys)) (hxs : ∀ x ∈ xs, SubInt.value x < SubInt.value val)
    (hys : ∀ y ∈ ys, SubInt.value val < SubInt.value y) : Distinct (xs ++ val :: ys) := by
  obtain ⟨hx, hy, hxy⟩ := List.pairwise_append.mp h
  refine List.pairwise_append.mpr ⟨hx, List.pairwise_cons.mpr ⟨hys, hy⟩, fun a ha b hb => ?_⟩
  rcases List.mem_cons.mp hb with rfl | hb
  · exact hxs a ha
  · exact hxy a ha b hb

/-- The discovery ends, and has every element when it does not give up. -/
theorem discover_spec (i : Nat) (arr : List α) {uniq : List α} (h : Distinct uniq)
    (hk : uniq.length ≤ countingSortMaxK) :
    ∃ found, discover i arr uniq = some found ∧ ∀ uniq', found = some uniq' →
      Distinct uniq' ∧ uniq'.length ≤ countingSortMaxK ∧ ∀ x, x ∈ uniq ∨ x ∈ arr → x ∈ uniq' := by
  induction arr generalizing i uniq with
  | nil =>
      refine ⟨some uniq, rfl, fun uniq' heq => ?_⟩
      obtain rfl := Option.some.inj heq
      exact ⟨h, hk, fun x hx => hx.resolve_right List.not_mem_nil⟩
  | cons val rest ih =>
      rw [discover]
      by_cases hprobe : i = countingSortProbe ∧ uniq.length = 1
      · rw [if_pos hprobe]
        exact ⟨none, rfl, nofun⟩
      · rw [if_neg hprobe]
        obtain ⟨xs, ys, rfl, hxs, hys⟩ := h.split val
        have hcut : Cut (fun u => decide (SubInt.value u < SubInt.value val)) xs ys :=
          ⟨fun x hx => decide_eq_true (hxs x hx), fun y hy => decide_eq_false (Int.not_lt.mpr (hys y hy))⟩
        rw [gallopBisect_spec hcut (by omega) (Nat.zero_le _)
          (by rw [List.length_append]; omega) (Nat.le_refl _), Option.bind_eq_bind, Option.bind_some]
        by_cases hmem : val ∈ xs ++ ys
        · rw [if_pos ((any_place h hys hxs).mpr hmem)]
          obtain ⟨found, hrun, hall⟩ := ih (i + 1) h hk
          refine ⟨found, hrun, fun uniq' heq => ?_⟩
          obtain ⟨hd, hk', hin⟩ := hall uniq' heq
          refine ⟨hd, hk', fun x hx => hin x ?_⟩
          rw [List.mem_cons, or_left_comm] at hx
          rcases hx with rfl | hx
          · exact Or.inl hmem
          · exact hx
        · rw [if_neg fun hany => hmem ((any_place h hys hxs).mp hany)]
          by_cases hfull : countingSortMaxK ≤ (xs ++ ys).length
          · rw [if_pos hfull]
            exact ⟨none, rfl, nofun⟩
          · have hlt : ∀ y ∈ ys, SubInt.value val < SubInt.value y := by
              intro y hy
              refine lt_of_le_of_ne (hys y hy) fun heq => hmem ?_
              rw [SubInt.value_injective heq]
              exact List.mem_append_right xs hy
            rw [if_neg hfull, insertIdx_length]
            obtain ⟨found, hrun, hall⟩ := ih (i + 1) (h.insert hxs hlt) (by
              rw [List.length_append] at hfull
              rw [List.length_append, List.length_cons]
              omega)
            refine ⟨found, hrun, fun uniq' heq => ?_⟩
            obtain ⟨hd, hk', hin⟩ := hall uniq' heq
            refine ⟨hd, hk', fun x hx => hin x ?_⟩
            rw [List.mem_append, List.mem_cons]
            rw [List.mem_append, List.mem_cons] at hx
            tauto

/-! ## The buckets -/

theorem Distinct.countP_eq (h : Distinct (xs ++ val :: ys)) :
    findBucketSmall (xs ++ val :: ys) val = xs.length := by
  obtain ⟨-, hval, hcross⟩ := List.pairwise_append.mp h
  have hxs : xs.countP (fun u => decide (SubInt.value u < SubInt.value val)) = xs.length :=
    List.countP_eq_length.mpr fun x hx => decide_eq_true (hcross x hx val List.mem_cons_self)
  have hys : ys.countP (fun u => decide (SubInt.value u < SubInt.value val)) = 0 :=
    List.countP_eq_zero.mpr fun y hy => by
      rw [decide_eq_true_eq]
      exact Int.not_lt.mpr (Int.le_of_lt ((List.pairwise_cons.mp hval).1 y hy))
  rw [findBucketSmall, List.countP_append, hxs, List.countP_cons_of_neg, hys, Nat.add_zero]
  rw [decide_eq_true_eq]
  exact Int.lt_irrefl _

theorem Distinct.nodup (h : Distinct uniq) : uniq.Nodup :=
  h.imp fun hlt heq => absurd hlt (by rw [heq]; exact Int.lt_irrefl _)

theorem buildHash_spec (h : Distinct uniq) (hk : uniq.length ≤ countingSortMaxK) :
    ∃ table : List (Option (α × Nat)), buildHash uniq = some table ∧
      Placed hashVal (fun e => SubWord.bits e.1) table ∧ (entries table).Perm uniq.zipIdx := by
  have hempty : Placed hashVal (fun e : α × Nat => SubWord.bits e.1)
      (List.replicate countingSortHashSize none) := placed_empty (m := 7) rfl
  have hold : entries (uniq.zipIdx.map some) = uniq.zipIdx := by
    rw [entries, List.filterMap_map]
    exact List.filterMap_some
  have hnodup : (uniq.zipIdx.map fun e => SubWord.bits e.1).Nodup := by
    have hbits : (uniq.zipIdx.map fun e => SubWord.bits e.1) = uniq.map SubWord.bits := by
      have hcomp : (fun e : α × Nat => SubWord.bits e.1) = SubWord.bits ∘ Prod.fst := rfl
      rw [hcomp, ← List.map_map, List.zipIdx_map_fst]
    rw [hbits]
    exact h.nodup.map SubWord.bits_injective
  obtain ⟨table, hrun, hplaced, -, hperm⟩ := moveAll_spec (uniq.zipIdx.map some) hempty
    (by rwa [hold, entries_replicate, List.append_nil])
    (by
      rw [hold, entries_replicate, List.length_zipIdx, List.length_replicate, List.length_nil,
        countingSortHashSize]
      rw [countingSortMaxK] at hk
      omega)
  rw [hold, entries_replicate, List.append_nil] at hperm
  exact ⟨table, hrun, hplaced, hperm⟩

theorem findBucketHash_spec {table : List (Option (α × Nat))} {d : Nat}
    (h : Placed hashVal (fun e => SubWord.bits e.1) table) (hmem : (val, d) ∈ entries table) :
    findBucketHash table val = some d := by
  obtain ⟨p, hp⟩ := mem_entries.mp hmem
  obtain ⟨m, hm⟩ := h.size
  obtain ⟨t, ht, hat, hway⟩ := h.reach p (val, d) hp
  have hprobe : probe (fun s => slotBits s == SubWord.bits val) table table.length
      (home hashVal table.length (SubWord.bits val)) = some p := by
    rw [← hat]
    refine probe_eq hm (home_lt hashVal _ hm) (s := some (val, d)) (by rw [hat, hp])
      (beq_self_eq_true _) ?_ ht
    intro t' ht' s' hs'
    cases s' with
    | none => exact absurd hs' (hway t' ht')
    | some e =>
        rw [beq_eq_false_iff_ne]
        intro hbits
        have hsame := h.unique _ p e (val, d) hs' hp hbits
        rw [← hat] at hsame
        exact absurd (at_inj (by omega) ht hsame) (by omega)
  rw [findBucketHash, hprobe, Option.bind_eq_bind, Option.bind_some, hp]
  rfl

/-! ## What is written -/

theorem ofKey_flatMap (h : Distinct uniq) (arr : List α) (k : Int) :
    ofKey SubInt.value k (uniq.flatMap fun u => ofKey SubInt.value (SubInt.value u) arr)
      = if k ∈ uniq.map SubInt.value then ofKey SubInt.value k arr else [] := by
  induction uniq with
  | nil => rfl
  | cons u uniq ih =>
      obtain ⟨hu, huniq⟩ := List.pairwise_cons.mp h
      have hself : ∀ j, ofKey SubInt.value k (ofKey SubInt.value j arr)
          = if k = j then ofKey SubInt.value k arr else [] := by
        intro j
        by_cases hj : k = j
        · subst hj
          rw [if_pos rfl]
          exact List.filter_eq_self.mpr fun x hx => (List.mem_filter.mp hx).2
        · rw [if_neg hj]
          refine ofKey_eq_nil fun x hx hxk => hj ?_
          rw [← hxk, of_decide_eq_true (List.mem_filter.mp hx).2]
      rw [List.flatMap_cons, ofKey_append, hself, ih huniq, List.map_cons]
      by_cases hk : k = SubInt.value u
      · have hnot : k ∉ uniq.map SubInt.value := by
          intro hmem
          obtain ⟨v, hv, hvk⟩ := List.mem_map.mp hmem
          have hlt := hu v hv
          omega
        rw [if_pos hk, if_neg hnot, List.append_nil, if_pos (List.mem_cons.mpr (Or.inl hk))]
      · rw [if_neg hk, List.nil_append]
        simp only [List.mem_cons, hk, false_or]

theorem stableSort_flatMap (h : Distinct uniq) (hall : ∀ x ∈ arr, x ∈ uniq) :
    StableSort SubInt.value arr (uniq.flatMap fun u => ofKey SubInt.value (SubInt.value u) arr) := by
  have hof : ∀ {j : Int} {x : α}, x ∈ ofKey SubInt.value j arr → SubInt.value x = j := fun hx =>
    of_decide_eq_true (List.mem_filter.mp hx).2
  constructor
  · rw [Ascending, List.pairwise_flatMap]
    refine ⟨fun u _ => ?_, h.imp fun hlt x hx y hy => ?_⟩
    · refine List.Pairwise.imp_of_mem (fun hx hy _ => ?_) (List.pairwise_of_forall fun _ _ => trivial)
      rw [hof hx, hof hy]
    · rw [hof hx, hof hy]
      exact Int.le_of_lt hlt
  · intro k
    rw [ofKey_flatMap h]
    by_cases hk : k ∈ uniq.map SubInt.value
    · rw [if_pos hk]
    · rw [if_neg hk]
      refine (ofKey_eq_nil fun x hx hxk => hk ?_).symm
      exact List.mem_map.mpr ⟨x, hall x hx, hxk⟩

theorem Distinct.bucket_eq (h : Distinct (xs ++ val :: ys)) (hall : ∀ x ∈ arr, x ∈ xs ++ val :: ys) :
    bucket (findBucketSmall (xs ++ val :: ys)) arr xs.length = ofKey SubInt.value (SubInt.value val) arr := by
  refine List.filter_congr fun x hx => decide_eq_decide.mpr ?_
  have hplace : ∀ xs' ys', xs ++ val :: ys = xs' ++ x :: ys' → xs'.length = xs.length → x = val := by
    intro xs' ys' heq hlen
    exact (List.cons.inj (List.append_inj heq hlen.symm).2).1.symm
  obtain ⟨xs', ys', heq⟩ := List.append_of_mem (hall x hx)
  have hcount : findBucketSmall (xs ++ val :: ys) x = xs'.length := by
    have h' := h
    rw [heq] at h' ⊢
    exact h'.countP_eq
  rw [hcount]
  constructor
  · intro hlen
    rw [hplace xs' ys' heq hlen]
  · intro hval
    obtain rfl := SubInt.value_injective hval
    rw [← hcount]
    exact h.countP_eq

theorem Distinct.bucket_lt (h : Distinct uniq) (hval : val ∈ uniq) :
    findBucketSmall uniq val < uniq.length := by
  obtain ⟨xs, ys, rfl⟩ := List.append_of_mem hval
  rw [h.countP_eq, List.length_append, List.length_cons]
  omega

theorem Distinct.zip_counts (h : Distinct uniq) (hall : ∀ x ∈ arr, x ∈ uniq) :
    uniq.zip ((List.range uniq.length).map fun d => (bucket (findBucketSmall uniq) arr d).length)
      = uniq.map fun u => (u, (ofKey SubInt.value (SubInt.value u) arr).length) := by
  refine List.ext_getElem (by simp) fun d hd _ => ?_
  rw [List.getElem_zip, List.getElem_map, List.getElem_map, List.getElem_range]
  rw [List.length_zip, List.length_map, List.length_range, Nat.min_self] at hd
  have hsplit : uniq = uniq.take d ++ uniq[d] :: uniq.drop (d + 1) := by
    rw [← List.drop_eq_getElem_cons hd, List.take_append_drop]
  have hlen : (uniq.take d).length = d := by
    rw [List.length_take]
    omega
  generalize uniq[d] = u at hsplit
  rw [Prod.mk.injEq, and_iff_right rfl, hsplit]
  rw [hsplit] at h hall
  have hbucket := h.bucket_eq hall
  rw [hlen] at hbucket
  rw [hbucket]

theorem replicate_ofKey (u : α) (arr : List α) :
    List.replicate (ofKey SubInt.value (SubInt.value u) arr).length u
      = ofKey SubInt.value (SubInt.value u) arr := by
  symm
  rw [List.eq_replicate_iff]
  exact ⟨rfl, fun x hx => SubInt.value_injective (of_decide_eq_true (List.mem_filter.mp hx).2)⟩

theorem writeCounts_sorts (h : Distinct uniq) (hall : ∀ x ∈ arr, x ∈ uniq) :
    ∃ out, writeCounts (uniq.zip ((List.range uniq.length).map fun d =>
        (bucket (findBucketSmall uniq) arr d).length)) 0 arr = some out ∧
      StableSort SubInt.value arr out := by
  have hsort := stableSort_flatMap h hall
  have hflat : (uniq.map fun u => (u, (ofKey SubInt.value (SubInt.value u) arr).length)).flatMap
      (fun p => List.replicate p.2 p.1)
      = uniq.flatMap fun u => ofKey SubInt.value (SubInt.value u) arr := by
    rw [List.flatMap_map]
    exact List.flatMap_congr fun u _ => replicate_ofKey u arr
  refine ⟨_, ?_, hsort⟩
  rw [h.zip_counts hall]
  have hrun := writeCounts_spec (uniq.map fun u => (u, (ofKey SubInt.value (SubInt.value u) arr).length))
    [] arr (by rw [← hsort.length_eq, List.length_flatMap, List.map_map]; rfl)
  rwa [hflat] at hrun

theorem buildHash_find (h : Distinct uniq) (hk : uniq.length ≤ countingSortMaxK) :
    ∃ table, buildHash uniq = some table ∧
      ∀ x ∈ uniq, findBucketHash table x = some (findBucketSmall uniq x) := by
  obtain ⟨table, hrun, hplaced, hperm⟩ := buildHash_spec h hk
  refine ⟨table, hrun, fun x hx => findBucketHash_spec hplaced ?_⟩
  obtain ⟨xs, ys, rfl⟩ := List.append_of_mem hx
  rw [hperm.mem_iff, h.countP_eq, List.mem_zipIdx_iff_getElem?,
    List.getElem?_append_right (Nat.le_refl _), Nat.sub_self, List.getElem?_cons_zero]

/-- **The counting sort** sorts the array or leaves it alone. -/
theorem countingSortFewUnique_spec (arr : List α) :
    ∃ done out, countingSortFewUnique arr = some (done, out) ∧
      (done = true → StableSort SubInt.value arr out) ∧ (done = false → out = arr) := by
  obtain ⟨found, hfound, hall⟩ := @discover_spec α _ 0 arr [] List.Pairwise.nil (Nat.zero_le _)
  rw [countingSortFewUnique, hfound, Option.bind_eq_bind, Option.bind_some]
  cases found with
  | none => exact ⟨false, arr, rfl, nofun, fun _ => rfl⟩
  | some uniq =>
      obtain ⟨hd, hk, hmem⟩ := hall uniq rfl
      have hin : ∀ x ∈ arr, x ∈ uniq := fun x hx => hmem x (Or.inr hx)
      dsimp only
      by_cases hone : uniq.length ≤ 1
      · rw [if_pos hone]
        refine ⟨true, arr, rfl, fun _ => .refl ?_, nofun⟩
        -- all elements are the same
        refine List.Pairwise.imp_of_mem (fun hx hy _ => ?_) (List.pairwise_of_forall fun _ _ => trivial)
        rw [eq_of_length_le_one hone (hin _ hx) (hin _ hy)]
      · rw [if_neg hone]
        obtain ⟨out, hwrite, hsort⟩ := writeCounts_sorts hd hin
        have hhist := histogram_spec arr fun x hx => hd.bucket_lt (hin x hx)
        have hcounts : ∀ find : α → Option Nat, (∀ x ∈ arr, find x = some (findBucketSmall uniq x)) →
            bucketCounts find arr (List.replicate uniq.length 0)
              = some ((List.range uniq.length).map fun d => (bucket (findBucketSmall uniq) arr d).length) :=
          fun find hfind => (bucketCounts_eq_histogram arr hfind _).trans hhist
        refine ⟨true, out, ?_, fun _ => hsort, nofun⟩
        by_cases hsmall : uniq.length ≤ 8
        · rw [if_pos hsmall, hcounts _ fun _ _ => rfl, Option.bind_eq_bind, Option.bind_some, hwrite]
          rfl
        · obtain ⟨table, htable, hfind⟩ := buildHash_find hd hk
          simp only [if_neg hsmall, htable, Option.bind_eq_bind, Option.bind_some,
            hcounts _ fun x hx => hfind x (hin x hx), hwrite]

end Montauk.Sort
