import Montauk.Machine.Enumerate
import Montauk.Sort.Gather
import Montauk.Sort.Predecessors

/-!
# Natural version order

`natural_version_less` compares versions by runs of digits, as numbers, and by
single characters elsewhere; a version that goes on into a pre-release stands
before the one it extends. It is irreflexive and asymmetric on all strings
(`naturalVersionLess_asymm`), and not transitive on some.

`natural_version_sort` counts the predecessors of every string and sorts the
positions by the counts. Where the comparator is a strict weak order on the
list this is the stable sort, once the index sort has its scratch
(`naturalVersionSort_stable`); without it the list stays as it is.
-/

namespace Montauk.Tools

open Montauk.Enumerate Montauk.Sort

/-! ## The comparator -/

def isD (c : UInt8) : Bool := 0x30 ≤ c && c ≤ 0x39

def prereleaseStart (c : UInt8) : Bool :=
  c = 0x2d || c = 0x7e || (0x61 ≤ c && c ≤ 0x7a) || (0x41 ≤ c && c ≤ 0x5a)

/-- `<` of two `char`s, which are signed. -/
def charLess (c d : UInt8) : Bool := c.toInt8 < d.toInt8

/-- One leading `v` or `V` is skipped if something follows it. -/
def skipV : List UInt8 → List UInt8
  | c :: d :: s => if c = 0x76 || c = 0x56 then d :: s else c :: d :: s
  | s => s

/-- A run of digits without its leading zeros; one digit stays. -/
def skipZeros : List UInt8 → List UInt8
  | c :: d :: s => if c = 0x30 then skipZeros (d :: s) else c :: d :: s
  | s => s

/-- Two runs of digits, as numbers: whether the first is smaller, or nothing
when they are equal. -/
def compareRuns (s t : List UInt8) : Option Bool :=
  let m := skipZeros s
  let n := skipZeros t
  if m.length ≠ n.length then some (m.length < n.length)
  else if m ≠ n then some (m < n)
  else none

/-- The loop, from where both versions have come to. -/
def lessLoop : Nat → List UInt8 → List UInt8 → Bool
  | 0, _, _ => false
  | _ + 1, [], [] => false
  | _ + 1, [], d :: _ => !prereleaseStart d
  | _ + 1, c :: _, [] => prereleaseStart c
  | n + 1, c :: s, d :: t =>
      if isD c && isD d then
        match compareRuns ((c :: s).takeWhile isD) ((d :: t).takeWhile isD) with
        | some r => r
        | none => lessLoop n ((c :: s).dropWhile isD) ((d :: t).dropWhile isD)
      else if isD c ≠ isD d then isD c
      else if c ≠ d then charLess c d
      else lessLoop n s t

def naturalVersionLess (a b : List UInt8) : Bool :=
  lessLoop (a.length + b.length + 1) (skipV a) (skipV b)

/-! ## Enough turns -/

theorem length_dropWhile_lt {p : UInt8 → Bool} {c : UInt8} (hc : p c = true) (s : List UInt8) :
    ((c :: s).dropWhile p).length < (c :: s).length := by
  rw [List.dropWhile_cons_of_pos hc, List.length_cons]
  exact Nat.lt_succ_of_le (List.dropWhile_sublist p).length_le

theorem lessLoop_fuel {n : Nat} {s t : List UInt8} (h : s.length + t.length < n) :
    lessLoop (n + 1) s t = lessLoop n s t := by
  induction n generalizing s t with
  | zero => exact absurd h (Nat.not_lt_zero _)
  | succ n ih =>
      cases s with
      | nil => cases t <;> rfl
      | cons c s =>
          cases t with
          | nil => rfl
          | cons d t =>
              rw [lessLoop, lessLoop]
              rw [List.length_cons, List.length_cons] at h
              by_cases hdigits : (isD c && isD d) = true
              · obtain ⟨hc, hd⟩ := Bool.and_eq_true_iff.mp hdigits
                have hs := length_dropWhile_lt hc s
                have ht := length_dropWhile_lt hd t
                rw [List.length_cons] at hs ht
                rw [if_pos hdigits, if_pos hdigits, ih (by omega)]
              · rw [if_neg hdigits, if_neg hdigits, ih (by omega)]

/-! ## Irreflexive and asymmetric -/

theorem compareRuns_eq_none {s t : List UInt8} (h : compareRuns s t = none) : compareRuns t s = none := by
  rw [compareRuns] at h ⊢
  split at h
  · exact absurd h nofun
  · split at h
    · exact absurd h nofun
    · rename_i hsame
      rw [not_not.mp hsame]
      simp

theorem compareRuns_asymm {s t : List UInt8} (h : compareRuns s t = some true) : compareRuns t s = some false := by
  rw [compareRuns] at h ⊢
  by_cases hlen : (skipZeros s).length = (skipZeros t).length
  · rw [if_neg (not_not.mpr hlen)] at h
    rw [if_neg (not_not.mpr hlen.symm)]
    by_cases hsame : skipZeros s = skipZeros t
    · rw [if_neg (not_not.mpr hsame)] at h
      exact absurd h nofun
    · rw [if_pos hsame] at h
      rw [if_pos (Ne.symm hsame), decide_eq_false (List.lt_asymm (of_decide_eq_true (Option.some.inj h)))]
  · rw [if_pos hlen] at h
    have hlt := of_decide_eq_true (Option.some.inj h)
    rw [if_pos (Ne.symm hlen), decide_eq_false (by omega)]

theorem charLess_asymm {c d : UInt8} (h : charLess c d = true) : charLess d c = false :=
  decide_eq_false (Int8.lt_asymm (of_decide_eq_true h))

theorem lessLoop_asymm {n : Nat} {s t : List UInt8} (h : lessLoop n s t = true) : lessLoop n t s = false := by
  induction n generalizing s t with
  | zero => exact absurd h Bool.false_ne_true
  | succ n ih =>
      cases s with
      | nil =>
          cases t with
          | nil => exact absurd h Bool.false_ne_true
          | cons d t =>
              rw [lessLoop, Bool.not_eq_true'] at h
              rw [lessLoop, h]
      | cons c s =>
          cases t with
          | nil =>
              rw [lessLoop] at h
              rw [lessLoop, h]
              rfl
          | cons d t =>
              rw [lessLoop] at h ⊢
              rw [Bool.and_comm (isD d)]
              by_cases hdigits : (isD c && isD d) = true
              · rw [if_pos hdigits] at h ⊢
                cases hruns : compareRuns ((c :: s).takeWhile isD) ((d :: t).takeWhile isD) with
                | some r =>
                    rw [hruns] at h
                    obtain rfl : r = true := h
                    rw [compareRuns_asymm hruns]
                | none =>
                    rw [hruns] at h
                    rw [compareRuns_eq_none hruns]
                    exact ih h
              · rw [if_neg hdigits] at h ⊢
                by_cases hmixed : isD c = isD d
                · rw [if_neg (not_not.mpr hmixed)] at h
                  rw [if_neg (not_not.mpr hmixed.symm)]
                  by_cases hsame : c = d
                  · rw [if_neg (not_not.mpr hsame)] at h
                    rw [if_neg (not_not.mpr hsame.symm)]
                    exact ih h
                  · rw [if_pos hsame] at h
                    rw [if_pos (Ne.symm hsame)]
                    exact charLess_asymm h
                · rw [if_pos hmixed] at h
                  rw [if_pos (Ne.symm hmixed)]
                  rw [h] at hmixed
                  exact Bool.eq_false_iff.mpr fun hd => hmixed hd.symm

theorem naturalVersionLess_asymm {a b : List UInt8} (h : naturalVersionLess a b = true) :
    naturalVersionLess b a = false := by
  rw [naturalVersionLess] at h ⊢
  rw [Nat.add_comm b.length]
  exact lessLoop_asymm h

theorem naturalVersionLess_irrefl (a : List UInt8) : naturalVersionLess a a = false := by
  rw [Bool.eq_false_iff]
  exact fun h => Bool.eq_false_iff.mp (naturalVersionLess_asymm h) h

/-- A cycle: `1a` before `1`, `1` before `1.`, `1.` before `1a`. -/
example : naturalVersionLess [0x31, 0x61] [0x31] = true ∧ naturalVersionLess [0x31] [0x31, 0x2e] = true ∧
    naturalVersionLess [0x31, 0x2e] [0x31, 0x61] = true := by
  decide

/-! ## The sort -/

/-- `rank[x]` -/
def rankAt (v : List (List UInt8)) (x : Nat) : Nat :=
  (List.range v.length).countP fun y => y ≠ x && naturalVersionLess (v.getD y []) (v.getD x [])

section
variable {ρ : Type} (flt : Floats) (resistance : Nat → Nat → ρ) (gt : ρ → ρ → Bool) (mem : PackMem)
  (scratch : Option (Nat → Slot))

/-- `natural_version_sort`; `scratch` is the memory of the index sort. The
sorted positions are distinct, so no string is moved twice. -/
def naturalVersionSort (v : List (List UInt8)) : Option (List (List UInt8)) :=
  if v.length < 2 then some v
  else do
    let rank := (List.range v.length).map fun x => UInt64.ofNat (rankAt v x)
    let idx := (List.range v.length).map UInt32.ofNat
    let idx ← sublimationPackSortU64 flt resistance gt mem scratch rank idx false
    idx.mapM fun i => load v i.toNat

variable {v : List (List UInt8)}

theorem rankAt_eq (x : Nat) : rankAt v x = predecessors naturalVersionLess v (v.getD x []) := by
  have hself : rankAt v x = (List.range v.length).countP fun y => naturalVersionLess (v.getD y []) (v.getD x []) := by
    refine List.countP_congr fun y _ => ?_
    by_cases hy : y = x
    · rw [hy, naturalVersionLess_irrefl, Bool.and_false]
    · rw [decide_eq_true hy, Bool.true_and]
  have hall := congrArg (List.countP fun s => naturalVersionLess s (v.getD x [])) (map_getD_range v [])
  rw [List.countP_map] at hall
  exact hself.trans hall

theorem ranks_eq : (List.range v.length).map (fun x => UInt64.ofNat (rankAt v x))
    = v.map fun s => UInt64.ofNat (predecessors naturalVersionLess v s) := by
  conv_rhs => rw [← map_getD_range v [], List.map_map]
  refine List.map_congr_left fun x _ => ?_
  rw [rankAt_eq, map_getD_range]
  rfl

/-- The list as it was without the scratch, and with it sorted by the number of
predecessors. -/
theorem naturalVersionSort_spec (hn : v.length < 2 ^ 32) :
    ∃ out, naturalVersionSort flt resistance gt mem scratch v = some out ∧
      (scratch = none → out = v) ∧
      (scratch ≠ none → StableSort (predecessors naturalVersionLess v) v out) := by
  by_cases hshort : v.length < 2
  · exact ⟨v, if_pos hshort, fun _ => rfl, fun _ => stableSort_short _ hshort⟩
  · obtain ⟨idx, out, hsort, hread, hnone, hsome⟩ :=
      @packSort_gather _ _ (fun s => UInt64.ofNat (predecessors naturalVersionLess v s)) subKeyFromU64 false v _
        flt resistance gt mem scratch hn.le hshort
    refine ⟨out, ?_, hnone, fun hne => ?_⟩
    · have hsort' : sublimationPackSortU64 flt resistance gt mem scratch
          ((List.range v.length).map fun x => UInt64.ofNat (rankAt v x)) ((List.range v.length).map UInt32.ofNat) false
          = some idx := by
        rw [ranks_eq]
        exact hsort
      rw [naturalVersionSort, if_neg hshort]
      dsimp only
      rw [hsort', Option.bind_eq_bind, Option.bind_some, hread]
    · have hkey : (fun s => (slotKey subKeyFromU64 false (UInt64.ofNat (predecessors naturalVersionLess v s))).toNat)
          = predecessors naturalVersionLess v := by
        funext s
        have hle : predecessors naturalVersionLess v s ≤ v.length := List.countP_le_length
        rw [slotKey, if_neg Bool.false_ne_true, subKeyFromU64, UInt64.toNat_ofNat', Nat.mod_eq_of_lt (by omega)]
      have hstable := hsome hne
      rwa [hkey] at hstable

/-- **`natural_version_sort`** permutes the list, and where the comparator is a
strict weak order on it the result is the stable sort. -/
theorem naturalVersionSort_stable (hn : v.length < 2 ^ 32) (hscratch : scratch ≠ none) :
    (∀ a, naturalVersionLess a a = false) ∧
    (∀ a b, naturalVersionLess a b = true → naturalVersionLess b a = false) ∧
    ∃ out, naturalVersionSort flt resistance gt mem scratch v = some out ∧ out.Perm v ∧
      (WeakOrderOn naturalVersionLess v → SortedUnder naturalVersionLess v out) := by
  obtain ⟨out, hrun, -, hsome⟩ := naturalVersionSort_spec flt resistance gt mem scratch hn
  have hstable := hsome hscratch
  exact ⟨naturalVersionLess_irrefl, fun a b => naturalVersionLess_asymm, out, hrun, hstable.perm,
    hstable.of_predecessors⟩

end

/-- `2.10`, `2.9` and `2.9` again. -/
theorem naturalVersionSort_stable_three :
    (∀ a, naturalVersionLess a a = false) ∧
    (∀ a b, naturalVersionLess a b = true → naturalVersionLess b a = false) ∧
    ∃ out, naturalVersionSort noFloats (fun _ _ => ()) (fun _ _ => false) ⟨true, fun _ => true⟩
        (some fun _ => ⟨0, 0⟩)
        [[0x32, 0x2e, 0x31, 0x30], [0x32, 0x2e, 0x39], [0x32, 0x2e, 0x39]] = some out ∧
      out.Perm [[0x32, 0x2e, 0x31, 0x30], [0x32, 0x2e, 0x39], [0x32, 0x2e, 0x39]] ∧
      (WeakOrderOn naturalVersionLess [[0x32, 0x2e, 0x31, 0x30], [0x32, 0x2e, 0x39], [0x32, 0x2e, 0x39]] →
        SortedUnder naturalVersionLess
          [[0x32, 0x2e, 0x31, 0x30], [0x32, 0x2e, 0x39], [0x32, 0x2e, 0x39]] out) :=
  naturalVersionSort_stable noFloats (fun _ _ => ()) (fun _ _ => false) ⟨true, fun _ => true⟩
    (some fun _ => ⟨0, 0⟩) (by decide) (Option.some_ne_none _)

end Montauk.Tools
