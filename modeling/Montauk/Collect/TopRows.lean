import Montauk.Sort.Gather
import Montauk.Sort.Pack32
import Montauk.Sort.PackFloat
import Montauk.Sort.Prefixes

/-!
# The rows at the top

`top_k_by_cpu_pct` keeps the first `k` rows of a list by their share of the CPU.
It sorts positions, in buffers that a thread keeps from call to call and only
ever lengthens, and moves the rows it keeps out of the list.

Nothing of an earlier call comes through, and no row is lost or kept twice
(`topKByCpuPct_iff`). The rows are the first ones of the stable descending sort,
except where a row with `-0` would have to be kept in front of one with `+0`: the
index sort takes the first for the smaller (`topKByCpuPct_iff`).
-/

namespace Montauk.Collect

open Montauk.Sort

variable {T : Type}

/-! ## The code -/

/-- The vectors a thread keeps. -/
structure Buffers (T : Type) where
  keys : List UInt64
  idx : List UInt32
  scratch : List Slot
  out : List T

def Buffers.init : Buffers T := ⟨[], [], [], []⟩

/-- One call: the list and `k`, the memory the sort gets besides its scratch, and
what it leaves in this. -/
structure Call (T : Type) where
  rows : List T
  k : Nat
  mem : PackMem
  left : Nat → Slot

/-- `if (a.size() < n) a.resize(n)`. -/
def grow {α : Type} (a : List α) (n : Nat) (x : α) : List α :=
  if a.length < n then a ++ List.replicate (n - a.length) x else a

/-- `a[i] = x` for the elements of a list, from `i` on. -/
def fillFrom {α : Type} (a : List α) (i : Nat) : List α → Option (List α)
  | [] => some a
  | x :: xs => (store a i x).bind fun a => fillFrom a (i + 1) xs

section

variable (cpuPct : T → UInt64) (moved : T → T) {ρ : Type} (flt : Floats) (resistance : Nat → Nat → ρ) (gt : ρ → ρ → Bool)

/-- `out.push_back(std::move(v[i]))` for a row of positions; what stays behind
of a row that is moved is `moved` of it. -/
def moveOut : List T → List UInt32 → List T → Option (List T × List T)
  | v, [], out => some (v, out)
  | v, i :: is, out => do
      let row ← load v i.toNat
      let v ← store v i.toNat (moved row)
      moveOut v is (out ++ [row])

/-- `top_k_by_cpu_pct`, on the bits of the doubles; `none` if it reads or writes
outside of a vector. -/
def topKByCpuPct (s : Buffers T) (c : Call T) : Option (List T × Buffers T) :=
  let v := c.rows
  let n := v.length
  if n < 2 then some (if c.k < n then v.take c.k else v, s)
  else do
    let keys ← fillFrom (grow s.keys n 0) 0 (v.map cpuPct)
    let idx ← fillFrom (grow s.idx n 0) 0 (identityIndices n)
    let scratch := grow s.scratch (2 * n) ⟨0, 0⟩
    let sortKeys ← loadN keys 0 n
    let sortIdx ← loadN idx 0 n
    let half ← loadN scratch n n
    let sorted ← sublimationPackSortF64WithScratch flt resistance gt c.mem sortKeys sortIdx true half
    let idx ← storeN idx 0 sorted
    let scratch := (List.range scratch.length).map c.left
    let keep := if n < c.k then n else c.k
    let front ← loadN idx 0 keep
    -- `out` is cleared before it is filled, and once more when it has been swapped with `v`
    let (_, out) ← moveOut moved v front []
    some (out, { keys, idx, scratch, out := [] })

/-- The calls of a thread, one after the other. -/
def runCalls (calls : List (Call T)) (s : Buffers T) : Option (Buffers T) :=
  calls.foldlM (fun s c => (topKByCpuPct cpuPct moved flt resistance gt s c).map Prod.snd) s

end

/-! ## What it is for -/

/-- Larger shares first, in the order of the values. -/
def byShare (cpuPct : T → UInt64) (row : T) : Int := Binary.directed 52 63 true (cpuPct row).toNat

/-- The first `k` rows of the stable descending sort. -/
def IsTop (cpuPct : T → UInt64) (k : Nat) (rows out : List T) : Prop :=
  ∃ sorted, StableSort (byShare cpuPct) rows sorted ∧ out = sorted.take (min k rows.length)

/-- `+0` and `-0`. -/
def posZero : UInt64 := 0

def negZero : UInt64 := 0x8000000000000000

/-- No row with `-0` in front of one with `+0` has fewer than `k` rows that come
before it: those with a larger share, and those before it whose share is zero. -/
def ZerosSettled (cpuPct : T → UInt64) (k : Nat) (rows : List T) : Prop :=
  ∀ before row after, rows = before ++ row :: after → cpuPct row = negZero →
    (rows.countP fun r => byShare cpuPct r < 0) + (before.countP fun r => byShare cpuPct r = 0) < k →
    ∀ r ∈ after, cpuPct r ≠ posZero

/-! ## The buffers -/

section

variable {α : Type}

theorem le_length_grow (a : List α) (n : Nat) (x : α) : n ≤ (grow a n x).length := by
  rw [grow]
  split
  · rw [List.length_append, List.length_replicate]
    omega
  · omega

theorem fillFrom_append {ws ys xs : List α} (h : xs.length ≤ ys.length) :
    fillFrom (ws ++ ys) ws.length xs = some (ws ++ xs ++ ys.drop xs.length) := by
  induction xs generalizing ws ys with
  | nil => rw [fillFrom, List.append_nil, List.length_nil, List.drop_zero]
  | cons x xs ih =>
      obtain ⟨y, ys, rfl⟩ := List.exists_cons_of_length_pos (Nat.lt_of_lt_of_le (Nat.succ_pos _) h)
      have hnext := @ih (ws ++ [x]) ys (Nat.le_of_succ_le_succ h)
      rw [List.append_assoc, List.singleton_append, List.length_append, List.length_singleton] at hnext
      rw [fillFrom, store_append rfl, Option.bind_some, hnext, List.append_assoc ws, List.singleton_append,
        List.length_cons, List.drop_succ_cons]

/-- The front of a vector is filled, what an earlier call left behind it stays. -/
theorem fillFrom_front {a xs : List α} (h : xs.length ≤ a.length) :
    fillFrom a 0 xs = some (xs ++ a.drop xs.length) :=
  @fillFrom_append _ [] _ _ h

end

section

variable {moved : T → T} {v : List T} {is : List UInt32}

theorem moveOut_total (h : ∀ i ∈ is, i.toNat < v.length) (out : List T) : ∃ r, moveOut moved v is out = some r := by
  induction is generalizing v out with
  | nil => exact ⟨(v, out), rfl⟩
  | cons i is ih =>
      obtain ⟨hi, his⟩ := List.forall_mem_cons.mp h
      obtain ⟨r, hr⟩ := @ih (v.set i.toNat (moved v[i.toNat])) (by simpa using his) (out ++ [v[i.toNat]])
      refine ⟨r, ?_⟩
      rw [moveOut, load_of_lt hi, Option.bind_eq_bind, Option.bind_some, store, if_pos hi]
      exact hr

theorem moveOut_eq {g : UInt32 → T} (hnodup : (is.map UInt32.toNat).Nodup)
    (hread : ∀ i ∈ is, load v i.toNat = some (g i)) (out : List T) :
    ∃ v', moveOut moved v is out = some (v', out ++ is.map g) := by
  induction is generalizing v out with
  | nil => exact ⟨v, by rw [moveOut, List.map_nil, List.append_nil]⟩
  | cons i is ih =>
      obtain ⟨hi, his⟩ := List.forall_mem_cons.mp hread
      rw [List.map_cons] at hnodup
      obtain ⟨hnotin, hnodup⟩ := List.nodup_cons.mp hnodup
      have hlt : i.toNat < v.length := (List.getElem?_eq_some_iff.mp hi).1
      have hkept : ∀ j ∈ is, load (v.set i.toNat (moved (g i))) j.toNat = some (g j) := by
        intro j hj
        have hne : i.toNat ≠ j.toNat := fun heq => hnotin (heq ▸ List.mem_map_of_mem hj)
        rw [load, List.getElem?_set_ne hne]
        exact his j hj
      obtain ⟨v', hv'⟩ := ih hnodup hkept (out ++ [g i])
      refine ⟨v', ?_⟩
      have hconcat : out ++ (i :: is).map g = out ++ [g i] ++ is.map g := List.append_cons out (g i) (is.map g)
      rw [moveOut, hi, Option.bind_eq_bind, Option.bind_some, store, if_pos hlt, hconcat]
      exact hv'

end

/-! ## One call -/

section

variable (cpuPct : T → UInt64) (moved : T → T) {ρ : Type} (flt : Floats) (resistance : Nat → Nat → ρ) (gt : ρ → ρ → Bool)
  (s : Buffers T) (c : Call T)

/-- The sort sees the keys and positions of this call, and rows are moved by the
positions it gives. -/
theorem topKByCpuPct_run (hlen : ¬ c.rows.length < 2) :
    ∃ half : List Slot, half.length = c.rows.length ∧ ∀ idx : List UInt32,
      sublimationPackSortF64WithScratch flt resistance gt c.mem (c.rows.map cpuPct) (identityIndices c.rows.length)
        true half = some idx → idx.length = c.rows.length →
      (topKByCpuPct cpuPct moved flt resistance gt s c).map Prod.fst
        = (moveOut moved c.rows (idx.take (min c.k c.rows.length)) []).map Prod.snd := by
  have hkeys := le_length_grow s.keys c.rows.length 0
  have hidx := le_length_grow s.idx c.rows.length 0
  have hscratch := le_length_grow s.scratch (2 * c.rows.length) ⟨0, 0⟩
  have hrows : (c.rows.map cpuPct).length = c.rows.length := List.length_map _
  have hpos := length_identityIndices c.rows.length
  refine ⟨((grow s.scratch (2 * c.rows.length) ⟨0, 0⟩).drop c.rows.length).take c.rows.length, ?_, fun idx hsort hn => ?_⟩
  · rw [List.length_take, List.length_drop]
    omega
  · have hkeep : (if c.rows.length < c.k then c.rows.length else c.k) = min c.k c.rows.length := by
      split <;> omega
    rw [topKByCpuPct]
    dsimp only
    rw [if_neg hlen, fillFrom_front (by rw [hrows]; exact hkeys), fillFrom_front (by rw [hpos]; exact hidx)]
    simp only [Option.bind_eq_bind, Option.bind_some]
    rw [loadN_front hrows.symm, loadN_front hpos.symm, loadN, if_pos (by omega)]
    simp only [Option.bind_some]
    rw [hsort, Option.bind_some, storeN_front (by rw [hn, hpos]), Option.bind_some, hkeep, loadN,
      if_pos (by rw [List.length_append, hn]; omega), List.drop_zero, List.take_append_of_le_length (by omega),
      Option.bind_some]
    cases moveOut moved c.rows (idx.take (min c.k c.rows.length)) [] <;> rfl

/-- A call on any list returns, and leaves buffers for the next one. -/
theorem topKByCpuPct_total : ∃ out s', topKByCpuPct cpuPct moved flt resistance gt s c = some (out, s') := by
  by_cases hlen : c.rows.length < 2
  · exact ⟨_, s, if_pos hlen⟩
  · obtain ⟨half, hhalf, hrun⟩ := topKByCpuPct_run cpuPct moved flt resistance gt s c hlen
    have hpos := length_identityIndices c.rows.length
    obtain ⟨idx, hsort, hperm⟩ := @packSortWithScratch_perm UInt64 subKeyFromF64 true ρ flt resistance gt c.mem
      (c.rows.map cpuPct) (identityIndices c.rows.length) half (by rw [hpos, List.length_map]) (by rw [hpos, hhalf])
    have hin : ∀ i ∈ idx.take (min c.k c.rows.length), i.toNat < c.rows.length := by
      intro i hi
      obtain ⟨j, hj, rfl⟩ := List.mem_map.mp (hperm.mem_iff.mp (List.mem_of_mem_take hi))
      rw [UInt32.toNat_ofNat']
      exact Nat.lt_of_le_of_lt (Nat.mod_le _ _) (List.mem_range.mp hj)
    obtain ⟨r, hr⟩ := @moveOut_total T moved _ _ hin []
    have hfst := hrun idx hsort (hperm.length_eq.trans hpos)
    rw [hr] at hfst
    obtain ⟨p, hp, -⟩ := Option.map_eq_some_iff.mp hfst
    exact ⟨p.1, p.2, hp⟩

theorem topKByCpuPct_sorted (hn : c.rows.length ≤ 2 ^ 32) :
    ∃ sorted s', StableSort (fun r => Binary.directedBits 63 true (cpuPct r).toNat) c.rows sorted
      ∧ topKByCpuPct cpuPct moved flt resistance gt s c = some (sorted.take (min c.k c.rows.length), s') := by
  by_cases hlen : c.rows.length < 2
  · refine ⟨c.rows, s, stableSort_short _ hlen, (if_pos hlen).trans ?_⟩
    split
    · rw [Nat.min_eq_left (by omega)]
    · rw [Nat.min_eq_right (by omega), List.take_length]
  · obtain ⟨half, hhalf, hrun⟩ := topKByCpuPct_run cpuPct moved flt resistance gt s c hlen
    have hpos := length_identityIndices c.rows.length
    obtain ⟨idx, sorted, hsort, hread, hstable⟩ := @packSortWithScratch_gather T UInt64 cpuPct subKeyFromF64 true
      c.rows ρ flt resistance gt c.mem half hn (by omega) hhalf
    obtain ⟨idx', hsort', hperm⟩ := @packSortWithScratch_perm UInt64 subKeyFromF64 true ρ flt resistance gt c.mem
      (c.rows.map cpuPct) (identityIndices c.rows.length) half (by rw [hpos, List.length_map]) (by rw [hpos, hhalf])
    obtain rfl : idx = idx' := Option.some.inj (hsort.symm.trans hsort')
    simp only [slotKey_f64] at hstable
    -- the positions are those of the list, each once
    have hmem : ∀ i ∈ idx, i.toNat < c.rows.length := by
      intro i hi
      obtain ⟨j, hj, rfl⟩ := List.mem_map.mp (hperm.mem_iff.mp hi)
      rw [toNat_ofNat_of_lt hn (List.mem_range.mp hj)]
      exact List.mem_range.mp hj
    have hnodup : (idx.map UInt32.toNat).Nodup :=
      ((hperm.map UInt32.toNat).nodup_iff).mpr (List.pairwise_map.mpr ((identityIndices_pairwise hn).imp fun hlt => hlt.ne))
    obtain ⟨x, hx⟩ : ∃ x, x ∈ c.rows := List.exists_mem_of_length_pos (by omega)
    have hload : ∀ i ∈ idx, load c.rows i.toNat = some ((c.rows[i.toNat]?).getD x) := by
      intro i hi
      rw [load, List.getElem?_eq_getElem (hmem i hi), Option.getD_some]
    have hsorted : sorted = idx.map fun i => (c.rows[i.toNat]?).getD x :=
      Option.some.inj (hread.symm.trans (mapM_eq_map hload))
    obtain ⟨v', hmove⟩ := @moveOut_eq T moved c.rows (idx.take (min c.k c.rows.length))
      (fun i => (c.rows[i.toNat]?).getD x) (hnodup.sublist ((List.take_sublist _ _).map _))
      (fun i hi => hload i (List.mem_of_mem_take hi)) []
    have hfst := hrun idx hsort (hperm.length_eq.trans hpos)
    rw [hmove, Option.map_some, List.nil_append, List.map_take, ← hsorted] at hfst
    obtain ⟨p, hp, hout⟩ := Option.map_eq_some_iff.mp hfst
    refine ⟨sorted, p.2, hstable, hp.trans (congrArg some ?_)⟩
    exact Prod.ext hout rfl

end

theorem runCalls_total (cpuPct : T → UInt64) (moved : T → T) {ρ : Type} (flt : Floats) (resistance : Nat → Nat → ρ)
    (gt : ρ → ρ → Bool) (calls : List (Call T)) (s : Buffers T) :
    ∃ s', runCalls cpuPct moved flt resistance gt calls s = some s' := by
  induction calls generalizing s with
  | nil => exact ⟨s, rfl⟩
  | cons c calls ih =>
      obtain ⟨out, next, hcall⟩ := topKByCpuPct_total cpuPct moved flt resistance gt s c
      obtain ⟨s', hs'⟩ := ih next
      refine ⟨s', ?_⟩
      rw [runCalls, List.foldlM_cons, hcall]
      exact hs'

/-! ## The zeros -/

section

variable {cpuPct : T → UInt64} {rows sorted : List T} {k : Nat}

theorem split_of_filter {p : T → Bool} {xs us ws : List T} {x : T} (h : xs.filter p = us ++ x :: ws) :
    ∃ before after, xs = before ++ x :: after ∧ before.filter p = us ∧ after.filter p = ws := by
  obtain ⟨front, back, rfl, hfront, hback⟩ := List.filter_eq_append_iff.mp h
  obtain ⟨skipped, after, rfl, hskip, -, hafter⟩ := List.filter_eq_cons_iff.mp hback
  refine ⟨front ++ skipped, after, by rw [List.append_assoc], ?_, hafter⟩
  rw [List.filter_append, hfront, List.filter_eq_nil_iff.mpr hskip, List.append_nil]

theorem countP_add_countP (f : T → Int) (xs : List T) :
    (xs.countP fun r => f r < 0) + (xs.countP fun r => f r = 0) = xs.countP fun r => f r ≤ 0 := by
  induction xs with
  | nil => rfl
  | cons x xs ih =>
      rw [List.countP_cons, List.countP_cons, List.countP_cons, ← ih]
      rcases Int.lt_trichotomy (f x) 0 with hx | hx | hx
      · simp [hx, hx.le, hx.ne]
        omega
      · simp [hx]
        omega
      · simp [hx.not_ge, hx.not_gt, hx.ne']

theorem byShare_negZero {r : T} (h : cpuPct r = negZero) : byShare cpuPct r = 0 := by
  rw [byShare, h]
  rfl

theorem byShare_posZero {r : T} (h : cpuPct r = posZero) : byShare cpuPct r = 0 := by
  rw [byShare, h]
  rfl

theorem filter_zero_cons {row : T} (h : cpuPct row = negZero) (rows : List T) :
    (row :: rows).filter (fun r => byShare cpuPct r = 0) = row :: rows.filter fun r => byShare cpuPct r = 0 :=
  List.filter_cons_of_pos (decide_eq_true (byShare_negZero h))

/-- The stable sort is settled up to `k` exactly if the zeros of the list are. -/
theorem prefixSettled_iff_zeros (h : StableSort (byShare cpuPct) rows sorted) :
    PrefixSettled (fun r => Binary.directedBits 63 true (cpuPct r).toNat) (min k rows.length) sorted
      ↔ ZerosSettled cpuPct k rows := by
  have hzeros : sorted.filter (fun r => byShare cpuPct r = 0) = rows.filter fun r => byShare cpuPct r = 0 := h.stable 0
  have hcount : (sorted.countP fun r => byShare cpuPct r < 0) = rows.countP fun r => byShare cpuPct r < 0 :=
    h.perm.countP_eq _
  constructor
  · intro hsettled before row after hrows hneg hrank r hr hpos
    rw [hrows, List.filter_append, filter_zero_cons hneg] at hzeros
    obtain ⟨front, back, hsplit, hfront, hback⟩ := split_of_filter hzeros
    have hle : ∀ x ∈ front, decide (byShare cpuPct x ≤ 0) = true := by
      intro x hx
      rw [decide_eq_true_eq, ← byShare_negZero hneg]
      exact (hsplit ▸ h.sorted).across x hx row List.mem_cons_self
    have hlen : front.length ≤ (rows.countP fun r => byShare cpuPct r < 0)
        + (before.countP fun r => byShare cpuPct r = 0) := by
      have hsub : (front.countP fun r => byShare cpuPct r < 0) ≤ sorted.countP fun r => byShare cpuPct r < 0 := by
        rw [hsplit, List.countP_append]
        exact Nat.le_add_right _ _
      have hsame : (front.countP fun r => byShare cpuPct r = 0) = before.countP fun r => byShare cpuPct r = 0 := by
        rw [List.countP_eq_length_filter, hfront, ← List.countP_eq_length_filter]
      rw [← hcount, ← List.countP_eq_length.mpr hle, ← countP_add_countP, hsame]
      omega
    have hbound : front.length < rows.length := by
      rw [← h.length_eq, hsplit, List.length_append, List.length_cons]
      omega
    have hmem : r ∈ back := by
      have hfilter : r ∈ back.filter fun r => byShare cpuPct r = 0 := by
        rw [hback]
        exact List.mem_filter.mpr ⟨hr, decide_eq_true (byShare_posZero hpos)⟩
      exact (List.mem_filter.mp hfilter).1
    have hbits := hsettled front row back hsplit (by omega) r hmem
    dsimp only at hbits
    rw [hneg, hpos] at hbits
    exact absurd hbits (by decide)
  · rintro hsettled before x after hsplit hlt y hy
    by_contra hgt
    have hx := (cpuPct x).toNat_lt
    have hy' := (cpuPct y).toNat_lt
    have hmono := @Binary.directed_le_of_directedBits_le 52 63 (cpuPct y).toNat (cpuPct x).toNat true hy' hx
      (Nat.le_of_lt (Nat.not_le.mp hgt))
    have hle : byShare cpuPct x ≤ byShare cpuPct y := by
      have hasc := (hsplit ▸ h.sorted).right
      exact (List.pairwise_cons.mp hasc).1 y hy
    have happart : Binary.ZerosApart 63 true (cpuPct x).toNat (cpuPct y).toNat := by
      by_contra hnot
      exact hgt ((@Binary.directedBits_tie_iff 52 63 _ _ true hx hy').mpr hnot (le_antisymm hle hmono))
    have hneg : cpuPct x = negZero := UInt64.toNat_inj.mp happart.1
    have hpos : cpuPct y = posZero := UInt64.toNat_inj.mp happart.2
    rw [hsplit, List.filter_append, filter_zero_cons hneg] at hzeros
    obtain ⟨front, back, hrows, hfront, hback⟩ := split_of_filter hzeros.symm
    have hmem : y ∈ back := by
      have hfilter : y ∈ back.filter fun r => byShare cpuPct r = 0 := by
        rw [hback]
        exact List.mem_filter.mpr ⟨hy, decide_eq_true (byShare_posZero hpos)⟩
      exact (List.mem_filter.mp hfilter).1
    refine hsettled front x back hrows hneg ?_ y hmem hpos
    -- the rows with a larger share stand in front of the zeros
    have hlarger : (sorted.countP fun r => byShare cpuPct r < 0) = before.countP fun r => byShare cpuPct r < 0 := by
      have hnone : ((x :: after).countP fun r => byShare cpuPct r < 0) = 0 := by
        refine List.countP_eq_zero.mpr fun z hz hneg' => ?_
        have hxz : byShare cpuPct x ≤ byShare cpuPct z := (hsplit ▸ h.sorted).right.head_le z hz
        rw [byShare_negZero hneg] at hxz
        exact absurd (of_decide_eq_true hneg') (Int.not_lt.mpr hxz)
      rw [hsplit, List.countP_append, hnone, Nat.add_zero]
    have hsame : (front.countP fun r => byShare cpuPct r = 0) = before.countP fun r => byShare cpuPct r = 0 := by
      rw [List.countP_eq_length_filter, hfront, ← List.countP_eq_length_filter]
    have hall : (before.countP fun r => byShare cpuPct r ≤ 0) ≤ before.length := List.countP_le_length
    rw [← hcount, hlarger, hsame, countP_add_countP]
    omega

/-- The rows are the top ones exactly if the zeros are settled. -/
theorem isTop_take_iff
    (h : StableSort (fun r => Binary.directedBits 63 true (cpuPct r).toNat) rows sorted) :
    IsTop cpuPct k rows (sorted.take (min k rows.length)) ↔ ZerosSettled cpuPct k rows := by
  obtain ⟨byValue, -, hvalue⟩ := insertionSort_stable (byShare cpuPct) rows
  have hmono : ∀ r r' : T, Binary.directedBits 63 true (cpuPct r).toNat ≤ Binary.directedBits 63 true (cpuPct r').toNat →
      byShare cpuPct r ≤ byShare cpuPct r' := fun r r' =>
    Binary.directed_le_of_directedBits_le (cpuPct r).toNat_lt (cpuPct r').toNat_lt
  rw [← prefixSettled_iff_zeros hvalue, ← h.take_eq_iff hvalue hmono]
  constructor
  · rintro ⟨byValue', hvalue', htake⟩
    rwa [hvalue.unique hvalue']
  · exact fun htake => ⟨byValue, hvalue, htake⟩

end

/-! ## Any call of a thread -/

/-- After any earlier calls a call returns `min k n` rows, which are rows of its
list and as often as there. They are the first rows of the stable descending sort
exactly if no row with `-0` that stands in front of one with `+0` belongs to
them. -/
theorem topKByCpuPct_iff (cpuPct : T → UInt64) (moved : T → T) {ρ : Type} (flt : Floats) (resistance : Nat → Nat → ρ)
    (gt : ρ → ρ → Bool) (calls : List (Call T)) (c : Call T) (hn : c.rows.length ≤ 2 ^ 32) :
    ∃ s out s', runCalls cpuPct moved flt resistance gt calls .init = some s
      ∧ topKByCpuPct cpuPct moved flt resistance gt s c = some (out, s')
      ∧ out.length = min c.k c.rows.length ∧ out.Subperm c.rows
      ∧ (IsTop cpuPct c.k c.rows out ↔ ZerosSettled cpuPct c.k c.rows) := by
  obtain ⟨s, hruns⟩ := runCalls_total cpuPct moved flt resistance gt calls .init
  obtain ⟨sorted, s', hsorted, hcall⟩ := topKByCpuPct_sorted cpuPct moved flt resistance gt s c hn
  refine ⟨s, _, s', hruns, hcall, ?_, ?_, isTop_take_iff hsorted⟩
  · rw [List.length_take, hsorted.length_eq, Nat.min_assoc, Nat.min_self]
  · exact (List.take_sublist _ _).subperm.trans hsorted.perm.subperm

/-- Two rows, after a call with three. -/
theorem topKByCpuPct_iff_second :
    ∃ s out s', runCalls id id noFloats (fun _ _ => ()) (fun _ _ => false)
          [⟨[1, 2, 3], 2, ⟨true, fun _ => true⟩, fun _ => ⟨0, 0⟩⟩] .init = some s
      ∧ topKByCpuPct id id noFloats (fun _ _ => ()) (fun _ _ => false) s
          ⟨[0x3ff0000000000000, 0x4000000000000000], 1, ⟨true, fun _ => true⟩, fun _ => ⟨0, 0⟩⟩ = some (out, s')
      ∧ out.length = 1 ∧ out.Subperm [0x3ff0000000000000, 0x4000000000000000]
      ∧ (IsTop id 1 [0x3ff0000000000000, 0x4000000000000000] out
        ↔ ZerosSettled id 1 [0x3ff0000000000000, 0x4000000000000000]) :=
  topKByCpuPct_iff id id noFloats (fun _ _ => ()) (fun _ _ => false)
    [⟨[1, 2, 3], 2, ⟨true, fun _ => true⟩, fun _ => ⟨0, 0⟩⟩]
    ⟨[0x3ff0000000000000, 0x4000000000000000], 1, ⟨true, fun _ => true⟩, fun _ => ⟨0, 0⟩⟩ (by decide)

/-- Of `-0` and `+0`, in this order, the second is kept. -/
theorem not_isTop_zeros : ∃ out s', topKByCpuPct id id noFloats (fun _ _ => ()) (fun _ _ => false) .init
      ⟨[negZero, posZero], 1, ⟨true, fun _ => true⟩, fun _ => ⟨0, 0⟩⟩ = some (out, s')
    ∧ ¬ IsTop id 1 [negZero, posZero] out := by
  obtain ⟨sorted, s', hsorted, hcall⟩ := topKByCpuPct_sorted id id noFloats (fun _ _ => ()) (fun _ _ => false) .init
    ⟨[negZero, posZero], 1, ⟨true, fun _ => true⟩, fun _ => ⟨0, 0⟩⟩ (by decide)
  refine ⟨_, s', hcall, fun htop => ?_⟩
  have hsettled : ZerosSettled id 1 [negZero, posZero] := (isTop_take_iff hsorted).mp htop
  exact hsettled [] negZero [posZero] rfl rfl (by decide) posZero (List.mem_singleton.mpr rfl) rfl

end Montauk.Collect
