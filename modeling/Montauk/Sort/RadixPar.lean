import Montauk.Par.Pool
import Montauk.Sort.Flag

/-!
# The parallel radix sort

`rp_frame` on the work pool. A frame is a range of the array whose keys agree
above byte `depth`. Its call partitions the range and goes through the buckets:
it pushes the large ones as frames for the next byte and sorts the small ones
itself.

While the pool runs, the array is cut into segments, and the keys of a segment
are not larger than those of the next: those that are sorted, and those that
are the range of a frame or of a bucket that a call has not reached
(`Cover`). When nothing is outstanding the array is sorted, and it is what the
serial radix sort gives.
-/

namespace Montauk.Sort

open Par

/-- `sub_dfs_frame_t`, the base as an index of the array. -/
structure Frame where
  base : Nat
  n : Nat
  depth : Nat

/-- A call of `rp_frame`: at its start, or at bucket `b` of its loop. -/
inductive FlagWork where
  | run (f : Frame)
  | buckets (f : Frame) (start cnt : List Nat) (b : Nat)

section
variable {α : Type} [SubInt α]

/-- `SUB_PAR_MIN`: from this on, a bucket is pushed. -/
def parMin : Nat := 4096

/-- The steps of `rp_frame`. A step reads and writes its own range only. -/
def rpFrameStep (a : List α) : FlagWork → Option (List α × Action Frame FlagWork)
  | .run f =>
      if f.n ≤ parIns then do
        let a ← onWindow a f.base f.n rpIns
        some (a, .done)
      else do
        let w ← loadN a f.base f.n
        let (w, start, cnt) ← rpPass (orderByte f.depth) w
        let a ← storeN a f.base w
        if f.depth = 0 then some (a, .done) else some (a, .cont (.buckets f start cnt 0))
  | .buckets f start cnt b =>
      if 256 ≤ b then some (a, .done)
      else do
        let c ← load cnt b
        let s ← load start b
        if c ≤ 1 then some (a, .cont (.buckets f start cnt (b + 1)))
        else if parMin ≤ c ∨ f.depth = SubInt.topByte α ∧ parIns < c then
          some (a, .push ⟨f.base + s, c, f.depth - 1⟩ (.buckets f start cnt (b + 1)))
        else do
          let a ← onWindow a (f.base + s) c (rpSerial f.depth)
          some (a, .cont (.buckets f start cnt (b + 1)))

def rpFrame : Engine (List α) Frame FlagWork where
  start := .run
  step := rpFrameStep

/-- A bound for the steps of a call at level `depth`, with those of the frames
that it pushes. -/
def frameWeight : Nat → Nat
  | 0 => 2
  | depth + 1 => 256 * (frameWeight depth + 3) + 3

def FlagWork.weight : FlagWork → Nat
  | .run f => frameWeight f.depth
  | .buckets f _ _ b => (256 - b) * (frameWeight (f.depth - 1) + 3) + 2

def subRadixSortPar (sched : Schedule) (workers : Nat) (arr : List α) : Option (List α) :=
  if arr.length < 2 then some arr
  else if workers < 2 ∨ arr.length < parMin then rpSerial (SubInt.topByte α + 1) arr
  else if !sched.engineOk then rpSerial (SubInt.topByte α + 1) arr
  else subDfsRun rpFrame FlagWork.weight sched workers arr ⟨0, arr.length, SubInt.topByte α⟩

end

/-! ## The cover -/

/-- A range of the array that is not sorted yet: its keys agree above the
lowest `bytes` bytes. -/
structure Range where
  base : Nat
  n : Nat
  bytes : Nat

/-- A segment of the array: sorted, or with so many bytes left. -/
structure Seg (α : Type) where
  content : List α
  bytes : Option Nat

section
variable {α : Type}

def contents (segs : List (Seg α)) : List α := segs.flatMap Seg.content

/-- The ranges of the segments that are not sorted, the first segment at `b`. -/
def rangesOf : Nat → List (Seg α) → List Range
  | _, [] => []
  | b, s :: segs =>
      (match s.bytes with
        | none => []
        | some bytes => [⟨b, s.content.length, bytes⟩])
        ++ rangesOf (b + s.content.length) segs

theorem contents_append (segs segs' : List (Seg α)) :
    contents (segs ++ segs') = contents segs ++ contents segs' := List.flatMap_append ..

theorem contents_cons (s : Seg α) (segs : List (Seg α)) :
    contents (s :: segs) = s.content ++ contents segs := List.flatMap_cons ..

theorem rangesOf_append (b : Nat) (segs segs' : List (Seg α)) :
    rangesOf b (segs ++ segs') = rangesOf b segs ++ rangesOf (b + (contents segs).length) segs' := by
  induction segs generalizing b with
  | nil => rfl
  | cons s segs ih =>
      rw [List.cons_append, rangesOf, ih, rangesOf, contents_cons, List.length_append,
        Nat.add_assoc, List.append_assoc]

theorem rangesOf_sorted (b : Nat) (segs : List (Seg α)) :
    (rangesOf b segs).Pairwise (fun r s => r.base + r.n ≤ s.base) ∧ ∀ r ∈ rangesOf b segs, b ≤ r.base := by
  induction segs generalizing b with
  | nil => exact ⟨List.Pairwise.nil, fun r hr => by cases hr⟩
  | cons s segs ih =>
      obtain ⟨hpair, hbase⟩ := ih (b + s.content.length)
      rw [rangesOf]
      cases s.bytes with
      | none =>
          refine ⟨hpair, fun r hr => ?_⟩
          have := hbase r hr
          omega
      | some bytes =>
          refine ⟨List.pairwise_cons.mpr ⟨hbase, hpair⟩, fun r hr => ?_⟩
          rcases List.mem_cons.mp hr with rfl | hr
          · exact Nat.le_refl b
          · have := hbase r hr
            omega

theorem exists_seg {r : Range} {b : Nat} {segs : List (Seg α)} (h : r ∈ rangesOf b segs) :
    ∃ pre w post, segs = pre ++ ⟨w, some r.bytes⟩ :: post
      ∧ r.base = b + (contents pre).length ∧ r.n = w.length := by
  induction segs generalizing b with
  | nil => cases h
  | cons s segs ih =>
      obtain ⟨content, bytes⟩ := s
      rw [rangesOf] at h
      rcases List.mem_append.mp h with hhead | htail
      · cases bytes with
        | none => cases hhead
        | some bytes =>
            rw [List.mem_singleton] at hhead
            subst hhead
            exact ⟨[], content, segs, rfl, rfl, rfl⟩
      · obtain ⟨pre, w, post, hsegs, hbase, hn⟩ := ih htail
        refine ⟨⟨content, bytes⟩ :: pre, w, post, by rw [hsegs]; rfl, ?_, hn⟩
        rw [hbase, contents_cons, List.length_append, Nat.add_assoc]

variable [SubInt α]

def Seg.Ok (s : Seg α) : Prop :=
  match s.bytes with
  | none => Ascending SubInt.value s.content
  | some bytes => SameAbove bytes s.content

/-- The keys of a segment are not larger than those of another. -/
def Seg.Below (s t : Seg α) : Prop :=
  ∀ x ∈ s.content, ∀ y ∈ t.content, SubInt.value x ≤ SubInt.value y

/-- The array in segments; those that are not sorted are the ranges `rs`. -/
structure Cover (a₀ a : List α) (rs : List Range) (segs : List (Seg α)) : Prop where
  array : a = contents segs
  perm : a.Perm a₀
  ok : ∀ s ∈ segs, s.Ok
  below : segs.Pairwise Seg.Below
  ranges : (rangesOf 0 segs).Perm rs

theorem Cover.replace {a₀ a : List α} {r : Range} {rs : List Range} {segs : List (Seg α)}
    (h : Cover a₀ a (r :: rs) segs) :
    ∃ pre w post, a = contents pre ++ w ++ contents post ∧ r.base = (contents pre).length
      ∧ r.n = w.length ∧ SameAbove r.bytes w
      ∧ ∀ mid : List (Seg α), (contents mid).Perm w → (∀ s ∈ mid, s.Ok) →
        mid.Pairwise Seg.Below →
        Cover a₀ (contents pre ++ contents mid ++ contents post) (rangesOf r.base mid ++ rs)
          (pre ++ mid ++ post) := by
  have hmem : r ∈ rangesOf 0 segs := h.ranges.mem_iff.mpr List.mem_cons_self
  obtain ⟨pre, w, post, rfl, hbase, hn⟩ := exists_seg hmem
  rw [Nat.zero_add] at hbase
  have harray := h.array
  rw [contents_append, contents_cons, ← List.append_assoc] at harray
  obtain ⟨hpre, htail, hpretail⟩ := List.pairwise_append.mp h.below
  obtain ⟨hw, hpost⟩ := List.pairwise_cons.mp htail
  refine ⟨pre, w, post, harray, hbase, hn, h.ok ⟨w, some r.bytes⟩ (by simp),
    fun mid hmid hok hbelow => ?_⟩
  have hmem : ∀ s ∈ mid, ∀ x ∈ s.content, x ∈ w := fun s hs x hx =>
    hmid.mem_iff.mp (List.mem_flatMap.mpr ⟨s, hs, hx⟩)
  constructor
  · rw [contents_append, contents_append]
  · refine List.Perm.trans ?_ h.perm
    rw [harray]
    exact (hmid.append_left _).append_right _
  · intro s hs
    rcases List.mem_append.mp hs with hs | hs
    · rcases List.mem_append.mp hs with hs | hs
      · exact h.ok s (List.mem_append_left _ hs)
      · exact hok s hs
    · exact h.ok s (List.mem_append_right _ (List.mem_cons_of_mem _ hs))
  · refine List.pairwise_append.mpr ⟨List.pairwise_append.mpr ⟨hpre, hbelow, ?_⟩, hpost, ?_⟩
    · intro s hs t ht x hx y hy
      exact hpretail s hs _ List.mem_cons_self x hx y (hmem t ht y hy)
    · intro s hs t ht x hx y hy
      rcases List.mem_append.mp hs with hs | hs
      · exact hpretail s hs t (List.mem_cons_of_mem _ ht) x hx y hy
      · exact hw t ht x (hmem s hs x hx) y hy
  · have hranges := h.ranges
    rw [rangesOf_append, rangesOf, Nat.zero_add] at hranges
    rw [rangesOf_append, rangesOf_append, Nat.zero_add, contents_append, List.length_append,
      hmid.length_eq, ← hbase]
    have hr : (⟨(contents pre).length, w.length, r.bytes⟩ : Range) = r := by
      rw [← hbase, ← hn]
    have hrest : (rangesOf 0 pre ++ rangesOf ((contents pre).length + w.length) post).Perm rs := by
      refine (List.Perm.cons_inv (a := r) ?_)
      refine List.Perm.trans ?_ hranges
      rw [← hr]
      exact List.perm_middle.symm
    rw [hbase, Nat.zero_add]
    refine (List.perm_append_comm.append_right _).trans ?_
    rw [List.append_assoc]
    exact hrest.append_left _

theorem Cover.settle {a₀ a : List α} {r : Range} {rs : List Range} {segs : List (Seg α)}
    (h : Cover a₀ a (r :: rs) segs) :
    ∃ pre w post, a = pre ++ w ++ post ∧ r.base = pre.length ∧ r.n = w.length
      ∧ SameAbove r.bytes w ∧ ∀ w', StableSort SubInt.value w w' →
        ∃ segs', Cover a₀ (pre ++ w' ++ post) rs segs' := by
  obtain ⟨pre, w, post, harray, hbase, hn, hsame, hmid⟩ := h.replace
  refine ⟨contents pre, w, contents post, harray, hbase, hn, hsame, fun w' hw' => ?_⟩
  have hcover := hmid [⟨w', none⟩] (by rw [contents_cons]; simpa [contents] using hw'.perm)
    (by
      intro s hs
      rw [List.mem_singleton] at hs
      subst hs
      exact hw'.sorted) (List.pairwise_singleton _ _)
  have hcontents : contents [(⟨w', none⟩ : Seg α)] = w' := by simp [contents]
  rw [hcontents] at hcover
  exact ⟨_, hcover⟩

theorem Cover.cut {a₀ a : List α} {base n depth : Nat} {rs : List Range} {segs : List (Seg α)}
    (h : Cover a₀ a (⟨base, n, depth + 1⟩ :: rs) segs) :
    ∃ pre w post, a = pre ++ w ++ post ∧ base = pre.length ∧ n = w.length
      ∧ SameAbove (depth + 1) w
      ∧ ∀ B : Nat → List α, (∀ d, d < 256 → (B d).Perm (bucket (orderByte depth) w d)) →
        ∃ segs', Cover a₀ (pre ++ blocks 256 B ++ post)
          ((List.range 256).map (fun d => ⟨base + offset (fun e => (B e).length) d, (B d).length, depth⟩)
            ++ rs) segs' := by
  obtain ⟨pre, w, post, harray, hbase, hn, hsame, hmid⟩ := h.replace
  refine ⟨contents pre, w, contents post, harray, hbase, hn, hsame, fun B hB => ?_⟩
  have hcontents : ∀ m, contents ((List.range m).map fun d => (⟨B d, some depth⟩ : Seg α))
      = blocks m B := by
    intro m
    rw [contents, List.flatMap_map]
    rfl
  have hranges : ∀ m, rangesOf base ((List.range m).map fun d => (⟨B d, some depth⟩ : Seg α))
      = (List.range m).map fun d => ⟨base + offset (fun e => (B e).length) d, (B d).length, depth⟩ := by
    intro m
    induction m with
    | zero => rfl
    | succ m ih =>
        rw [List.range_succ, List.map_append, rangesOf_append, ih, hcontents, length_blocks,
          List.map_append]
        rfl
  have hmem : ∀ d, d < 256 → ∀ x ∈ B d, x ∈ w ∧ orderByte depth x = d := fun d hd x hx =>
    ⟨(List.mem_filter.mp ((hB d hd).mem_iff.mp hx)).1, digit_of_mem_bucket ((hB d hd).mem_iff.mp hx)⟩
  have hcover := hmid ((List.range 256).map fun d => ⟨B d, some depth⟩)
    (by rw [hcontents]; exact blocks_buckets_perm hB)
    (by
      intro s hs
      obtain ⟨d, hd, rfl⟩ := List.mem_map.mp hs
      exact hsame.bucket (hB d (List.mem_range.mp hd)))
    (by
      refine List.pairwise_map.mpr (List.pairwise_lt_range.imp_of_mem fun hd he hde x hx y hy => ?_)
      obtain ⟨hxw, hxd⟩ := hmem _ (List.mem_range.mp hd) x hx
      obtain ⟨hyw, hye⟩ := hmem _ (List.mem_range.mp he) y hy
      exact value_le_of_byte_lt hsame hxw hyw (by rw [hxd, hye]; exact hde))
  rw [hcontents, hranges] at hcover
  exact ⟨_, hcover⟩

theorem Cover.sorted {a₀ a : List α} {segs : List (Seg α)} (h : Cover a₀ a [] segs) :
    Ascending SubInt.value a := by
  have hnone : ∀ b (segs : List (Seg α)), rangesOf b segs = [] → ∀ s ∈ segs, s.bytes = none := by
    intro b segs
    induction segs generalizing b with
    | nil => exact fun _ s hs => by cases hs
    | cons t segs ih =>
        intro hnil s hs
        rw [rangesOf, List.append_eq_nil_iff] at hnil
        rcases List.mem_cons.mp hs with rfl | hs
        · cases hbytes : s.bytes with
          | none => rfl
          | some bytes =>
              rw [hbytes] at hnil
              cases hnil.1
        · exact ih _ hnil.2 s hs
  have hbytes := hnone 0 segs h.ranges.eq_nil
  rw [h.array, contents, List.flatMap_def]
  refine List.pairwise_flatten.mpr ⟨fun xs hxs => ?_, ?_⟩
  · obtain ⟨s, hs, rfl⟩ := List.mem_map.mp hxs
    have hok := h.ok s hs
    rw [Seg.Ok, hbytes s hs] at hok
    exact hok
  · exact List.pairwise_map.mpr h.below

theorem Cover.whole (a : List α) :
    Cover a a [⟨0, a.length, SubInt.topByte α + 1⟩] [⟨a, some (SubInt.topByte α + 1)⟩] := by
  refine ⟨by simp [contents], List.Perm.refl a, fun s hs => ?_, List.pairwise_singleton _ _, List.Perm.refl _⟩
  rw [List.mem_singleton] at hs
  subst hs
  exact SameAbove.top a

/-! ## The invariant -/

/-- The ranges a call has not dealt with. -/
def FlagWork.ranges : FlagWork → List Range
  | .run f => [⟨f.base, f.n, f.depth + 1⟩]
  | .buckets f start cnt b =>
      (List.range' b (256 - b)).map fun d => ⟨f.base + start.getD d 0, cnt.getD d 0, f.depth⟩

def FlagWork.Ok : FlagWork → Prop
  | .run _ => True
  | .buckets f start cnt b => start.length = 256 ∧ cnt.length = 256 ∧ b ≤ 256 ∧ 0 < f.depth

/-- The array is sorted but for the ranges of the pending calls. -/
def Covered (a₀ a : List α) (pending : List FlagWork) : Prop :=
  (∃ segs, Cover a₀ a (pending.flatMap FlagWork.ranges) segs) ∧ ∀ w ∈ pending, w.Ok

theorem Cover.perm_ranges {a₀ a : List α} {rs rs' : List Range} {segs : List (Seg α)}
    (h : Cover a₀ a rs segs) (hrs : rs.Perm rs') : Cover a₀ a rs' segs :=
  ⟨h.array, h.perm, h.ok, h.below, h.ranges.trans hrs⟩

theorem Cover.settle_step {a₀ a : List α} {r : Range} {rs : List Range} {segs : List (Seg α)}
    {f : List α → Option (List α)} (h : Cover a₀ a (r :: rs) segs)
    (hf : ∀ w, SameAbove r.bytes w → ∃ w', f w = some w' ∧ StableSort SubInt.value w w') :
    ∃ a' segs', onWindow a r.base r.n f = some a' ∧ Cover a₀ a' rs segs' := by
  obtain ⟨pre, w, post, rfl, hbase, hn, hsame, hsettle⟩ := h.settle
  obtain ⟨w', hw', hsort⟩ := hf w hsame
  obtain ⟨segs', hcover⟩ := hsettle w' hsort
  exact ⟨pre ++ w' ++ post, segs', onWindow_append hbase hn hw' hsort.length_eq, hcover⟩

theorem Cover.passed {a₀ a : List α} {f : Frame} {rs : List Range} {segs : List (Seg α)}
    (h : Cover a₀ a (⟨f.base, f.n, f.depth + 1⟩ :: rs) segs) :
    ∃ pre w post, a = pre ++ w ++ post ∧ f.base = pre.length ∧ f.n = w.length
      ∧ ∃ B, rpPass (orderByte f.depth) w = some (blocks 256 B, starts B, counts B)
        ∧ (blocks 256 B).length = w.length
        ∧ ∃ segs', Cover a₀ (pre ++ blocks 256 B ++ post)
          (if f.depth = 0 then rs else FlagWork.ranges (.buckets f (starts B) (counts B) 0) ++ rs)
          segs' := by
  have hbyte : ∀ x : α, orderByte f.depth x < 256 := fun x => byteOf_lt _ f.depth
  by_cases hlast : f.depth = 0
  · obtain ⟨pre, w, post, harray, hbase, hn, hsame, hsettle⟩ := h.settle
    obtain ⟨B, hpass, hperm⟩ := rpPass_spec hbyte w
    refine ⟨pre, w, post, harray, hbase, hn, B, hpass, (blocks_buckets_perm hperm).length_eq, ?_⟩
    rw [if_pos hlast]
    rw [hlast] at hsame hperm
    exact hsettle _ (stableSort_lastByte hsame hperm)
  · obtain ⟨pre, w, post, harray, hbase, hn, -, hcut⟩ := h.cut
    obtain ⟨B, hpass, hperm⟩ := rpPass_spec hbyte w
    refine ⟨pre, w, post, harray, hbase, hn, B, hpass, (blocks_buckets_perm hperm).length_eq, ?_⟩
    have hranges : FlagWork.ranges (.buckets f (starts B) (counts B) 0)
        = (List.range 256).map fun d =>
          ⟨f.base + offset (fun e => (B e).length) d, (B d).length, f.depth⟩ := by
      rw [FlagWork.ranges, ← List.range_eq_range']
      refine List.map_congr_left fun d hd => ?_
      rw [List.mem_range] at hd
      rw [starts, counts, List.getD_eq_getElem?_getD, List.getD_eq_getElem?_getD, List.getElem?_map,
        List.getElem?_map, List.getElem?_range hd]
      rfl
    rw [if_neg hlast, hranges]
    exact hcut B hperm

theorem Covered.run {a₀ a : List α} {f : Frame} {pending : List FlagWork}
    (h : Covered a₀ a (.run f :: pending)) :
    ∃ a' act, rpFrameStep a (.run f) = some (a', act)
      ∧ Covered a₀ a' (act.pending (rpFrame (α := α)) ++ pending) := by
  obtain ⟨⟨segs, hcover⟩, hok⟩ := h
  have hok' : ∀ w ∈ pending, w.Ok := fun w hw => hok w (List.mem_cons_of_mem _ hw)
  have hcover' : Cover a₀ a (⟨f.base, f.n, f.depth + 1⟩ :: pending.flatMap FlagWork.ranges) segs :=
    hcover
  rw [rpFrameStep]
  by_cases hsmall : f.n ≤ parIns
  · obtain ⟨a', segs', hrun, hsettled⟩ := hcover'.settle_step fun w _ => rpIns_spec w
    refine ⟨a', .done, ?_, ⟨segs', hsettled⟩, hok'⟩
    rw [if_pos hsmall, hrun]
    rfl
  · rw [if_neg hsmall]
    obtain ⟨pre, w, post, rfl, hbase, hn, hmid⟩ := hcover'.passed
    obtain ⟨B, hpass, hlen, hdone⟩ := hmid
    have hload : loadN (pre ++ w ++ post) f.base f.n = some w := loadN_append hbase hn
    have hstore : storeN (pre ++ w ++ post) f.base (blocks 256 B)
        = some (pre ++ blocks 256 B ++ post) := storeN_append hbase hlen
    rw [hload]
    show ∃ a' act, (rpPass (orderByte f.depth) w).bind _ = _ ∧ _
    rw [hpass]
    show ∃ a' act, (storeN (pre ++ w ++ post) f.base (blocks 256 B)).bind _ = _ ∧ _
    rw [hstore]
    show ∃ a' act, (if f.depth = 0 then _ else _) = _ ∧ _
    by_cases hlast : f.depth = 0
    · rw [if_pos hlast] at hdone ⊢
      exact ⟨_, _, rfl, hdone, hok'⟩
    · rw [if_neg hlast] at hdone ⊢
      refine ⟨_, _, rfl, hdone, fun w hw => ?_⟩
      rcases List.mem_cons.mp hw with rfl | hw
      · refine ⟨?_, ?_, Nat.zero_le _, Nat.pos_of_ne_zero hlast⟩
        · rw [starts, List.length_map, List.length_range]
        · rw [counts, List.length_map, List.length_range]
      · exact hok' w hw

theorem Covered.buckets {a₀ a : List α} {f : Frame} {start cnt : List Nat} {b : Nat}
    {pending : List FlagWork} (h : Covered a₀ a (.buckets f start cnt b :: pending)) :
    ∃ a' act, rpFrameStep a (.buckets f start cnt b) = some (a', act)
      ∧ Covered a₀ a' (act.pending (rpFrame (α := α)) ++ pending) := by
  obtain ⟨⟨segs, hcover⟩, hok⟩ := h
  obtain ⟨hstart, hcnt, hb, hdepth⟩ := hok _ List.mem_cons_self
  have hok' : ∀ w ∈ pending, w.Ok := fun w hw => hok w (List.mem_cons_of_mem _ hw)
  rw [rpFrameStep]
  by_cases hend : 256 ≤ b
  · rw [if_pos hend]
    refine ⟨a, .done, rfl, ⟨segs, ?_⟩, hok'⟩
    have hnone : 256 - b = 0 := by omega
    rw [List.flatMap_cons, FlagWork.ranges, hnone] at hcover
    exact hcover
  · -- bucket `b` is the first range
    have hnext : FlagWork.ranges (.buckets f start cnt b)
        = ⟨f.base + start.getD b 0, cnt.getD b 0, f.depth⟩
          :: FlagWork.ranges (.buckets f start cnt (b + 1)) := by
      obtain ⟨k, hk⟩ : ∃ k, 256 - b = k + 1 := ⟨255 - b, by omega⟩
      have hk' : 256 - (b + 1) = k := by omega
      rw [FlagWork.ranges, hk, List.range'_succ, List.map_cons, FlagWork.ranges, hk']
    have hloadCnt : load cnt b = some (cnt.getD b 0) := by
      rw [load_of_lt (by omega), List.getD_eq_getElem?_getD, List.getElem?_eq_getElem (by omega)]
      rfl
    have hloadStart : load start b = some (start.getD b 0) := by
      rw [load_of_lt (by omega), List.getD_eq_getElem?_getD, List.getElem?_eq_getElem (by omega)]
      rfl
    have hokNext : ∀ w ∈ FlagWork.buckets f start cnt (b + 1) :: pending, w.Ok := by
      intro w hw
      rcases List.mem_cons.mp hw with rfl | hw
      · exact ⟨hstart, hcnt, by omega, hdepth⟩
      · exact hok' w hw
    rw [List.flatMap_cons, hnext, List.cons_append] at hcover
    rw [if_neg hend, hloadCnt, hloadStart]
    generalize cnt.getD b 0 = c at *
    generalize start.getD b 0 = s at *
    show ∃ a' act, (if c ≤ 1 then _ else _) = _ ∧ _
    by_cases hshort : c ≤ 1
    · rw [if_pos hshort]
      obtain ⟨pre, w, post, rfl, -, hn, -, hsettle⟩ := hcover.settle
      have hc : c = w.length := hn
      obtain ⟨segs', hcover'⟩ := hsettle w (stableSort_short _ (by omega))
      exact ⟨_, _, rfl, ⟨segs', hcover'⟩, hokNext⟩
    · rw [if_neg hshort]
      by_cases hpush : parMin ≤ c ∨ f.depth = SubInt.topByte α ∧ parIns < c
      · rw [if_pos hpush]
        refine ⟨_, _, rfl, ⟨segs, ?_⟩, fun w hw => ?_⟩
        · have hchild : FlagWork.ranges (.run ⟨f.base + s, c, f.depth - 1⟩)
              = [⟨f.base + s, c, f.depth⟩] := by
            rw [FlagWork.ranges]
            have hsub : f.depth - 1 + 1 = f.depth := by omega
            rw [hsub]
          show Cover a₀ a (FlagWork.ranges (.run ⟨f.base + s, c, f.depth - 1⟩)
            ++ (FlagWork.ranges (.buckets f start cnt (b + 1)) ++ pending.flatMap FlagWork.ranges)) segs
          rw [hchild]
          exact hcover
        · rcases List.mem_cons.mp hw with rfl | hw
          · trivial
          · exact hokNext w hw
      · rw [if_neg hpush]
        obtain ⟨a', segs', hrun, hcover'⟩ := hcover.settle_step fun w hw => rpSerial_spec f.depth w hw
        refine ⟨a', .cont (.buckets f start cnt (b + 1)), ?_, ⟨segs', hcover'⟩, hokNext⟩
        rw [hrun]
        rfl

/-- **The frame function keeps the cover.** -/
theorem rpFrame_keeps (a₀ : List α) : (rpFrame (α := α)).Keeps (Covered a₀) := by
  constructor
  · rintro a P Q hPQ ⟨⟨segs, hcover⟩, hok⟩
    exact ⟨⟨segs, hcover.perm_ranges (hPQ.flatMap_right _)⟩, fun w hw => hok w (hPQ.mem_iff.mpr hw)⟩
  · intro a w P h
    cases w with
    | run f => exact h.run
    | buckets f start cnt b => exact h.buckets

theorem two_le_frameWeight (depth : Nat) : 2 ≤ frameWeight depth := by
  cases depth with
  | zero => exact Nat.le_refl 2
  | succ depth =>
      rw [frameWeight]
      omega

theorem rpFrame_shrinks : (rpFrame (α := α)).Shrinks FlagWork.weight := by
  intro a w a' act hstep
  cases w with
  | run f =>
      have htwo := two_le_frameWeight f.depth
      have hstep' : rpFrameStep a (.run f) = some (a', act) := hstep
      show _ < frameWeight f.depth
      rw [rpFrameStep] at hstep'
      split at hstep'
      · obtain ⟨_, -, hdone⟩ := Option.bind_eq_some_iff.mp hstep'
        obtain ⟨-, rfl⟩ := Prod.mk.inj (Option.some.inj hdone)
        exact htwo
      · obtain ⟨_, -, hstep'⟩ := Option.bind_eq_some_iff.mp hstep'
        obtain ⟨⟨_, start, cnt⟩, -, hstep'⟩ := Option.bind_eq_some_iff.mp hstep'
        obtain ⟨_, -, hstep'⟩ := Option.bind_eq_some_iff.mp hstep'
        split at hstep'
        · obtain ⟨-, rfl⟩ := Prod.mk.inj (Option.some.inj hstep')
          exact htwo
        · rename_i hdepth
          obtain ⟨-, rfl⟩ := Prod.mk.inj (Option.some.inj hstep')
          obtain ⟨depth, hd⟩ := Nat.exists_eq_succ_of_ne_zero hdepth
          show 256 * (frameWeight (f.depth - 1) + 3) + 2 < _
          rw [hd, frameWeight]
          exact Nat.lt_succ_self _
  | buckets f start cnt b =>
      have hstep' : rpFrameStep a (.buckets f start cnt b) = some (a', act) := hstep
      rw [rpFrameStep] at hstep'
      show _ < (256 - b) * (frameWeight (f.depth - 1) + 3) + 2
      split at hstep'
      · obtain ⟨-, rfl⟩ := Prod.mk.inj (Option.some.inj hstep')
        show 1 < _
        omega
      · obtain ⟨k, hk⟩ : ∃ k, 256 - b = k + 1 := ⟨255 - b, by omega⟩
        have hk' : 256 - (b + 1) = k := by omega
        obtain ⟨c, -, hstep'⟩ := Option.bind_eq_some_iff.mp hstep'
        obtain ⟨s, -, hstep'⟩ := Option.bind_eq_some_iff.mp hstep'
        rw [hk, Nat.succ_mul]
        have hcont : FlagWork.weight (.buckets f start cnt (b + 1))
            = k * (frameWeight (f.depth - 1) + 3) + 2 := by
          rw [FlagWork.weight, hk']
        split at hstep'
        · obtain ⟨-, rfl⟩ := Prod.mk.inj (Option.some.inj hstep')
          show FlagWork.weight (.buckets f start cnt (b + 1)) < _
          omega
        · split at hstep'
          · obtain ⟨-, rfl⟩ := Prod.mk.inj (Option.some.inj hstep')
            show frameWeight (f.depth - 1) + 2 + FlagWork.weight (.buckets f start cnt (b + 1)) < _
            omega
          · obtain ⟨_, -, hstep'⟩ := Option.bind_eq_some_iff.mp hstep'
            obtain ⟨-, rfl⟩ := Prod.mk.inj (Option.some.inj hstep')
            show FlagWork.weight (.buckets f start cnt (b + 1)) < _
            omega

/-! ## The sort -/

theorem Covered.start (a : List α) : Covered a a [.run ⟨0, a.length, SubInt.topByte α⟩] :=
  ⟨⟨_, Cover.whole a⟩, fun w hw => by rw [List.mem_singleton] at hw; subst hw; trivial⟩

theorem Covered.finish {a₀ a : List α} (h : Covered a₀ a []) : StableSort SubInt.value a₀ a := by
  obtain ⟨⟨segs, hcover⟩, -⟩ := h
  exact SubInt.stableSort hcover.perm hcover.sorted

/-- **`sub_radix_sort_par`** sorts under every schedule. -/
theorem subRadixSortPar_spec (sched : Schedule) (workers : Nat) (arr : List α) :
    ∃ out, subRadixSortPar sched workers arr = some out ∧ StableSort SubInt.value arr out := by
  rw [subRadixSortPar]
  split
  · exact ⟨arr, rfl, stableSort_short _ ‹_›⟩
  · split
    · exact rpSerial_spec _ arr (SameAbove.top arr)
    · split
      · exact rpSerial_spec _ arr (SameAbove.top arr)
      · obtain ⟨out, hrun, hend⟩ := subDfsRun_spec (rpFrame_keeps arr) rpFrame_shrinks sched workers
          (Covered.start arr)
        exact ⟨out, hrun, hend.finish⟩

/-! ## What is outstanding -/

/-- The array while ranges are outstanding, against the sorted array. -/
structure Unsorted (sorted a : List α) (rs : List Range) : Prop where
  disjoint : rs.Pairwise fun r s => r.base + r.n ≤ s.base ∨ s.base + s.n ≤ r.base
  bound : ∀ r ∈ rs, r.base + r.n ≤ a.length
  /-- what no range covers is in its final place -/
  settled : ∀ i, (∀ r ∈ rs, ¬ (r.base ≤ i ∧ i < r.base + r.n)) → a[i]? = sorted[i]?
  /-- a range has the elements that belong there -/
  range : ∀ r ∈ rs, ((a.drop r.base).take r.n).Perm ((sorted.drop r.base).take r.n)

def Seg.sort (s : Seg α) : Seg α := ⟨(rpIns s.content).getD s.content, s.bytes⟩

theorem Seg.sort_spec (s : Seg α) : StableSort SubInt.value s.content s.sort.content := by
  obtain ⟨out, hout, hsort⟩ := rpIns_spec s.content
  rw [Seg.sort, hout]
  exact hsort

theorem length_contents_sort (segs : List (Seg α)) :
    (contents (segs.map Seg.sort)).length = (contents segs).length := by
  induction segs with
  | nil => rfl
  | cons s segs ih =>
      rw [List.map_cons, contents_cons, contents_cons, List.length_append, List.length_append, ih,
        s.sort_spec.length_eq]

theorem Cover.sort {a₀ a : List α} {rs : List Range} {segs : List (Seg α)}
    (h : Cover a₀ a rs segs) : StableSort SubInt.value a₀ (contents (segs.map Seg.sort)) := by
  have hperm : ∀ segs : List (Seg α), (contents (segs.map Seg.sort)).Perm (contents segs) := by
    intro segs
    induction segs with
    | nil => exact List.Perm.refl _
    | cons s segs ih =>
        rw [List.map_cons, contents_cons, contents_cons]
        exact s.sort_spec.perm.append ih
  refine SubInt.stableSort ((hperm segs).trans (h.array ▸ h.perm)) ?_
  rw [contents, List.flatMap_def, List.map_map]
  refine List.pairwise_flatten.mpr ⟨fun xs hxs => ?_, ?_⟩
  · obtain ⟨s, -, rfl⟩ := List.mem_map.mp hxs
    exact s.sort_spec.sorted
  · refine List.pairwise_map.mpr (h.below.imp fun {s t} hst x hx y hy => ?_)
    exact hst x (s.sort_spec.perm.mem_iff.mp hx) y (t.sort_spec.perm.mem_iff.mp hy)

theorem getElem?_settled {segs : List (Seg α)} (hok : ∀ s ∈ segs, s.Ok) (b i : Nat)
    (h : ∀ r ∈ rangesOf b segs, ¬ (r.base ≤ b + i ∧ b + i < r.base + r.n)) :
    (contents segs)[i]? = (contents (segs.map Seg.sort))[i]? := by
  induction segs generalizing b i with
  | nil => rfl
  | cons s segs ih =>
      have hlen := s.sort_spec.length_eq
      rw [List.map_cons, contents_cons, contents_cons]
      by_cases hi : i < s.content.length
      · have hnone : s.bytes = none := by
          cases hbytes : s.bytes with
          | none => rfl
          | some bytes =>
              have hmem : (⟨b, s.content.length, bytes⟩ : Range) ∈ rangesOf b (s :: segs) := by
                rw [rangesOf, hbytes]
                exact List.mem_cons_self
              exact absurd ⟨Nat.le_add_right b i, Nat.add_lt_add_left hi b⟩ (h _ hmem)
        have hs := hok s List.mem_cons_self
        rw [Seg.Ok, hnone] at hs
        have hsame : s.sort.content = s.content := s.sort_spec.unique (.refl hs)
        rw [List.getElem?_append_left hi, List.getElem?_append_left (by rw [hlen]; exact hi), hsame]
      · rw [List.getElem?_append_right (by omega), List.getElem?_append_right (by omega), hlen]
        refine ih (fun t ht => hok t (List.mem_cons_of_mem _ ht)) (b + s.content.length) _ ?_
        intro r hr
        have hr' : r ∈ rangesOf b (s :: segs) := by
          rw [rangesOf]
          exact List.mem_append_right _ hr
        have hsum : b + s.content.length + (i - s.content.length) = b + i := by omega
        rw [hsum]
        exact h r hr'

theorem Cover.unsorted {a₀ a sorted : List α} {rs : List Range} {segs : List (Seg α)}
    (h : Cover a₀ a rs segs) (hsorted : StableSort SubInt.value a₀ sorted) :
    Unsorted sorted a rs := by
  have hsort : sorted = contents (segs.map Seg.sort) := hsorted.unique h.sort
  have hwindow : ∀ {pre w post : List α}, ((pre ++ w ++ post).drop pre.length).take w.length = w := by
    intro pre w post
    rw [List.append_assoc, List.drop_left, List.take_left]
  refine ⟨?_, fun r hr => ?_, fun i hi => ?_, fun r hr => ?_⟩
  · refine (h.ranges.pairwise_iff fun hrs => hrs.symm).mp ?_
    exact (rangesOf_sorted 0 segs).1.imp Or.inl
  · obtain ⟨pre, w, post, hsegs, hbase, hn⟩ := exists_seg (h.ranges.mem_iff.mpr hr)
    rw [h.array, hsegs, contents_append, contents_cons, hbase, hn]
    simp only [List.length_append]
    omega
  · rw [h.array, hsort]
    refine getElem?_settled h.ok 0 i fun r hr => ?_
    rw [Nat.zero_add]
    exact hi r (h.ranges.mem_iff.mp hr)
  · obtain ⟨pre, w, post, hsegs, hbase, hn⟩ := exists_seg (h.ranges.mem_iff.mpr hr)
    have hw := Seg.sort_spec (⟨w, some r.bytes⟩ : Seg α)
    have hpre : (contents (pre.map Seg.sort)).length = r.base := by
      rw [length_contents_sort, hbase, Nat.zero_add]
    rw [hsort, h.array, hsegs, List.map_append, List.map_cons, contents_append, contents_append,
      contents_cons, contents_cons, ← List.append_assoc, ← List.append_assoc]
    have hleft : ((contents pre ++ w ++ contents post).drop r.base).take r.n = w := by
      rw [hbase, Nat.zero_add, hn]
      exact hwindow
    have hright : ((contents (pre.map Seg.sort) ++ (Seg.sort ⟨w, some r.bytes⟩).content
        ++ contents (post.map Seg.sort)).drop r.base).take r.n
        = (Seg.sort ⟨w, some r.bytes⟩).content := by
      rw [← hpre, hn, ← hw.length_eq]
      exact hwindow
    rw [hleft, hright]
    exact hw.perm.symm

/-- The ranges that are outstanding: those of the frames in the deques and of
the calls that have not returned. -/
def outstanding (nw : Nat) (p : Pool (List α) Frame FlagWork) : List Range :=
  (p.pending (rpFrame (α := α)) nw).flatMap FlagWork.ranges

end

section
variable {α : Type} [SubRadix α]

/-- **The pool of the parallel radix sort**, in every state that a run reaches:
the outstanding ranges are the segments of the array that are not sorted yet,
everything else is where the serial radix sort puts it, no step leaves the
array, and a worker only leaves when the array is what the serial radix sort
gives. -/
theorem rpFrame_runs (mem : RadixMem (SubRadix.Word α)) (nw : Nat) (arr : List α)
    (p : Pool (List α) Frame FlagWork)
    (hreach : Relation.ReflTransGen (Pool.Step rpFrame nw)
      (Pool.init arr ⟨0, arr.length, SubInt.topByte α⟩) p) :
    ∃ sorted, SubRadix.subRadixSort mem arr = some sorted
      ∧ sorted.Perm arr ∧ (sorted.Pairwise fun x y => SubInt.value x ≤ SubInt.value y)
      ∧ (∃ segs, Cover arr p.shared (outstanding nw p) segs)
      ∧ Unsorted sorted p.shared (outstanding nw p)
      ∧ (∀ w, p.gone w = true → p.shared = sorted)
      ∧ (∀ m ∈ p.moves nw, ∃ q, p.move rpFrame m = some q)
      ∧ ∀ sched workers, subRadixSortPar sched workers arr = some sorted := by
  obtain ⟨sorted, hserial, hsorted⟩ := SubRadix.subRadixSort_spec mem arr
  have hE := rpFrame_keeps (α := α) arr
  have hgood := (Pool.Good.init (Covered.start arr)).reach hE hreach
  obtain ⟨⟨segs, hcover⟩, -⟩ := hgood.keeps
  refine ⟨sorted, hserial, hsorted.perm, hsorted.sorted, ⟨segs, hcover⟩, hcover.unsorted hsorted,
    fun w hw => ?_, fun m hm => ?_, fun sched workers => ?_⟩
  · have hzero := hgood.gone w hw
    have hactive := hgood.active
    have hframes : p.frames = [] := List.eq_nil_of_length_eq_zero (by omega)
    have hcalls : blocks nw p.calls = [] := List.eq_nil_of_length_eq_zero (by omega)
    have hkeeps := hgood.keeps
    rw [Pool.pending, hframes, hcalls] at hkeeps
    exact hkeeps.finish.unique hsorted
  · obtain ⟨q, hq, -⟩ := hgood.move hE hm
    exact ⟨q, hq⟩
  · obtain ⟨out, hout, hsort⟩ := subRadixSortPar_spec sched workers arr
    rw [hout, hsort.unique hsorted]

/-- Worker 0 has taken the root frame of an array of two. -/
theorem rpFrame_runs_take :
    ∃ sorted, SubRadix.subRadixSort (⟨true, some fun _ => 0⟩ : RadixMem UInt64) [(3 : Int64), -1]
        = some sorted
      ∧ Unsorted sorted [3, -1] (outstanding 1
        ((Pool.init [(3 : Int64), -1] (⟨0, 2, 7⟩ : Frame)).setStack 0
          [.work (FlagWork.run ⟨0, 2, 7⟩)] |>.withFrames [])) := by
  obtain ⟨sorted, hserial, -, -, -, hunsorted, -⟩ :=
    rpFrame_runs (⟨true, some fun _ => 0⟩ : RadixMem UInt64) 1 [(3 : Int64), -1]
      ((Pool.init [(3 : Int64), -1] (⟨0, 2, 7⟩ : Frame)).setStack 0
        [.work (FlagWork.run ⟨0, 2, 7⟩)] |>.withFrames [])
      (Relation.ReflTransGen.single
        ⟨.take 0 0, by simp [Pool.moves, Pool.movesOf, Pool.init], rfl⟩)
  exact ⟨sorted, hserial, hunsorted⟩

end

end Montauk.Sort
