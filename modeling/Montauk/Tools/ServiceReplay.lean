import Montauk.Tools.Analysis

/-!
# Slices and services

`slice` and `service` measure the same time: the one reads the timeline of the
driver, the other keeps picks of its own, and both come to the slices that the
active picks of each CPU make in order (`slice_service_agree`).
-/

namespace Montauk.Tools

open Scan Timeline Trace

variable {F : Type} (env : ReportEnv F)

/-! ## The slices of a stream -/

def picksOn (cpu : UInt32) (trace : List TraceRecord) : List SchedEvent :=
  orderBy SchedEvent.timestampNs
    (((schedEvents trace).filter fun e => e.op = activeOp trace).filter fun e => e.cpu = cpu)

def spanNs (p : SchedEvent × SchedEvent) : UInt64 := p.2.timestampNs - p.1.timestampNs

/-- The slices of a CPU, each with the picks it lies between. -/
def slicesOn (cpu : UInt32) (trace : List TraceRecord) : List (SchedEvent × SchedEvent) :=
  (neighbours (picksOn cpu trace)).filter fun p => 0 < spanNs p && spanNs p < kStrandNs

def pickCpus (trace : List TraceRecord) : List UInt32 :=
  (((schedEvents trace).filter fun e => e.op = activeOp trace).map SchedEvent.cpu).eraseDups

def slices (trace : List TraceRecord) : List (SchedEvent × SchedEvent) :=
  (pickCpus trace).flatMap fun cpu => slicesOn cpu trace

def sumNs (v : List UInt64) : UInt64 := v.foldl (· + ·) 0

/-- What the two reports are to hold of a stream. -/
structure SliceAccount (trace : List TraceRecord) (sub : SchedSubstrate) (s : ServiceReport) : Prop where
  held : (activeSlices sub.picks.active).map sliceNs = (slices trace).map spanNs
  pids : (s.byPid.map Prod.fst).Nodup
  service : ∀ pid, (rowOf pid s.byPid).getD 0
    = sumNs (((slices trace).filter fun p => p.1.pid = pid).map spanNs)
  sum : sumNs (sorted ((activeSlices sub.picks.active).map sliceNs)) = sumNs (sorted (s.byPid.map Prod.snd))
  exact : ((slices trace).map fun p => (spanNs p).toNat).sum < 2 ^ 64 →
    (s.byPid.map fun r => r.2.toNat).sum = ((slices trace).map fun p => (spanNs p).toNat).sum
  cpus : (pickCpus trace).Nodup
  disjoint : ∀ cpu, (slicesOn cpu trace).Pairwise fun p q => p.2.timestampNs ≤ q.1.timestampNs
  interval : ∀ cpu, ∀ p ∈ slicesOn cpu trace, p.1.timestampNs < p.2.timestampNs

/-! ## Sums -/

theorem sumNs_perm {v w : List UInt64} (h : v.Perm w) : sumNs v = sumNs w := h.foldl_op_eq

theorem sumNs_sorted (v : List UInt64) : sumNs (sorted v) = sumNs v := sumNs_perm (List.mergeSort_perm _ _)

theorem toNat_sumNs (v : List UInt64) : (sumNs v).toNat = (v.map UInt64.toNat).sum % 2 ^ 64 := by
  have hfold : ∀ (v : List UInt64) (n : UInt64),
      (v.foldl (· + ·) n).toNat = (n.toNat + (v.map UInt64.toNat).sum) % 2 ^ 64 := by
    intro v
    induction v with
    | nil => exact fun n => (Nat.mod_eq_of_lt n.toNat_lt).symm
    | cons a v ih =>
      intro n
      rw [List.foldl_cons, ih, UInt64.toNat_add, List.map_cons, List.sum_cons, Nat.mod_add_mod, Nat.add_assoc]
  rw [sumNs, hfold]
  exact congrArg (· % 2 ^ 64) (Nat.zero_add _)

theorem sum_map_mod {α : Type} (w : α → Nat) (n : Nat) (l : List α) :
    (l.map fun a => w a % n).sum % n = (l.map w).sum % n := by
  induction l with
  | nil => rfl
  | cons a l ih => rw [List.map_cons, List.sum_cons, List.map_cons, List.sum_cons, Nat.mod_add_mod, Nat.add_mod, ih,
      ← Nat.add_mod]

theorem sum_filters {α κ : Type} [DecidableEq κ] (key : α → κ) (w : α → Nat) (l : List α) {ks : List κ}
    (hks : ks.Nodup) (hall : ∀ a ∈ l, key a ∈ ks) :
    (ks.map fun k => ((l.filter fun a => key a = k).map w).sum).sum = (l.map w).sum := by
  have hflat : ∀ (ks : List κ) (g : κ → List α),
      (ks.map fun k => ((g k).map w).sum).sum = ((ks.flatMap g).map w).sum := by
    intro ks g
    induction ks with
    | nil => rfl
    | cons k ks ih => rw [List.map_cons, List.sum_cons, ih, List.flatMap_cons, List.map_append, List.sum_append_nat]
  rw [hflat]
  exact ((flatMap_filter_perm key l hks hall).map w).sum_nat

/-! ## What the reports read -/

theorem orderBy_map {α β : Type} {key : β → UInt64} {key' : α → UInt64} {f : α → β} (hkey : ∀ a, key (f a) = key' a)
    (l : List α) : orderBy key (l.map f) = (orderBy key' l).map f := by
  refine (List.map_mergeSort fun a _ b _ => ?_).symm
  rw [hkey, hkey]

theorem cpuRows_active {β : Type} (val : SchedEvent → β) (trace : List TraceRecord) :
    cpuRows (activeOp trace) val trace = (pickCpus trace).map fun cpu =>
      (cpu, (((schedEvents trace).filter fun e => e.op = activeOp trace).filter fun e => e.cpu = cpu).map val) :=
  foldl_push ..

theorem activeSlices_eq {val : SchedEvent → Pk} (hts : ∀ e, (val e).ts = e.timestampNs) (trace : List TraceRecord) :
    activeSlices (CpuPickTimeline.inOrder (cpuRows (activeOp trace) val trace))
      = (slices trace).map (Prod.map val val) := by
  rw [cpuRows_active, CpuPickTimeline.inOrder, activeSlices, List.map_map, List.flatMap_map, slices, List.map_flatMap]
  refine congrArg (List.flatMap · (pickCpus trace)) (funext fun cpu => ?_)
  have hslice : ∀ p : SchedEvent × SchedEvent,
      (isSlice ∘ Prod.map val val) p = (0 < spanNs p && spanNs p < kStrandNs : Bool) := by
    intro p
    rw [Function.comp_apply, isSlice, sliceNs, Prod.map_fst, Prod.map_snd, hts, hts, spanNs]
  dsimp only [Function.comp_apply]
  rw [orderBy_map hts, neighbours_map, List.filter_map, slicesOn, picksOn]
  exact congrArg (List.map _) (List.filter_congr fun p _ => hslice p)

/-- What `service` adds up: each slice, to the process of its first pick. -/
theorem served_eq (trace : List TraceRecord) :
    (cpuRows (activeOp trace) (fun e => (e.timestampNs, e.pid)) trace).flatMap
        (fun r => (neighbours (orderBy Prod.fst r.2)).filterMap served)
      = (slices trace).map fun p => (p.1.pid, spanNs p) := by
  rw [cpuRows_active, List.flatMap_map, slices, List.map_flatMap]
  refine congrArg (List.flatMap · (pickCpus trace)) (funext fun cpu => ?_)
  have horder : ∀ l : List SchedEvent, orderBy Prod.fst (l.map fun e => (e.timestampNs, e.pid))
      = (orderBy SchedEvent.timestampNs l).map fun e => (e.timestampNs, e.pid) :=
    orderBy_map fun _ => rfl
  dsimp only
  rw [horder, neighbours_map, List.filterMap_map, slicesOn, picksOn, ← List.filterMap_eq_map, List.filterMap_filter]
  refine List.filterMap_congr fun p _ => ?_
  rw [Function.comp_apply, served]
  refine if_congr ?_ rfl rfl
  rw [Bool.and_eq_true, decide_eq_true_eq, decide_eq_true_eq]
  exact Iff.rfl

/-! ## The services -/

section

variable {env} {trace : List TraceRecord}

theorem byPid_eq : (analyze env trace).service.byPid
    = ((slices trace).map fun p => (p.1.pid, spanNs p)).foldl (fun t p => adjust p.1 0 (· + p.2) t) [] := by
  rw [ServiceReport.byPid, service_rows, served_eq]

theorem foldl_served (pid : Int32) :
    (((slices trace).map fun p => (p.1.pid, spanNs p)).filter fun p => p.1 = pid).foldl (fun a p => a + p.2) 0
      = sumNs (((slices trace).filter fun p => p.1.pid = pid).map spanNs) := by
  rw [List.filter_map, List.foldl_map, sumNs, List.foldl_map]
  rfl

theorem nodup_byPid : ((analyze env trace).service.byPid.map Prod.fst).Nodup := by
  rw [byPid_eq]
  exact nodup_foldl_adjust ..

theorem rowOf_byPid (pid : Int32) : (rowOf pid (analyze env trace).service.byPid).getD 0
    = sumNs (((slices trace).filter fun p => p.1.pid = pid).map spanNs) := by
  rw [byPid_eq, ← foldl_served]
  exact getD_rowOf_foldl_adjust Prod.fst 0 (fun p a => a + p.2) _ pid

theorem mem_byPid {r : Int32 × UInt64} (hr : r ∈ (analyze env trace).service.byPid) :
    r.2 = sumNs (((slices trace).filter fun p => p.1.pid = r.1).map spanNs) := by
  rw [byPid_eq] at hr
  rw [← foldl_served]
  exact (mem_foldl_adjust.mp hr).2

theorem pid_mem_byPid {p : SchedEvent × SchedEvent} (hp : p ∈ slices trace) :
    p.1.pid ∈ (analyze env trace).service.byPid.map Prod.fst := by
  rw [byPid_eq]
  exact mem_keys_foldl_adjust.mpr ⟨(p.1.pid, spanNs p), List.mem_map_of_mem hp, rfl⟩

theorem map_byPid {β : Type} (f : UInt64 → β) :
    (analyze env trace).service.byPid.map (fun r => f r.2)
      = ((analyze env trace).service.byPid.map Prod.fst).map fun pid =>
          f (sumNs (((slices trace).filter fun p => p.1.pid = pid).map spanNs)) := by
  rw [List.map_map]
  exact List.map_congr_left fun r hr => congrArg f (mem_byPid hr)

/-- The slices of the processes together weigh what all slices weigh. -/
theorem sum_byPid :
    (((analyze env trace).service.byPid.map Prod.fst).map fun pid =>
        (((slices trace).filter fun p => p.1.pid = pid).map fun p => (spanNs p).toNat).sum).sum
      = ((slices trace).map fun p => (spanNs p).toNat).sum :=
  sum_filters (fun p : SchedEvent × SchedEvent => p.1.pid) (fun p => (spanNs p).toNat) (slices trace) nodup_byPid
    fun _ hp => pid_mem_byPid hp

theorem toNat_sumNs_map {α : Type} (f : α → UInt64) (l : List α) :
    (sumNs (l.map f)).toNat = (l.map fun a => (f a).toNat).sum % 2 ^ 64 := by
  rw [toNat_sumNs, List.map_map]
  rfl

theorem sumNs_byPid : sumNs ((analyze env trace).service.byPid.map Prod.snd) = sumNs ((slices trace).map spanNs) := by
  refine UInt64.toNat_inj.mp ?_
  rw [toNat_sumNs_map, toNat_sumNs_map, map_byPid]
  simp only [toNat_sumNs_map]
  rw [sum_map_mod, sum_byPid]

theorem sum_byPid_exact (hfit : ((slices trace).map fun p => (spanNs p).toNat).sum < 2 ^ 64) :
    ((analyze env trace).service.byPid.map fun r => r.2.toNat).sum
      = ((slices trace).map fun p => (spanNs p).toNat).sum := by
  rw [map_byPid, ← @sum_byPid F env trace]
  refine congrArg List.sum (List.map_congr_left fun pid _ => ?_)
  rw [toNat_sumNs_map]
  refine Nat.mod_eq_of_lt (Nat.lt_of_le_of_lt ?_ hfit)
  have hsplit := ((List.filter_append_perm (fun p => decide (p.1.pid = pid)) (slices trace)).map
    fun p => (spanNs p).toNat).sum_nat
  rw [List.map_append, List.sum_append_nat] at hsplit
  exact hsplit ▸ Nat.le_add_right _ _

end

/-! ## The intervals -/

theorem pairwise_slicesOn (cpu : UInt32) (trace : List TraceRecord) :
    (slicesOn cpu trace).Pairwise fun p q => p.2.timestampNs ≤ q.1.timestampNs :=
  (pairwise_neighbours (R := fun a b : SchedEvent => a.timestampNs ≤ b.timestampNs)
    (fun _ => UInt64.le_refl _) (pairwise_orderBy SchedEvent.timestampNs _)).sublist List.filter_sublist

theorem lt_of_mem_slicesOn {cpu : UInt32} {trace : List TraceRecord} {p : SchedEvent × SchedEvent}
    (hp : p ∈ slicesOn cpu trace) : p.1.timestampNs < p.2.timestampNs := by
  obtain ⟨hmem, hslice⟩ := List.mem_filter.mp hp
  have hle : p.1.timestampNs ≤ p.2.timestampNs :=
    rel_of_mem_neighbours (R := fun a b : SchedEvent => a.timestampNs ≤ b.timestampNs)
      (pairwise_orderBy SchedEvent.timestampNs _) hmem
  have hpos : 0 < p.2.timestampNs - p.1.timestampNs := of_decide_eq_true (Bool.and_eq_true_iff.mp hslice).1
  refine UInt64.lt_of_le_of_ne hle fun heq => ?_
  rw [heq, UInt64.sub_self] at hpos
  exact UInt64.lt_irrefl 0 hpos

/-- **`slice` and `service` account for the same time**, from the picks or from
the switches: the sum of the slices is that of the services, each service is
the sum of the slices that begin with a pick of its process, and those of a CPU
do not overlap. -/
theorem slice_service_agree (trace : List TraceRecord) :
    SliceAccount trace (substrate env trace) (analyze env trace).service := by
  obtain ⟨val, hval, hactive⟩ := active_substrate env trace
  have hheld : (activeSlices (substrate env trace).picks.active).map sliceNs = (slices trace).map spanNs := by
    rw [hactive, activeSlices_eq fun e => (hval e).1, List.map_map]
    refine List.map_congr_left fun p _ => ?_
    rw [Function.comp_apply, sliceNs, Prod.map_fst, Prod.map_snd, (hval _).1, (hval _).1, spanNs]
  constructor
  · exact hheld
  · exact nodup_byPid
  · exact rowOf_byPid
  · rw [hheld, sumNs_sorted, sumNs_sorted, sumNs_byPid]
  · exact sum_byPid_exact
  · exact nodup_eraseDups _
  · exact fun cpu => pairwise_slicesOn cpu trace
  · exact fun cpu p hp => lt_of_mem_slicesOn hp

end Montauk.Tools
