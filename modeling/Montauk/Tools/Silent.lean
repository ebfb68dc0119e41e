import Montauk.Tools.Analysis

/-!
# Silent reports

A report with an empty class has no line in a golden.

Two reports return before they compose anything. `slice` and `service` have
nothing to say about a capture in which no CPU picks twice within 10 ms, and the
branches that would name the missing picks are never reached
(`publishes_slice_iff`, `publishes_service_iff`). `placement-race` never comes
to its conclusion where its loop counts to the largest number a CPU can have
(`publishes_placementRace_iff`). The other twelve always publish.
-/

namespace Montauk.Tools

open Timeline Trace
open App (spelling)

/-! ## Publishing -/

variable {F : Type} (env : ReportEnv F)

structure ReportResult.Published (r : ReportResult F) : Prop where
  klass : r.klass ≠ []
  verdict : r.verdict ≠ []

/-- The report comes to a conclusion, and a golden of the run has a line for
it. -/
def Publishes (trace : List TraceRecord) (k : ReportKind) : Prop :=
  ∃ fuel r, (analyze env trace).compute env fuel k = some r ∧ r.Published ∧
    reportLine ⟨spelling k.name, r.klass⟩ ≠ []

/-! ## What decides it -/

def Close (a b : UInt64) : Prop := a < b ∧ b - a < kStrandNs

def PicksTwice (trace : List TraceRecord) : Prop :=
  ∃ a ∈ schedEvents trace, ∃ b ∈ schedEvents trace,
    a.op = activeOp trace ∧ b.op = activeOp trace ∧ a.cpu = b.cpu ∧
      Close a.timestampNs b.timestampNs

/-- There is a wake to attribute, an idle CPU, and a record of the CPU with the
largest number there is. -/
structure Endless (trace : List TraceRecord) : Prop where
  idle : ∃ e ∈ schedEvents trace, e.op = .cpuIdle
  floored : ∃ e ∈ schedEvents trace, e.op = .wake2run ∧ kTickFloorNs ≤ e.runtimeNs
  last : ∃ e ∈ schedEvents trace, e.cpu = 0xFFFFFFFF

/-! ## Texts -/

theorem spelling_eq_nil {s : String} : spelling s = [] ↔ s = "" := by
  constructor
  · intro h
    have hbytes : s.toByteArray = "".toByteArray := ByteArray.ext (Array.toList_inj.mp h)
    exact String.toByteArray_inj.mp hbytes
  · rintro rfl
    rfl

namespace ReportResult

theorem published_setVerdict {klass : String} {text : List (List UInt8)} {r : ReportResult F}
    (hk : klass ≠ "") (ht : text.flatten ≠ []) : (r.setVerdict klass text).Published where
  klass := mt spelling_eq_nil.mp hk
  verdict := by
    intro h
    rcases List.take_eq_nil_iff.mp h with h | h
    · exact absurd h (by decide)
    · exact ht h

variable {r : ReportResult F}

theorem Published.gauge (h : r.Published) (name : String) (labels : List UInt8) (value : F) :
    (r.gauge name labels value).Published := ⟨h.klass, h.verdict⟩

theorem Published.gaugeEach (h : r.Published) {β : Type} (name : String) (rows : List β)
    (labels : β → List UInt8) (value : β → F) : (r.gaugeEach name rows labels value).Published :=
  ⟨h.klass, h.verdict⟩

theorem Published.quantiles (h : r.Published) (name : String) (qs : List (String × F)) :
    (r.quantiles name qs).Published := ⟨h.klass, h.verdict⟩

theorem Published.cond {c : Prop} [Decidable c] {r s : ReportResult F} (hr : r.Published)
    (hs : s.Published) : (if c then r else s).Published := by
  split
  · exact hr
  · exact hs

theorem Published.quantilesUnless (h : r.Published) {c : Prop} [Decidable c] (name : String)
    (qs : List (String × F)) : (if c then r else r.quantiles name qs).Published :=
  .cond h (h.quantiles name qs)

theorem Published.reportLine (h : r.Published) (name : List UInt8) :
    reportLine ⟨name, r.klass⟩ ≠ [] := by
  rw [Tools.reportLine, if_neg h.klass]
  split <;> exact List.cons_ne_nil _ _

theorem not_published_empty : ¬ ({} : ReportResult F).Published := fun h => h.klass rfl

end ReportResult

/-! ## The reports that always publish -/

open ReportResult

theorem WaitsReport.published (aggs : WaitsReport) :
    (WaitsReport.compute env aggs).Published := by
  refine .gaugeEach (.gaugeEach ?_ ..) ..
  cases aggs with
  | nil => exact published_setVerdict (by simp) (by simp [spelling_eq_nil])
  | cons row rows =>
    rw [WaitsReport.conclude]
    split
    · exact published_setVerdict (by simp) (by simp [spelling_eq_nil])
    · exact published_setVerdict (by simp) (by simp [spelling_eq_nil])

theorem SpinClass.tok_ne (c : SpinClass) : c.tok ≠ "" := by cases c <;> simp [SpinClass.tok]

theorem SpinsReport.published (s : SpinsReport) : (s.compute env).Published := by
  refine .gaugeEach (.gaugeEach ?_ ..) ..
  cases s.allRuns with
  | nil => exact published_setVerdict (by simp) (by simp [spelling_eq_nil])
  | cons run runs =>
    exact published_setVerdict (SpinClass.tok_ne _) (by simp [spelling_eq_nil])

theorem PairingReport.published (aggs : PairingReport) :
    (PairingReport.compute env aggs).Published := by
  rw [PairingReport.compute]
  split
  · exact published_setVerdict (by simp) (by simp [spelling_eq_nil])
  · refine .gaugeEach (.gaugeEach (.gaugeEach ?_ ..) ..) ..
    rw [PairingReport.conclude]
    split
    · exact published_setVerdict (by simp) (by simp [spelling_eq_nil])
    · exact published_setVerdict (by simp) (by simp [spelling_eq_nil])

theorem IowaitReport.published (s : IowaitReport) : (s.compute env).Published := by
  rw [IowaitReport.compute]
  split
  · exact published_setVerdict (by simp) (by simp [spelling_eq_nil])
  · exact published_setVerdict (by simp) (by simp [spelling_eq_nil])

theorem DoubleFreeReport.published (s : DoubleFreeReport) : (s.compute env).Published := by
  refine .gauge (.gauge (.gauge ?_ ..) ..) ..
  split
  · exact published_setVerdict (by simp) (by simp [spelling_eq_nil])
  · exact published_setVerdict (by split <;> simp) (by simp [spelling_eq_nil])

theorem StormReport.published (s : StormReport) : (s.compute env).Published := by
  rw [StormReport.compute]
  split
  · exact .gauge (published_setVerdict (by simp) (by simp [spelling_eq_nil])) ..
  · refine .gauge (.gauge (.gauge (.gauge (.gauge ?_ ..) ..) ..) ..) ..
    exact published_setVerdict (by split_ifs <;> simp) (by simp [spelling_eq_nil])

theorem bounded_ne_nil {text : List (List UInt8)} (h : text.flatten ≠ []) : bounded text ≠ [] := by
  intro hnil
  rcases List.take_eq_nil_iff.mp hnil with h511 | hflat
  · exact absurd h511 (by decide)
  · exact h hflat

theorem DispatchStallReport.published_buildVerdict (s : DispatchStallReport) (c : StallCounts)
    (censored : List UInt64) (res : ReportResult F) :
    (s.buildVerdict env c censored res).Published where
  klass := by
    refine mt spelling_eq_nil.mp ?_
    split_ifs <;> simp
  verdict := by
    refine List.append_ne_nil_of_left_ne_nil (List.append_ne_nil_of_left_ne_nil ?_ _) _
    split
    · exact bounded_ne_nil (by simp [spelling_eq_nil])
    · exact bounded_ne_nil (by simp [spelling_eq_nil])

theorem DispatchStallReport.published_gauges {res : ReportResult F} (h : res.Published)
    (c : StallCounts) (censored : List UInt64) :
    (DispatchStallReport.gauges env c censored res).Published := by
  have hcensored := Published.cond (c := censored ≠ [])
    ((h.gauge "montauk_analysis_dispatch_censored_strands" [] (env.ofNat censored.length)).gauge
      "montauk_analysis_dispatch_worst_censored_ms" [] (ms env (worstOf censored))) h
  refine .cond hcensored (.gauge (.gauge (.gauge (.cond ?_ ?_) ..) ..) ..)
  · refine .gauge (.gauge (.gauge (.gauge (.gauge (.gauge (.cond ?_ ?_) ..) ..) ..) ..) ..) ..
    · exact .gauge (.gauge (.gauge (.gauge (.gauge hcensored ..) ..) ..) ..) ..
    · exact .gauge (.gauge hcensored ..) ..
  · refine .gauge (.cond ?_ ?_) ..
    · exact .gauge (.gauge (.gauge (.gauge (.gauge hcensored ..) ..) ..) ..) ..
    · exact .gauge (.gauge hcensored ..) ..

theorem DispatchStallReport.published (s : DispatchStallReport) (sub : SchedSubstrate) :
    (s.compute env sub).Published := by
  rw [DispatchStallReport.compute]
  dsimp only
  split
  · exact s.published_buildVerdict ..
  · split
    · exact published_gauges env (s.published_buildVerdict ..) _ _
    · exact published_setVerdict (by split <;> simp) (by simp [spelling_eq_nil])

theorem KickLatencyReport.published (s : KickLatencyReport) : (s.compute env).Published := by
  rw [KickLatencyReport.compute]
  dsimp only
  split
  · exact .gauge (published_setVerdict (by simp) (by simp [spelling_eq_nil])) ..
  · refine .quantilesUnless (.gauge (.gauge (.gauge (.gauge (.gauge ?_ ..) ..) ..) ..) ..) ..
    exact published_setVerdict (by split_ifs <;> simp) (by simp [spelling_eq_nil])

theorem WakersReport.published (s : WakersReport) : (s.compute env).Published := by
  rw [WakersReport.compute]
  split
  · exact published_setVerdict (by simp) (by simp [spelling_eq_nil])
  · refine .quantiles (.quantiles (.gauge (.gauge (.gauge (.gauge ?_ ..) ..) ..) ..) ..) ..
    exact published_setVerdict (by split_ifs <;> simp) (by simp [spelling_eq_nil])

theorem FractalReport.published_conclude (out : List (SeriesOut F)) (nbins : Nat)
    (res : ReportResult F) : (FractalReport.conclude env out nbins res).Published := by
  rw [FractalReport.conclude]
  split_ifs <;> exact published_setVerdict (by simp) (by simp [spelling_eq_nil])

theorem FractalReport.published (s : FractalReport) : (s.compute env).Published := by
  rw [FractalReport.compute]
  split
  · exact published_setVerdict (by simp) (by simp [spelling_eq_nil])
  · dsimp only
    split
    · exact published_setVerdict (by simp) (by simp [spelling_eq_nil])
    · exact FractalReport.published_conclude ..

theorem KStrandReport.published (s : KStrandReport) (sub : SchedSubstrate) :
    (s.compute env sub).Published := by
  refine .gauge (.gauge ?_ ..) ..
  split
  · exact published_setVerdict (by simp) (by simp [spelling_eq_nil])
  · exact published_setVerdict (by split_ifs <;> simp) (by simp [spelling_eq_nil])

theorem LocalityReport.published (s : LocalityReport) : (s.compute env).Published := by
  rw [LocalityReport.compute]
  split
  · exact published_setVerdict (by simp) (by simp [spelling_eq_nil])
  · dsimp only
    split
    · exact published_setVerdict (by simp) (by simp [spelling_eq_nil])
    · refine .quantilesUnless (.gauge (.gauge (.gaugeEach ?_ ..) ..) ..) ..
      exact published_setVerdict (by split_ifs <;> simp) (by simp [spelling_eq_nil])

/-! ## Close picks -/

section

variable {β : Type}

theorem close_iff {a b : UInt64} :
    Close a b ↔ a.toNat < b.toNat ∧ b.toNat - a.toNat < kStrandNs.toNat := by
  rw [Close, UInt64.lt_iff_toNat_lt, UInt64.lt_iff_toNat_lt]
  refine and_congr_right fun h => ?_
  rw [UInt64.toNat_sub_of_le _ _ (UInt64.le_iff_toNat_le.mpr (Nat.le_of_lt h))]

theorem sub_close_iff {a b : UInt64} (h : a ≤ b) :
    0 < b - a ∧ b - a < kStrandNs ↔ Close a b := by
  rw [close_iff, UInt64.lt_iff_toNat_lt, UInt64.lt_iff_toNat_lt, UInt64.toNat_sub_of_le _ _ h]
  have hle := UInt64.le_iff_toNat_le.mp h
  have hzero : (0 : UInt64).toNat = 0 := rfl
  omega

/-- A row in order has two close neighbours if it has two close entries. -/
theorem exists_close_neighbours_iff (ts : β → UInt64) (row : List β) :
    (∃ p ∈ neighbours (orderBy ts row), 0 < ts p.2 - ts p.1 ∧ ts p.2 - ts p.1 < kStrandNs) ↔
      ∃ a ∈ row, ∃ b ∈ row, Close (ts a) (ts b) := by
  have hsorted := pairwise_orderBy ts row
  have htest : ∀ p ∈ neighbours (orderBy ts row),
      (0 < ts p.2 - ts p.1 ∧ ts p.2 - ts p.1 < kStrandNs ↔ Close (ts p.1) (ts p.2)) :=
    fun p hp => sub_close_iff (rel_of_mem_neighbours hsorted hp)
  have hnear := exists_neighbours_iff
    (R := fun x y => x < y ∧ y - x < kStrandNs.toNat) (fun h => h.1)
    (fun h hax hxy hyb => ⟨hxy, by omega⟩) (fun b => (ts b).toNat)
    (hsorted.imp UInt64.le_iff_toNat_le.mp)
  calc (∃ p ∈ neighbours (orderBy ts row), 0 < ts p.2 - ts p.1 ∧ ts p.2 - ts p.1 < kStrandNs)
      ↔ ∃ p ∈ neighbours (orderBy ts row), Close (ts p.1) (ts p.2) :=
        exists_congr fun p => and_congr_right (htest p)
    _ ↔ ∃ a ∈ orderBy ts row, ∃ b ∈ orderBy ts row, Close (ts a) (ts b) := by
        simp only [close_iff]
        exact hnear
    _ ↔ ∃ a ∈ row, ∃ b ∈ row, Close (ts a) (ts b) := by
        simp only [orderBy, List.mem_mergeSort]

/-- Some row has two close neighbours if the CPU has two close records. -/
theorem exists_close_row_iff {op : SchedOp} {val : SchedEvent → β} {ts : β → UInt64}
    (hts : ∀ e, ts (val e) = e.timestampNs) (trace : List TraceRecord) :
    (∃ r ∈ cpuRows op val trace, ∃ p ∈ neighbours (orderBy ts r.2),
        0 < ts p.2 - ts p.1 ∧ ts p.2 - ts p.1 < kStrandNs) ↔
      ∃ a ∈ schedEvents trace, ∃ b ∈ schedEvents trace,
        a.op = op ∧ b.op = op ∧ a.cpu = b.cpu ∧ Close a.timestampNs b.timestampNs := by
  simp only [exists_close_neighbours_iff]
  constructor
  · rintro ⟨r, hr, a, ha, b, hb, hclose⟩
    obtain ⟨-, hrow⟩ := mem_foldl_push.mp hr
    rw [hrow] at ha hb
    obtain ⟨x, hx, rfl⟩ := List.mem_map.mp ha
    obtain ⟨y, hy, rfl⟩ := List.mem_map.mp hb
    simp only [List.mem_filter, decide_eq_true_eq] at hx hy
    rw [hts, hts] at hclose
    exact ⟨x, hx.1.1, y, hy.1.1, hx.1.2, hy.1.2, hx.2.trans hy.2.symm, hclose⟩
  · rintro ⟨x, hx, y, hy, hxop, hyop, hcpu, hclose⟩
    have hmem : ∀ e ∈ schedEvents trace, e.op = op →
        e ∈ (schedEvents trace).filter fun e => e.op = op := fun e he hop =>
      List.mem_filter.mpr ⟨he, decide_eq_true hop⟩
    have hin : ∀ e ∈ schedEvents trace, e.op = op → e.cpu = x.cpu →
        val e ∈ (((schedEvents trace).filter fun e => e.op = op).filter
          fun e => e.cpu = x.cpu).map val := fun e he hop hc =>
      List.mem_map_of_mem (List.mem_filter.mpr ⟨hmem e he hop, decide_eq_true hc⟩)
    refine ⟨(x.cpu, _), mem_foldl_push.mpr ⟨⟨x, hmem x hx hxop, rfl⟩, rfl⟩, val x,
      hin x hx hxop rfl, val y, hin y hy hyop hcpu.symm, ?_⟩
    rw [hts, hts]
    exact hclose

end

/-! ## slice and service -/

theorem PlacementRaceReport.fold_idleEvt (s : PlacementRaceReport) (e : SchedEvent) :
    (s.fold (.sched e)).idleEvt =
      recordRow .cpuIdle (fun e => (e.timestampNs, decide (e.subIdx ≠ 0))) (.sched e) s.idleEvt := by
  rw [PlacementRaceReport.fold]
  dsimp only
  split
  · rename_i hidle
    rw [recordRow, if_pos hidle]
  · rename_i hidle
    rw [recordRow, if_neg hidle]
    split_ifs <;> rfl

theorem PlacementRaceReport.fold_floored (s : PlacementRaceReport) (e : SchedEvent) :
    (s.fold (.sched e)).floored = s.floored ++
      if e.op = .wake2run ∧ kTickFloorNs ≤ e.runtimeNs then [(e.wakeTs, e.cpu)] else [] := by
  rw [PlacementRaceReport.fold]
  by_cases hop : e.op = .wake2run
  · have hidle : e.op ≠ .cpuIdle := by rw [hop]; nofun
    rw [if_neg hidle, if_neg (not_not.mpr hop)]
    by_cases hlong : kTickFloorNs ≤ e.runtimeNs
    · rw [if_neg (UInt64.not_lt.mpr hlong), if_pos (And.intro hop hlong)]
    · have hno : ¬ (e.op = .wake2run ∧ kTickFloorNs ≤ e.runtimeNs) := fun h => hlong h.2
      rw [if_pos (UInt64.not_le.mp hlong), if_neg hno, List.append_nil]
  · have hno : ¬ (e.op = .wake2run ∧ kTickFloorNs ≤ e.runtimeNs) := fun h => hop h.1
    rw [if_pos hop, if_neg hno, List.append_nil]
    dsimp only
    split <;> rfl

theorem PlacementRaceReport.fold_maxCpu (s : PlacementRaceReport) (e : SchedEvent) :
    (s.fold (.sched e)).maxCpu = if s.maxCpu < e.cpu then e.cpu else s.maxCpu := by
  rw [PlacementRaceReport.fold]
  dsimp only
  split_ifs <;> rfl

theorem activeSlices_ne_nil_iff (trace : List TraceRecord) :
    activeSlices (analyze env trace).sub.finalize.picks.active ≠ [] ↔ PicksTwice trace := by
  obtain ⟨val, hval, hactive⟩ := active_substrate env trace
  have hts : ∀ e, (val e).ts = e.timestampNs := fun e => (hval e).1
  rw [substrate] at hactive
  rw [hactive]
  refine Iff.trans ?_ (exists_close_row_iff hts trace)
  simp only [activeSlices, CpuPickTimeline.inOrder, List.flatMap_map, ne_eq,
    List.flatMap_eq_nil_iff, List.filter_eq_nil_iff, isSlice, Bool.and_eq_true,
    decide_eq_true_eq, not_forall, not_not, exists_prop]
  exact Iff.rfl

theorem byPid_ne_nil_iff (trace : List TraceRecord) :
    (analyze env trace).service.byPid ≠ [] ↔ PicksTwice trace := by
  refine Iff.trans ?_ (@exists_close_row_iff _ _ (fun e => (e.timestampNs, e.pid)) Prod.fst (fun _ => rfl) trace)
  rw [ServiceReport.byPid, service_rows]
  refine (not_congr foldl_adjust_eq_nil_iff).trans ?_
  simp only [List.flatMap_eq_nil_iff, List.filterMap_eq_nil_iff, not_forall, exists_prop]
  refine exists_congr fun r => and_congr_right fun _ => exists_congr fun p =>
    and_congr_right fun _ => ?_
  rw [served]
  split
  · rename_i h
    exact iff_of_true nofun h
  · rename_i h
    exact iff_of_false (not_not.mpr rfl) h

theorem SliceReport.published_iff (sub : SchedSubstrate) :
    (SliceReport.compute env sub).Published ↔ activeSlices sub.picks.active ≠ [] := by
  rw [SliceReport.compute]
  dsimp only
  split
  · rename_i h
    exact iff_of_false not_published_empty (not_not.mpr h)
  · rename_i h
    refine iff_of_true ?_ h
    have hverdict : (SliceReport.conclude env (sorted ((activeSlices sub.picks.active).map sliceNs))
        {}).Published := by
      rw [SliceReport.conclude]
      split
      · exact published_setVerdict (by simp) (by simp [spelling_eq_nil])
      · exact published_setVerdict (by split <;> simp) (by simp [spelling_eq_nil])
    split
    · exact hverdict.quantiles ..
    · exact (hverdict.quantiles ..).gauge ..

theorem ServiceReport.published_iff (s : ServiceReport) :
    (s.compute env).Published ↔ s.byPid ≠ [] := by
  have hsvc : sorted (s.byPid.map Prod.snd) = [] ↔ s.byPid = [] := by
    rw [← List.length_eq_zero_iff, sorted, List.length_mergeSort, List.length_map,
      List.length_eq_zero_iff]
  rw [ServiceReport.compute]
  dsimp only
  split
  · rename_i h
    rw [hsvc, or_self] at h
    exact iff_of_false not_published_empty (not_not.mpr h)
  · rename_i h
    rw [not_or] at h
    refine iff_of_true ?_ h.1
    rw [if_neg h.2]
    exact published_setVerdict (by split <;> simp) (by simp [spelling_eq_nil])

/-! ## placement-race -/

theorem countCpus_endless (home : UInt32 → Bool) (fuel : Nat) (c : UInt32) (n : Nat) :
    countCpus home 0xFFFFFFFF fuel c n = none := by
  induction fuel generalizing c n with
  | zero => rfl
  | succ fuel ih =>
    have hle : c ≤ 0xFFFFFFFF := by
      have hc := c.toNat_lt
      exact UInt32.le_iff_toNat_le.mpr (by simp; omega)
    rw [countCpus, if_pos hle]
    exact ih _ _

theorem countCpus_isSome (home : UInt32 → Bool) {maxCpu : UInt32} (hmax : maxCpu ≠ 0xFFFFFFFF)
    {fuel : Nat} {c : UInt32} {n : Nat} (hc : c.toNat ≤ maxCpu.toNat + 1)
    (hfuel : maxCpu.toNat + 1 < c.toNat + fuel) :
    (countCpus home maxCpu fuel c n).isSome := by
  induction fuel generalizing c n with
  | zero => omega
  | succ fuel ih =>
    rw [countCpus]
    split
    · rename_i hle
      have hlt : maxCpu.toNat < 2 ^ 32 - 1 := by
        have hbound := maxCpu.toNat_lt
        have hne : maxCpu.toNat ≠ (0xFFFFFFFF : UInt32).toNat := fun h =>
          hmax (UInt32.toNat_inj.mp h)
        simp at hne
        omega
      have hle := UInt32.le_iff_toNat_le.mp hle
      have hsucc : (c + 1).toNat = c.toNat + 1 := by
        rw [UInt32.toNat_add]
        simp
        omega
      exact ih (by omega) (by omega)
    · rfl

theorem mapM_eq_none_iff {α β : Type} {f : α → Option β} {l : List α} :
    l.mapM f = none ↔ ∃ a ∈ l, f a = none := by
  induction l with
  | nil => simp
  | cons a l ih =>
    rw [List.mapM_cons]
    cases ha : f a with
    | none => simp [ha]
    | some b =>
      cases hl : l.mapM f with
      | none =>
        obtain ⟨x, hx, hfx⟩ := ih.mp hl
        exact iff_of_true rfl ⟨x, List.mem_cons_of_mem _ hx, hfx⟩
      | some bs =>
        refine iff_of_false nofun ?_
        rintro ⟨x, hx, hfx⟩
        rcases List.mem_cons.mp hx with rfl | hx
        · rw [ha] at hfx
          cases hfx
        · rw [ih.mpr ⟨x, hx, hfx⟩] at hl
          cases hl

/-- The counts are there unless the loop goes round. -/
theorem PlacementRaceReport.idleCounts_eq_none (s : PlacementRaceReport) (hfloored : s.floored ≠ [])
    (hmax : s.maxCpu = 0xFFFFFFFF) (fuel : Nat) : s.idleCounts fuel = none := by
  obtain ⟨fw, fws, hcons⟩ := List.exists_cons_of_ne_nil hfloored
  refine mapM_eq_none_iff.mpr ⟨fw, hcons ▸ List.mem_cons_self, ?_⟩
  rw [hmax]
  exact countCpus_endless ..

theorem PlacementRaceReport.exists_idleCounts (s : PlacementRaceReport)
    (hmax : s.maxCpu ≠ 0xFFFFFFFF) : ∃ counts, s.idleCounts (2 ^ 32 + 1) = some counts := by
  refine Option.ne_none_iff_exists'.mp fun hnone => ?_
  obtain ⟨fw, -, hfw⟩ := mapM_eq_none_iff.mp hnone
  have hbound := s.maxCpu.toNat_lt
  have hsome : (countCpus (betterHome (s.idleEvt.map fun r => (r.1, orderBy Prod.fst r.2)) fw)
      s.maxCpu (2 ^ 32 + 1) 0 0).isSome := countCpus_isSome _ hmax (by simp) (by simp; omega)
  rw [hfw] at hsome
  cases hsome

/-- The report comes to its conclusion unless its loop goes round. -/
theorem PlacementRaceReport.published_iff (s : PlacementRaceReport) :
    (∃ fuel r, s.compute env fuel = some r ∧ r.Published) ↔
      ¬ (s.idleEvt ≠ [] ∧ s.floored ≠ [] ∧ s.maxCpu = 0xFFFFFFFF) := by
  by_cases hidle : s.idleEvt = []
  · refine iff_of_true ⟨0, _, if_pos hidle, ?_⟩ fun h => h.1 hidle
    exact published_setVerdict (by simp) (by simp [spelling_eq_nil])
  by_cases hfloored : s.floored = []
  · refine iff_of_true ⟨0, _, (if_neg hidle).trans (if_pos hfloored), ?_⟩ fun h => h.2.1 hfloored
    exact published_setVerdict (by simp) (by simp [spelling_eq_nil])
  by_cases hmax : s.maxCpu = 0xFFFFFFFF
  · refine iff_of_false ?_ (not_not.mpr ⟨hidle, hfloored, hmax⟩)
    rintro ⟨fuel, r, hr, -⟩
    rw [PlacementRaceReport.compute, if_neg hidle, if_neg hfloored,
      s.idleCounts_eq_none hfloored hmax] at hr
    cases hr
  · refine iff_of_true ?_ fun h => hmax h.2.2
    obtain ⟨counts, hcounts⟩ := s.exists_idleCounts hmax
    refine ⟨2 ^ 32 + 1, _, (if_neg hidle).trans ((if_neg hfloored).trans
      (congrArg (Option.map _) hcounts)), ?_⟩
    refine .gauge (.gauge (.gauge (.gauge (.gauge ?_ ..) ..) ..) ..) ..
    exact published_setVerdict (by split_ifs <;> simp) (by simp [spelling_eq_nil])

/-! ## What the placement report has seen -/

theorem idleEvt_ne_nil_iff (trace : List TraceRecord) :
    (analyze env trace).placementRace.idleEvt ≠ [] ↔ ∃ e ∈ schedEvents trace, e.op = .cpuIdle := by
  have hrows : (analyze env trace).placementRace.idleEvt =
      cpuRows .cpuIdle (fun e => (e.timestampNs, decide (e.subIdx ≠ 0))) trace := by
    refine analyze_rows env (fun s => s.placementRace.idleEvt) .cpuIdle _ rfl (fun s r => ?_) trace
    cases r with
    | sched e => exact s.placementRace.fold_idleEvt e
    | _ => rfl
  rw [hrows, Ne, cpuRows_eq_nil_iff]
  simp

theorem floored_ne_nil_iff (trace : List TraceRecord) :
    (analyze env trace).placementRace.floored ≠ [] ↔
      ∃ e ∈ schedEvents trace, e.op = .wake2run ∧ kTickFloorNs ≤ e.runtimeNs := by
  induction trace using List.reverseRecOn with
  | nil => simp [analyze, schedEvents]
  | append_singleton trace r ih =>
    rw [analyze_concat, schedEvents_concat]
    cases r with
    | sched e =>
      have hfold := (analyze env trace).placementRace.fold_floored e
      have hstep : ((analyze env trace).fold env (.sched e)).placementRace =
          (analyze env trace).placementRace.fold (.sched e) := rfl
      rw [hstep, hfold]
      simp only [TraceRecord.schedEvent?, Option.toList_some, List.mem_append, List.mem_singleton,
        or_and_right, exists_or, exists_eq_left, ← ih]
      by_cases he : e.op = .wake2run ∧ kTickFloorNs ≤ e.runtimeNs
      · simp [he]
      · simp [he]
    | _ => exact ih.trans (by simp [TraceRecord.schedEvent?])

theorem maxCpu_eq_iff (trace : List TraceRecord) :
    (analyze env trace).placementRace.maxCpu = 0xFFFFFFFF ↔
      ∃ e ∈ schedEvents trace, e.cpu = 0xFFFFFFFF := by
  induction trace using List.reverseRecOn with
  | nil => simp [analyze, schedEvents]
  | append_singleton trace r ih =>
    rw [analyze_concat, schedEvents_concat]
    cases r with
    | sched e =>
      have hfold := (analyze env trace).placementRace.fold_maxCpu e
      have hstep : ((analyze env trace).fold env (.sched e)).placementRace =
          (analyze env trace).placementRace.fold (.sched e) := rfl
      rw [hstep, hfold]
      simp only [TraceRecord.schedEvent?, Option.toList_some, List.mem_append, List.mem_singleton,
        or_and_right, exists_or, exists_eq_left, ← ih]
      have hcpu := e.cpu.toNat_lt
      have hmax := (analyze env trace).placementRace.maxCpu.toNat_lt
      rw [← UInt32.toNat_inj, ← UInt32.toNat_inj, ← UInt32.toNat_inj]
      have hlast : (0xFFFFFFFF : UInt32).toNat = 2 ^ 32 - 1 := rfl
      split
      · rename_i hlt
        have hlt := UInt32.lt_iff_toNat_lt.mp hlt
        omega
      · rename_i hle
        have hle := UInt32.le_iff_toNat_le.mp (UInt32.not_lt.mp hle)
        omega
    | _ => exact ih.trans (by simp [TraceRecord.schedEvent?])

/-! ## The reports together -/

theorem publishes_iff_published {trace : List TraceRecord} {k : ReportKind} {r : ReportResult F}
    (h : ∀ fuel, (analyze env trace).compute env fuel k = some r) :
    Publishes env trace k ↔ r.Published := by
  constructor
  · rintro ⟨fuel, r', hr', hpub, -⟩
    obtain rfl : r = r' := Option.some.inj ((h fuel).symm.trans hr')
    exact hpub
  · exact fun hpub => ⟨0, r, h 0, hpub, hpub.reportLine _⟩

theorem publishes_slice_iff (trace : List TraceRecord) :
    Publishes env trace .slice ↔ PicksTwice trace := by
  rw [publishes_iff_published env (fun _ => rfl), SliceReport.published_iff,
    activeSlices_ne_nil_iff]

theorem publishes_service_iff (trace : List TraceRecord) :
    Publishes env trace .service ↔ PicksTwice trace := by
  rw [publishes_iff_published env (fun _ => rfl), ServiceReport.published_iff, byPid_ne_nil_iff]

theorem publishes_placementRace_iff (trace : List TraceRecord) :
    Publishes env trace .placementRace ↔ ¬ Endless trace := by
  have hendless : Endless trace ↔ (analyze env trace).placementRace.idleEvt ≠ [] ∧
      (analyze env trace).placementRace.floored ≠ [] ∧
        (analyze env trace).placementRace.maxCpu = 0xFFFFFFFF := by
    rw [idleEvt_ne_nil_iff, floored_ne_nil_iff, maxCpu_eq_iff]
    exact ⟨fun h => ⟨h.idle, h.floored, h.last⟩, fun h => ⟨h.1, h.2.1, h.2.2⟩⟩
  rw [hendless, ← PlacementRaceReport.published_iff env]
  constructor
  · rintro ⟨fuel, r, hr, hpub, -⟩
    exact ⟨fuel, r, hr, hpub⟩
  · rintro ⟨fuel, r, hr, hpub⟩
    exact ⟨fuel, r, hr, hpub, hpub.reportLine _⟩

/-- The others publish whatever the log holds. -/
theorem publishes_other {k : ReportKind} (hslice : k ≠ .slice) (hservice : k ≠ .service)
    (hplacement : k ≠ .placementRace) (trace : List TraceRecord) : Publishes env trace k := by
  cases k with
  | waits => exact (publishes_iff_published env fun _ => rfl).mpr (WaitsReport.published ..)
  | spins => exact (publishes_iff_published env fun _ => rfl).mpr (SpinsReport.published ..)
  | pairing => exact (publishes_iff_published env fun _ => rfl).mpr (PairingReport.published ..)
  | iowait => exact (publishes_iff_published env fun _ => rfl).mpr (IowaitReport.published ..)
  | doublefree =>
    exact (publishes_iff_published env fun _ => rfl).mpr (DoubleFreeReport.published ..)
  | placementRace => exact absurd rfl hplacement
  | dispatchStall =>
    exact (publishes_iff_published env fun _ => rfl).mpr (DispatchStallReport.published ..)
  | kickLatency =>
    exact (publishes_iff_published env fun _ => rfl).mpr (KickLatencyReport.published ..)
  | slice => exact absurd rfl hslice
  | storm => exact (publishes_iff_published env fun _ => rfl).mpr (StormReport.published ..)
  | service => exact absurd rfl hservice
  | wakers => exact (publishes_iff_published env fun _ => rfl).mpr (WakersReport.published ..)
  | fractal => exact (publishes_iff_published env fun _ => rfl).mpr (FractalReport.published ..)
  | kstrand => exact (publishes_iff_published env fun _ => rfl).mpr (KStrandReport.published ..)
  | locality => exact (publishes_iff_published env fun _ => rfl).mpr (LocalityReport.published ..)

/-- No report is silent on the captures in which some CPU picks twice within
10 ms and no record names the last of all CPUs where that matters. -/
theorem noneSilent_iff (trace : List TraceRecord) :
    (∀ k, Publishes env trace k) ↔ PicksTwice trace ∧ ¬ Endless trace := by
  constructor
  · exact fun h => ⟨(publishes_slice_iff env trace).mp (h .slice),
      (publishes_placementRace_iff env trace).mp (h .placementRace)⟩
  · rintro ⟨htwice, hend⟩ k
    by_cases hslice : k = .slice
    · exact hslice ▸ (publishes_slice_iff env trace).mpr htwice
    by_cases hservice : k = .service
    · exact hservice ▸ (publishes_service_iff env trace).mpr htwice
    by_cases hplacement : k = .placementRace
    · exact hplacement ▸ (publishes_placementRace_iff env trace).mpr hend
    · exact publishes_other env hslice hservice hplacement trace

/-- On the empty log `slice` is silent. -/
theorem not_noneSilent_empty :
    ¬ ∀ (F : Type) (env : ReportEnv F) (trace : List TraceRecord) (k : ReportKind),
      Publishes env trace k := by
  intro h
  obtain ⟨a, ha, -⟩ := (publishes_slice_iff unitEnv []).mp (h Unit unitEnv [] .slice)
  exact absurd ha List.not_mem_nil

end Montauk.Tools
