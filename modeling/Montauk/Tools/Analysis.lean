import Montauk.Tools.SchedReports
import Montauk.Tools.SyncReports

/-!
# A run of the analyzer

The driver folds every record of the log into its own timelines and into each
report; at the end every report computes. A report that keeps the records of an
operation CPU by CPU holds their rows (`analyze_rows`), and of two pick streams
the rows of the operation that is active are taken (`active_rows`).
-/

namespace Montauk.Tools

open Timeline Trace
open App (spelling)

/-! ## The run -/

/-- The reports with a class. -/
inductive ReportKind where
  | waits | spins | pairing | iowait | doublefree | placementRace | dispatchStall | kickLatency
  | slice | storm | service | wakers | fractal | kstrand | locality
deriving DecidableEq

/-- What `name` returns. -/
def ReportKind.name : ReportKind → String
  | .waits => "waits"
  | .spins => "spins"
  | .pairing => "pairing"
  | .iowait => "iowait"
  | .doublefree => "doublefree"
  | .placementRace => "placement-race"
  | .dispatchStall => "dispatch-stall"
  | .kickLatency => "kick-latency"
  | .slice => "slice"
  | .storm => "storm"
  | .service => "service"
  | .wakers => "wakers"
  | .fractal => "fractal"
  | .kstrand => "kstrand"
  | .locality => "locality"

/-- The timelines of the driver and the state of each report. -/
structure Analysis where
  sub : SchedSubstrate := {}
  waits : WaitsReport := []
  spins : SpinsReport := {}
  pairing : PairingReport := []
  iowait : IowaitReport := {}
  doublefree : DoubleFreeReport := {}
  placementRace : PlacementRaceReport := {}
  dispatchStall : DispatchStallReport := {}
  kickLatency : KickLatencyReport := {}
  storm : StormReport := {}
  service : ServiceReport := {}
  wakers : WakersReport := {}
  fractal : FractalReport := {}
  kstrand : KStrandReport := {}
  locality : LocalityReport := {}

variable {F : Type} (env : ReportEnv F)

/-- One record: `fold_driver_state`, and `fold` of each report. -/
def Analysis.fold (s : Analysis) (r : TraceRecord) : Analysis where
  sub := s.sub.fold env r
  waits := s.waits.fold r
  spins := s.spins.fold r
  pairing := s.pairing.fold r
  iowait := s.iowait.fold r
  doublefree := s.doublefree.fold r
  placementRace := s.placementRace.fold r
  dispatchStall := s.dispatchStall.fold env r
  kickLatency := s.kickLatency.fold r
  storm := s.storm.fold r
  service := s.service.fold r
  wakers := s.wakers.fold env r
  fractal := s.fractal.fold env r
  kstrand := s.kstrand.fold r
  locality := s.locality.fold env r

def analyze (trace : List TraceRecord) : Analysis := trace.foldl (Analysis.fold env) {}

/-- The timelines of the driver, in order. -/
def substrate (trace : List TraceRecord) : SchedSubstrate := (analyze env trace).sub.finalize

/-- What a report publishes; nothing if a loop has not ended in so many
steps. -/
def Analysis.compute (fuel : Nat) (s : Analysis) : ReportKind → Option (ReportResult F)
  | .waits => some (s.waits.compute env)
  | .spins => some (s.spins.compute env)
  | .pairing => some (s.pairing.compute env)
  | .iowait => some (s.iowait.compute env)
  | .doublefree => some (s.doublefree.compute env)
  | .placementRace => s.placementRace.compute env fuel
  | .dispatchStall => some (s.dispatchStall.compute env s.sub.finalize)
  | .kickLatency => some (s.kickLatency.compute env)
  | .slice => some (SliceReport.compute env s.sub.finalize)
  | .storm => some (s.storm.compute env)
  | .service => some (s.service.compute env)
  | .wakers => some (s.wakers.compute env)
  | .fractal => some (s.fractal.compute env)
  | .kstrand => some (s.kstrand.compute env s.sub.finalize)
  | .locality => some (s.locality.compute env)

/-- A run without files, with no arithmetic to speak of. -/
def unitEnv : ReportEnv Unit where
  ofNat _ := ()
  ofRat _ := ()
  nan := ()
  add _ _ := ()
  sub _ _ := ()
  mul _ _ := ()
  div _ _ := ()
  fabs _ := ()
  lt _ _ := false
  le _ _ := true
  finite _ := true
  toNat _ := 0
  fixed _ _ := spelling "0"
  dfaHurst _ := ((), (), ())
  rsHurst _ := ()
  avalancheTail _ := (0, ())
  inversionRatio _ := ()
  qual := {}
  redact := false
  resolve _ _ := []
  ioSyscallName _ := spelling "syscall"

/-- `%.*f` of a fraction that is not negative. -/
def fixedRat (digits : Nat) (q : Rat) : List UInt8 :=
  let n := (q * (10 : Rat) ^ digits + 1 / 2).floor.toNat
  let frac := num (n % 10 ^ digits)
  num (n / 10 ^ digits) ++
    if digits = 0 then []
    else spelling "." ++ List.replicate (digits - frac.length) 0x30 ++ frac

/-- A run without files, with exact arithmetic. -/
def exactEnv : ReportEnv Rat where
  ofNat n := n
  ofRat q := q
  nan := 0
  add a b := a + b
  sub a b := a - b
  mul a b := a * b
  div a b := a / b
  fabs a := if a < 0 then -a else a
  lt a b := a < b
  le a b := a ≤ b
  finite _ := true
  toNat q := q.floor.toNat
  fixed digits q := (if q < 0 then spelling "-" else []) ++ fixedRat digits (if q < 0 then -q else q)
  dfaHurst _ := (0, 0, 0)
  rsHurst _ := 0
  avalancheTail _ := (0, 0)
  inversionRatio _ := 0
  qual := {}
  redact := false
  resolve _ _ := []
  ioSyscallName _ := spelling "syscall"

/-- What a report publishes under a name. -/
def ReportResult.value? (name : String) (r : ReportResult F) : Option F :=
  (r.gauges.find? fun g => g.name = spelling name).map PromMetric.value

/-! ## The scheduler's records -/

def schedEvents (trace : List TraceRecord) : List SchedEvent :=
  trace.filterMap TraceRecord.schedEvent?

/-- A record of the scheduler on the first CPU. -/
def schedAt (op : SchedOp) (ts : UInt64) (subIdx : UInt32) (runtimeNs : UInt64) : TraceRecord :=
  .sched { op, cpu := 0, pid := 4018, secondaryPid := 0, lastCpu := 0, subIdx, freqMhz := 0, score := 0,
           runtimeNs, budgetNs := 0, timestampNs := ts }

theorem analyze_concat (trace : List TraceRecord) (r : TraceRecord) :
    analyze env (trace ++ [r]) = (analyze env trace).fold env r := by
  rw [analyze, List.foldl_append]
  rfl

theorem schedEvents_concat (trace : List TraceRecord) (r : TraceRecord) :
    schedEvents (trace ++ [r]) = schedEvents trace ++ r.schedEvent?.toList := by
  rw [schedEvents, List.filterMap_append]
  cases r <;> rfl

theorem pairwise_orderBy (ts : β → UInt64) (row : List β) :
    (orderBy ts row).Pairwise fun a b => ts a ≤ ts b := by
  have hsorted : (orderBy ts row).Pairwise fun a b => decide (ts a ≤ ts b) = true :=
    List.pairwise_mergeSort
    (fun a b c hab hbc => by
      simp only [decide_eq_true_eq] at hab hbc ⊢
      exact UInt64.le_trans hab hbc)
    (fun a b => by
      simp only [Bool.or_eq_true, decide_eq_true_eq]
      exact UInt64.le_total _ _) row
  exact hsorted.imp of_decide_eq_true

theorem pairwise_sorted (row : List UInt64) : (sorted row).Pairwise (· ≤ ·) := pairwise_orderBy id row

section

variable {β : Type}

/-- What a record adds to the rows of an operation. -/
def recordRow (op : SchedOp) (val : SchedEvent → β) (r : TraceRecord)
    (t : List (UInt32 × List β)) : List (UInt32 × List β) :=
  match r with
  | .sched e => if e.op = op then push e.cpu (val e) t else t
  | _ => t

/-- The records of an operation, CPU by CPU. -/
def cpuRows (op : SchedOp) (val : SchedEvent → β) (trace : List TraceRecord) :
    List (UInt32 × List β) :=
  ((schedEvents trace).filter fun e => e.op = op).foldl (fun t e => push e.cpu (val e) t) []

/-- A part of a state that takes the records of an operation in holds their
rows at the end. -/
theorem foldl_rows {σ : Type} (fold : σ → TraceRecord → σ) (part : σ → List (UInt32 × List β)) (op : SchedOp)
    (val : SchedEvent → β) {start : σ} (h₀ : part start = [])
    (hstep : ∀ s r, part (fold s r) = recordRow op val r (part s)) (trace : List TraceRecord) :
    part (trace.foldl fold start) = cpuRows op val trace := by
  have hfold : trace.foldl (fun t r => recordRow op val r t) (part start) =
      part (trace.foldl fold start) := List.foldl_hom part fun s r => (hstep s r).symm
  rw [← hfold, h₀, cpuRows, List.foldl_filter, schedEvents, List.foldl_filterMap]
  congr 1
  funext t r
  cases r with
  | sched e => simp [recordRow, TraceRecord.schedEvent?]
  | _ => rfl

theorem analyze_rows (part : Analysis → List (UInt32 × List β)) (op : SchedOp)
    (val : SchedEvent → β) (h₀ : part {} = [])
    (hstep : ∀ s r, part (s.fold env r) = recordRow op val r (part s))
    (trace : List TraceRecord) : part (analyze env trace) = cpuRows op val trace :=
  foldl_rows (Analysis.fold env) part op val h₀ hstep trace

theorem cpuRows_eq_nil_iff {op : SchedOp} {val : SchedEvent → β} {trace : List TraceRecord} :
    cpuRows op val trace = [] ↔ ∀ e ∈ schedEvents trace, e.op ≠ op := by
  rw [cpuRows]
  refine foldl_adjust_eq_nil_iff.trans ?_
  simp [List.filter_eq_nil_iff]

end

/-! ## The active picks -/

/-- Picks where there are any, switches otherwise. -/
def activeOp (trace : List TraceRecord) : SchedOp :=
  if ∃ e ∈ schedEvents trace, e.op = .pick then .pick else .switchIn

theorem activeOp_cases (trace : List TraceRecord) :
    (∃ e ∈ schedEvents trace, e.op = .pick) ∧ activeOp trace = .pick ∨
      (∀ e ∈ schedEvents trace, e.op ≠ .pick) ∧ activeOp trace = .switchIn := by
  by_cases h : ∃ e ∈ schedEvents trace, e.op = .pick
  · exact .inl ⟨h, if_pos h⟩
  · refine .inr ⟨?_, if_neg h⟩
    intro e he hop
    exact h ⟨e, he, hop⟩

/-- Each timeline has its rows, and of the two the one of the operation that is
active is taken. -/
theorem active_rows {β : Type} (trace : List TraceRecord) (pick switch : SchedEvent → β) :
    ∃ val ∈ [pick, switch],
      (if cpuRows .pick pick trace ≠ [] then cpuRows .pick pick trace
        else cpuRows .switchIn switch trace) = cpuRows (activeOp trace) val trace := by
  rcases activeOp_cases trace with ⟨h, hop⟩ | ⟨h, hop⟩
  · have hne : cpuRows .pick pick trace ≠ [] := by
      rw [Ne, cpuRows_eq_nil_iff]
      obtain ⟨e, he, hpick⟩ := h
      exact fun hnone => hnone e he hpick
    exact ⟨pick, List.mem_cons_self, by rw [if_pos hne, hop]⟩
  · have hnil : cpuRows .pick pick trace = [] := cpuRows_eq_nil_iff.mpr h
    exact ⟨switch, by simp, by rw [if_neg (by simp [hnil]), hop]⟩

theorem CpuPickTimeline.active_finalize (s : CpuPickTimeline) :
    s.finalize.active = inOrder s.active := by
  rcases s with ⟨_ | ⟨p, ps⟩, _ | ⟨q, qs⟩⟩ <;> rfl

theorem CpuPickTimeline.active_eq (s : CpuPickTimeline) :
    s.active = if s.picks ≠ [] then s.picks else s.switchPicks := by
  rcases s with ⟨_ | ⟨p, ps⟩, _ | ⟨q, qs⟩⟩ <;> rfl

theorem CpuPickTimeline.fold_picks (s : CpuPickTimeline) (e : SchedEvent) :
    (s.fold e).picks =
      recordRow .pick (fun e => ⟨e.timestampNs, e.pid, e.subIdx, e.score⟩) (.sched e) s.picks := by
  rw [CpuPickTimeline.fold]
  by_cases hpick : e.op = .pick
  · rw [if_pos hpick, recordRow, if_pos hpick]
  · rw [if_neg hpick, recordRow, if_neg hpick]
    split <;> rfl

theorem CpuPickTimeline.fold_switchPicks (s : CpuPickTimeline) (e : SchedEvent) :
    (s.fold e).switchPicks =
      recordRow .switchIn (fun e => ⟨e.timestampNs, e.pid, 0, 0⟩) (.sched e) s.switchPicks := by
  rw [CpuPickTimeline.fold]
  by_cases hpick : e.op = .pick
  · have hswitch : e.op ≠ .switchIn := by rw [hpick]; nofun
    rw [if_pos hpick, recordRow, if_neg hswitch]
  · rw [if_neg hpick, recordRow]
    split <;> rfl

theorem ServiceReport.fold_picks (s : ServiceReport) (e : SchedEvent) :
    (s.fold (.sched e)).picks =
      recordRow .pick (fun e => (e.timestampNs, e.pid)) (.sched e) s.picks := by
  rw [ServiceReport.fold]
  by_cases hpick : e.op = .pick
  · rw [if_pos hpick, recordRow, if_pos hpick]
  · rw [if_neg hpick, recordRow, if_neg hpick]
    split <;> rfl

theorem ServiceReport.fold_switchPicks (s : ServiceReport) (e : SchedEvent) :
    (s.fold (.sched e)).switchPicks =
      recordRow .switchIn (fun e => (e.timestampNs, e.pid)) (.sched e) s.switchPicks := by
  rw [ServiceReport.fold]
  by_cases hpick : e.op = .pick
  · have hswitch : e.op ≠ .switchIn := by rw [hpick]; nofun
    rw [if_pos hpick, recordRow, if_neg hswitch]
  · rw [if_neg hpick, recordRow]
    split <;> rfl

/-- What the reports look at are the active records of each CPU, by time. -/
theorem active_substrate (trace : List TraceRecord) :
    ∃ val : SchedEvent → Pk, (∀ e, (val e).ts = e.timestampNs ∧ (val e).pid = e.pid) ∧
      (substrate env trace).picks.active = CpuPickTimeline.inOrder (cpuRows (activeOp trace) val trace) := by
  have hpicks : (analyze env trace).sub.picks.picks =
      cpuRows .pick (fun e => ⟨e.timestampNs, e.pid, e.subIdx, e.score⟩) trace := by
    refine analyze_rows env (fun s => s.sub.picks.picks) .pick _ rfl (fun s r => ?_) trace
    cases r with
    | sched e => exact s.sub.picks.fold_picks e
    | _ => rfl
  have hswitch : (analyze env trace).sub.picks.switchPicks =
      cpuRows .switchIn (fun e => ⟨e.timestampNs, e.pid, 0, 0⟩) trace := by
    refine analyze_rows env (fun s => s.sub.picks.switchPicks) .switchIn _ rfl (fun s r => ?_) trace
    cases r with
    | sched e => exact s.sub.picks.fold_switchPicks e
    | _ => rfl
  obtain ⟨val, hval, hrows⟩ := active_rows trace
    (fun e => (⟨e.timestampNs, e.pid, e.subIdx, e.score⟩ : Pk))
    (fun e => ⟨e.timestampNs, e.pid, 0, 0⟩)
  refine ⟨val, fun e => ?_, ?_⟩
  · rcases List.mem_cons.mp hval with rfl | hval
    · exact ⟨rfl, rfl⟩
    · rw [List.mem_singleton.mp hval]
      exact ⟨rfl, rfl⟩
  · rw [← hrows, ← hpicks, ← hswitch, ← CpuPickTimeline.active_eq]
    exact CpuPickTimeline.active_finalize _

theorem service_rows (trace : List TraceRecord) :
    (if (analyze env trace).service.picks ≠ [] then (analyze env trace).service.picks
      else (analyze env trace).service.switchPicks) =
      cpuRows (activeOp trace) (fun e => (e.timestampNs, e.pid)) trace := by
  have hpicks : (analyze env trace).service.picks =
      cpuRows .pick (fun e => (e.timestampNs, e.pid)) trace := by
    refine analyze_rows env (fun s => s.service.picks) .pick _ rfl (fun s r => ?_) trace
    cases r with
    | sched e => exact s.service.fold_picks e
    | _ => rfl
  have hswitch : (analyze env trace).service.switchPicks =
      cpuRows .switchIn (fun e => (e.timestampNs, e.pid)) trace := by
    refine analyze_rows env (fun s => s.service.switchPicks) .switchIn _ rfl (fun s r => ?_) trace
    cases r with
    | sched e => exact s.service.fold_switchPicks e
    | _ => rfl
  obtain ⟨val, hval, hrows⟩ := active_rows trace
    (fun e => (e.timestampNs, e.pid)) (fun e => (e.timestampNs, e.pid))
  rw [hpicks, hswitch, hrows]
  rcases List.mem_cons.mp hval with rfl | hval
  · rfl
  · rw [List.mem_singleton.mp hval]

end Montauk.Tools
