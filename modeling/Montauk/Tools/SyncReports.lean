import Montauk.Tools.Reports

/-!
# The reports on waits, I/O and the heap

`waits`, `spins`, `pairing`, `iowait`, `doublefree` and `storm`: what each of
them keeps of the records, and how it composes its conclusion. The tables that
`emit` prints and the offenders are left out.
-/

namespace Montauk.Tools

open Scan Timeline Trace
open App (spelling)
open Emit (decimal)

variable {F : Type} (env : ReportEnv F)

/-- The labels of a thread and an object. -/
def tidObjLabels (tid : UInt32) (obj : UInt64) : List UInt8 :=
  spelling "tid=\"" ++ num tid.toNat ++ spelling "\",obj=\"0x" ++ hex 16 obj.toNat ++ spelling "\""

/-! ## waits -/

/-- `WaitsReport::Agg`. -/
structure WaitAgg where
  tid : UInt32 := 0
  pid : UInt32 := 0
  isFutex : Bool := false
  obj : UInt64 := 0
  count : Nat := 0
  lastTs : UInt64 := 0
  results : List (Int64 × Nat) := []
  gapsNs : List UInt64 := []

/-- `WaitsReport`: the aggregates under their keys. -/
abbrev WaitsReport := List (UInt64 × WaitAgg)

def WaitAgg.add (w : SyncWait) (a : WaitAgg) : WaitAgg :=
  let a :=
    if a.count = 0 then { a with tid := w.tid, pid := w.pid, isFutex := w.isFutex, obj := w.obj }
    else a
  { a with
    count := a.count + 1
    results := adjust w.result 0 (· + 1) a.results
    gapsNs :=
      if a.lastTs ≠ 0 ∧ a.lastTs < w.ts then a.gapsNs ++ [w.ts - a.lastTs] else a.gapsNs
    lastTs := w.ts }

def WaitsReport.fold (aggs : WaitsReport) (r : TraceRecord) : WaitsReport :=
  match r.syncWait? with
  | none => aggs
  | some w => adjust (tidObjKey w.tid w.obj) {} (WaitAgg.add w) aggs

/-- The conclusion: how far one aggregate holds the waits. -/
def WaitsReport.conclude (aggs : WaitsReport) (res : ReportResult F) : ReportResult F :=
  match aggs with
  | [] => res.setVerdict "NO-WAITS" [spelling "no sync wait completions in trace (NTSYNC or futex)"]
  | row :: rows =>
      let total := (aggs.map fun r => r.2.count).sum
      let top := rows.foldl (fun top r => if top.count < r.2.count then r.2 else top) row.2
      let share := env.div (env.mul (env.ofNat 100) (env.ofNat top.count)) (env.ofNat total)
      let topobj := fmtObj env top.pid top.obj top.isFutex
      if env.le (env.ofNat 50) share then
        res.setVerdict "CONCENTRATED"
          [spelling "tid=", num top.tid.toNat, spelling " obj=", topobj, spelling " dominates — ",
            fmtCount env (env.ofNat top.count), spelling " of ", fmtCount env (env.ofNat total),
            spelling " wait completions (", env.fixed 0 share, spelling "%) across ",
            num aggs.length, spelling " tid/obj pairs"]
      else
        res.setVerdict "SPREAD"
          [spelling "wait load spread across ", num aggs.length,
            spelling " tid/obj pairs — top tid=", num top.tid.toNat, spelling " obj=", topobj,
            spelling " holds ", env.fixed 0 share, spelling "% (",
            fmtCount env (env.ofNat top.count), spelling " of ", fmtCount env (env.ofNat total),
            spelling ")"]

/-- The quantiles of the gaps of an aggregate that has any. -/
def WaitAgg.gapQuantiles (a : WaitAgg) : List (WaitAgg × String × F) :=
  let gaps := sorted a.gapsNs
  if gaps = [] then [] else [(a, "0.5", qMs env gaps 0.50), (a, "0.99", qMs env gaps 0.99)]

def WaitsReport.compute (aggs : WaitsReport) : ReportResult F :=
  (WaitsReport.conclude env aggs {})
    |>.gaugeEach "montauk_analysis_waits_total" aggs (fun r => tidObjLabels r.2.tid r.2.obj)
      (fun r => env.ofNat r.2.count)
    |>.gaugeEach "montauk_analysis_wait_gap_ms" (aggs.flatMap fun r => r.2.gapQuantiles env)
      (fun q => tidObjLabels q.1.tid q.1.obj ++ spelling ",quantile=\"" ++ spelling q.2.1
        ++ spelling "\"")
      (fun q => q.2.2)

/-! ## spins -/

def kSpinGapNs : UInt64 := 1000000
def kSpinMinIters : Nat := 1000

/-- `SpinsReport::RunState`; no iterations stand for no active run. -/
structure RunState where
  tid : UInt32 := 0
  pid : UInt32 := 0
  isFutex : Bool := false
  obj : UInt64 := 0
  lastTs : UInt64 := 0
  lastResult : Int64 := 0
  iters : Nat := 0
  startTs : UInt64 := 0
  succ : Nat := 0
  timeo : Nat := 0
  other : Nat := 0

/-- `SpinsReport::Run`. -/
structure SpinRun where
  tid : UInt32
  obj : UInt64
  iters : Nat
  startTs : UInt64
  endTs : UInt64
  succ : Nat
  timeo : Nat
  other : Nat
  pid : UInt32
  isFutex : Bool

structure SpinsReport where
  state : List (UInt64 × RunState) := []
  runs : List SpinRun := []
  objWaits : List (UInt64 × Nat) := []
  objSignals : List (UInt64 × Nat) := []

def RunState.tally (s : RunState) (result : Int64) : RunState :=
  if 0 ≤ result then { s with succ := s.succ + 1 }
  else if result = -110 then { s with timeo := s.timeo + 1 }
  else { s with other := s.other + 1 }

def RunState.endRun (s : RunState) (endTs : UInt64) (runs : List SpinRun) : List SpinRun :=
  if kSpinMinIters ≤ s.iters then
    runs ++ [{ tid := s.tid, obj := s.obj, iters := s.iters, startTs := s.startTs, endTs,
               succ := s.succ, timeo := s.timeo, other := s.other, pid := s.pid,
               isFutex := s.isFutex }]
  else runs

/-- The state behind `SpinsReport::finalize`. -/
def RunState.reset (s : RunState) : RunState :=
  { s with iters := 0, succ := 0, timeo := 0, other := 0 }

/-- The wait goes on in the run of the one before it. -/
def RunState.goesOn (s : RunState) (w : SyncWait) : Bool :=
  s.lastTs ≠ 0 && s.lastTs < w.ts && w.ts - s.lastTs < kSpinGapNs

/-- One more iteration; a run opens with the wait before. -/
def RunState.iterate (s : RunState) (w : SyncWait) : RunState :=
  let s :=
    if s.iters = 0 then ({ s with iters := 1, startTs := s.lastTs }).tally s.lastResult else s
  ({ s with iters := s.iters + 1 }).tally w.result

def SpinsReport.fold (s : SpinsReport) (r : TraceRecord) : SpinsReport :=
  match r.syncSignal? with
  | some sig => { s with objSignals := adjust sig.obj 0 (· + 1) s.objSignals }
  | none =>
      match r.syncWait? with
      | none => s
      | some w =>
          let key := tidObjKey w.tid w.obj
          let st := (rowOf key s.state).getD {}
          let st := { st with tid := w.tid, pid := w.pid, isFutex := w.isFutex, obj := w.obj }
          let next := if st.goesOn w then st.iterate w else st.reset
          { state := assign key { next with lastTs := w.ts, lastResult := w.result } s.state
            runs := if st.goesOn w then s.runs else st.endRun st.lastTs s.runs
            objWaits := adjust w.obj 0 (· + 1) s.objWaits
            objSignals := s.objSignals }

/-- The runs with those still open at the end. -/
def SpinsReport.allRuns (s : SpinsReport) : List SpinRun :=
  s.state.foldl (fun runs r => r.2.endRun r.2.lastTs runs) s.runs

/-- What `SpinsReport::run_class` tells apart. -/
inductive SpinClass where
  | error
  | instantSuccess
  | timeout
deriving DecidableEq

def SpinClass.all : List SpinClass := [.error, .instantSuccess, .timeout]

def SpinClass.name : SpinClass → String
  | .error => "error"
  | .instantSuccess => "instant-success"
  | .timeout => "timeout"

def SpinClass.word : SpinClass → String
  | .error => "error spin"
  | .instantSuccess => "livelock"
  | .timeout => "starved waiter"

def SpinClass.tok : SpinClass → String
  | .error => "ERROR-SPIN"
  | .instantSuccess => "LIVELOCK"
  | .timeout => "STARVED-WAITER"

def SpinRun.runClass (r : SpinRun) : SpinClass :=
  if r.timeo ≤ r.succ ∧ r.other ≤ r.succ then .instantSuccess
  else if r.other ≤ r.timeo then .timeout
  else .error

/-- `SpinsReport::run_rate`. -/
def SpinRun.rate (r : SpinRun) : F :=
  let spanMs := env.div (env.ofNat (r.endTs - r.startTs).toNat) (env.ofNat 1000000)
  if env.lt (env.ofNat 0) spanMs then
    env.div (env.mul (env.ofNat r.iters) (env.ofNat 1000)) spanMs
  else env.ofNat 0

/-- The larger of two doubles, the first when they are equal: `std::max`. -/
def maxF (a b : F) : F := if env.lt a b then b else a

/-- The class most of the runs are of, the first of them. -/
def dominantClass (runs : List SpinRun) : SpinClass :=
  let count := fun c : SpinClass => runs.countP fun r => r.runClass = c
  SpinClass.all.foldl (fun dom c => if count dom < count c then c else dom) .error

/-- `SpinsReport::compute_verdict`. -/
def SpinsReport.conclude (runs : List SpinRun) (res : ReportResult F) : ReportResult F :=
  match runs with
  | [] => res.setVerdict "NONE" [spelling "no spin runs detected"]
  | first :: _ =>
      let dom := dominantClass runs
      let domRuns := runs.countP fun r => r.runClass = dom
      let pairs := (runs.map fun r => tidObjKey r.tid r.obj).eraseDups
      let peak := runs.foldl (fun peak r => maxF env peak (r.rate env)) (env.ofNat 0)
      let counts :=
        if domRuns = runs.length then
          num runs.length ++ spelling " " ++ spelling dom.name ++ spelling " spin runs"
        else
          num domRuns ++ spelling " of " ++ num runs.length ++ spelling " spin runs "
            ++ spelling dom.name
      let whereText :=
        if pairs.length = 1 then
          spelling "all tid=" ++ num first.tid.toNat ++ spelling " obj="
            ++ fmtObj env first.pid first.obj first.isFutex
        else spelling "across " ++ num pairs.length ++ spelling " tid/obj pairs"
      res.setVerdict dom.tok
        [spelling dom.word, spelling " — ", counts, spelling ", ", whereText, spelling ", peak ",
          fmtCount env peak, spelling " waits/s"]

/-- The run with the highest rate under each pair, with that rate. -/
def peakRuns (runs : List SpinRun) : List (UInt64 × SpinRun × F) :=
  runs.foldl (fun peaks r =>
    let rate := r.rate env
    adjust (tidObjKey r.tid r.obj) (r, rate) (fun p => if env.lt p.2 rate then (r, rate) else p)
      peaks) []

def SpinsReport.compute (s : SpinsReport) : ReportResult F :=
  let runs := s.allRuns
  let labels := runs.map fun r =>
    tidObjLabels r.tid r.obj ++ spelling ",verdict=\"" ++ spelling r.runClass.name ++ spelling "\""
  let runCounts := labels.foldl (fun t lab => adjust lab 0 (· + 1) t) []
  (SpinsReport.conclude env runs {})
    |>.gaugeEach "montauk_analysis_spin_runs_total" (runCounts.mergeSort fun a b => a.1 ≤ b.1)
      Prod.fst (fun r => env.ofNat r.2)
    |>.gaugeEach "montauk_analysis_spin_peak_rate_per_s" (orderBy Prod.fst (peakRuns env runs))
      (fun p => tidObjLabels p.2.1.tid p.2.1.obj) (fun p => p.2.2)

/-! ## pairing -/

def kPairingWaitSignalRatio : Nat := 100
def kPairingMinWaits : Nat := 1000

/-- `PairingReport::Agg`. -/
structure PairAgg where
  waits : Nat := 0
  set : Nat := 0
  reset : Nat := 0
  semRelease : Nat := 0
  mutexUnlock : Nat := 0

/-- `PairingReport`: the aggregates of the descriptors. -/
abbrev PairingReport := List (Int32 × PairAgg)

def PairAgg.signal (op : NtsyncOp) (a : PairAgg) : PairAgg :=
  match op with
  | .eventSet => { a with set := a.set + 1 }
  | .eventReset => { a with reset := a.reset + 1 }
  | .semRelease => { a with semRelease := a.semRelease + 1 }
  | .mutexUnlock => { a with mutexUnlock := a.mutexUnlock + 1 }
  | _ => a

def PairingReport.fold (aggs : PairingReport) (r : TraceRecord) : PairingReport :=
  match r with
  | .sync (.ntsync e) =>
      if e.op.isWait then
        if e.result = -999 then aggs
        else
          let n := min e.waitCount.toNat ntsyncMaxWaitFds
          (e.waitFds.take n).foldl (fun aggs fd =>
            adjust fd.toInt32 {} (fun a => { a with waits := a.waits + 1 }) aggs) aggs
      else if isSignalOp e.op then adjust e.fd {} (PairAgg.signal e.op) aggs
      else aggs
  | _ => aggs

def PairAgg.signalTotal (a : PairAgg) : Nat := a.set + a.reset + a.semRelease + a.mutexUnlock

def PairAgg.flagged (a : PairAgg) : Bool :=
  kPairingMinWaits ≤ a.waits && a.signalTotal * kPairingWaitSignalRatio < a.waits

def PairingReport.byFd (aggs : PairingReport) : List (Int32 × PairAgg) :=
  aggs.mergeSort fun a b => a.1 ≤ b.1

def PairingReport.conclude (aggs : PairingReport) (res : ReportResult F) : ReportResult F :=
  match aggs.byFd.filter fun r => r.2.flagged with
  | [] => res.setVerdict "PAIRED" [spelling "all waited fds have plausible signalers"]
  | first :: rest =>
      let worst := rest.foldl (fun w r => if w.2.waits < r.2.waits then r else w) first
      let more :=
        if 0 < rest.length then spelling ", +" ++ num rest.length ++ spelling " more flagged fds"
        else []
      res.setVerdict "STUCK-SIGNALED"
        [spelling "fd ", decimal worst.1.toInt, spelling " stuck-signaled — ",
          fmtCount env (env.ofNat worst.2.waits), spelling " waits, ",
          fmtCount env (env.ofNat worst.2.signalTotal), spelling " signals", more]

def PairingReport.compute (aggs : PairingReport) : ReportResult F :=
  if aggs = [] then
    ReportResult.setVerdict "NONE" [spelling "no NTSYNC activity in trace"] {}
  else
    let labels := fun r : Int32 × PairAgg => spelling "fd=\"" ++ decimal r.1.toInt ++ spelling "\""
    (PairingReport.conclude env aggs {})
      |>.gaugeEach "montauk_analysis_pairing_waits" aggs.byFd labels
        (fun r => env.ofNat r.2.waits)
      |>.gaugeEach "montauk_analysis_pairing_signals" aggs.byFd labels
        (fun r => env.ofNat r.2.signalTotal)
      |>.gaugeEach "montauk_analysis_unsignaled_flag" aggs.byFd labels
        (fun r => env.ofNat (if r.2.flagged then 1 else 0))

/-! ## iowait -/

def isIowaitSyscall (nr : Int32) : Bool := [7, 271, 232, 281, 47, 45, 23, 270, 16].contains nr

/-- `IowaitReport::Parked`. -/
structure Parked where
  isOpen : Bool := false
  since : UInt64 := 0
  nr : Int32 := 0
  fd : Int32 := -1
  pid : UInt32 := 0
  comm : List UInt8 := []

structure IowaitReport where
  tids : List (UInt32 × Parked) := []
  maxTs : UInt64 := 0

/-- What an event makes of the entry of its thread. -/
def Parked.see (e : IoEvent) (p : Parked) : Parked :=
  if e.result = -999 then
    { isOpen := true, since := e.timestampNs, nr := e.syscallNr, fd := e.fd, pid := e.pid,
      comm := e.comm }
  else { p with isOpen := false }

def IowaitReport.fold (s : IowaitReport) (r : TraceRecord) : IowaitReport :=
  match r with
  | .sync (.io e) =>
      { tids := if isIowaitSyscall e.syscallNr then adjust e.tid {} (Parked.see e) s.tids else s.tids
        maxTs := if s.maxTs < e.timestampNs then e.timestampNs else s.maxTs }
  | _ => s

/-- The parked threads, the longest first. -/
def IowaitReport.parked (s : IowaitReport) : List (UInt32 × Parked) :=
  orderBy (fun p => p.2.since)
    ((s.tids.mergeSort fun a b => a.1 ≤ b.1).filter fun p => p.2.isOpen)

def IowaitReport.compute (s : IowaitReport) : ReportResult F :=
  match s.parked with
  | [] =>
      ReportResult.setVerdict "NO-IOWAIT"
        [spelling "no threads parked in a blocking I/O-wait syscall at trace end"] {}
  | (tid, longest) :: _ =>
      ReportResult.setVerdict "IOWAIT-PARKED"
        [num s.parked.length,
          spelling " thread(s) parked in a blocking I/O-wait at trace end ",
          spelling "(asleep on its data source -- e.g. poll() on a socket or pipe fd); ",
          spelling "longest tid=", num tid.toNat, spelling " '", redactComm env longest.comm, spelling "' in ",
          env.ioSyscallName longest.nr, spelling "(fd=", decimal longest.fd.toInt, spelling ") ",
          env.fixed 1 (env.div (env.ofNat (s.maxTs - longest.since).toNat) (env.ofNat 1000000000)),
          spelling "s"] {}

/-! ## doublefree -/

/-- `DoubleFreeReport::Live`. -/
structure LiveChunk where
  size : UInt64
  tid : UInt32
  comm : List UInt8

/-- `DoubleFreeReport::Hit`. -/
structure DoubleFreeHit where
  addr : UInt64
  size : UInt64
  firstTid : UInt32
  firstComm : List UInt8
  secondTid : UInt32
  secondComm : List UInt8

structure DoubleFreeReport where
  live : List (UInt64 × LiveChunk) := []
  freed : List (UInt64 × LiveChunk) := []
  hits : List DoubleFreeHit := []
  totalFrees : Nat := 0

/-- `DoubleFreeReport::key`. -/
def heapKey (pid : UInt32) (addr : UInt64) : UInt64 := (pid.toUInt64 * 1099511628211) ^^^ addr

def maxHits : Nat := 64

/-- What `store` puts under the key of an address. -/
def HeapEvent.chunk (e : HeapEvent) (size : UInt64) : LiveChunk := ⟨size, e.tid, e.comm⟩

def HeapEvent.hit (e : HeapEvent) (prior : LiveChunk) : DoubleFreeHit where
  addr := e.addr
  size := prior.size
  firstTid := prior.tid
  firstComm := prior.comm
  secondTid := e.tid
  secondComm := e.comm

def DoubleFreeReport.alloc (e : HeapEvent) (addr : UInt64) (s : DoubleFreeReport) :
    DoubleFreeReport :=
  let k := heapKey e.pid addr
  if addr = 0 then s
  else { s with live := assign k (e.chunk e.size) s.live, freed := erase k s.freed }

/-- The old address of a `realloc` goes. -/
def DoubleFreeReport.drop (e : HeapEvent) (s : DoubleFreeReport) : DoubleFreeReport :=
  let k := heapKey e.pid e.addr
  if e.addr = 0 then s else { s with live := erase k s.live, freed := erase k s.freed }

/-- A `free`. -/
def DoubleFreeReport.release (e : HeapEvent) (s : DoubleFreeReport) : DoubleFreeReport :=
  let k := heapKey e.pid e.addr
  if e.addr = 0 then s
  else
    match rowOf k s.live with
    | some chunk =>
        { s with
          totalFrees := s.totalFrees + 1
          freed := assign k (e.chunk chunk.size) s.freed
          live := erase k s.live }
    | none =>
        match rowOf k s.freed with
        | some prior =>
            { s with
              totalFrees := s.totalFrees + 1
              hits := if s.hits.length < maxHits then s.hits ++ [e.hit prior] else s.hits
              freed := assign k (e.chunk prior.size) s.freed }
        | none =>
            { s with
              totalFrees := s.totalFrees + 1
              freed := assign k (e.chunk 0) s.freed }

def DoubleFreeReport.fold (s : DoubleFreeReport) (r : TraceRecord) : DoubleFreeReport :=
  match r with
  | .heap e =>
      match e.op with
      | .malloc | .calloc => s.alloc e e.addr
      | .realloc => (s.drop e).alloc e e.newAddr
      | .free => s.release e
      | .unknown => s
  | _ => s

def DoubleFreeReport.compute (s : DoubleFreeReport) : ReportResult F :=
  let cross := s.hits.countP fun h => h.firstTid ≠ h.secondTid
  let res : ReportResult F :=
    if s.hits = [] then
      ReportResult.setVerdict "CLEAN"
        [spelling "no double-frees in ", num s.totalFrees, spelling " frees"] {}
    else
      ReportResult.setVerdict (if cross ≠ 0 then "RACE" else "LOGIC")
        [num s.hits.length, spelling " double-free(s) in ", num s.totalFrees,
          spelling " frees — ", num cross, spelling " cross-thread (race), ",
          num (s.hits.length - cross), spelling " same-thread (logic)"] {}
  res.gauge "montauk_analysis_doublefree_total" [] (env.ofNat s.hits.length)
    |>.gauge "montauk_analysis_doublefree_cross_thread_total" [] (env.ofNat cross)
    |>.gauge "montauk_analysis_frees_total" [] (env.ofNat s.totalFrees)

/-! ## storm -/

/-- `StormReport`; the samples and their totals. -/
structure StormReport where
  samples : List StormEvent := []
  totKicks : UInt64 := 0
  totPreempt : UInt64 := 0
  totReenq : UInt64 := 0
  totMs : UInt64 := 0

def kStormReenqPerS : Nat := 50000

def StormReport.fold (s : StormReport) (r : TraceRecord) : StormReport :=
  match r with
  | .storm e =>
      { samples := s.samples ++ [e]
        totKicks := s.totKicks + e.kicks
        totPreempt := s.totPreempt + e.preemptKicks
        totReenq := s.totReenq + e.reenq
        totMs := s.totMs + e.intervalMs.toUInt64 }
  | _ => s

def reenqRate (e : StormEvent) : F :=
  if e.intervalMs ≠ 0 then
    env.div (env.mul (env.ofNat e.reenq.toNat) (env.ofNat 1000)) (env.ofNat e.intervalMs.toNat)
  else env.ofNat 0

def StormReport.compute (s : StormReport) : ReportResult F :=
  if s.samples = [] ∨ s.totMs = 0 then
    (ReportResult.setVerdict "NONE"
      [spelling "no sched_ext kick activity captured (non-scx scheduler, ",
        spelling "or no cpu_release storm)"] {}).gauge "montauk_analysis_storm_captured" []
      (env.ofNat 0)
  else
    let stormIntervals := s.samples.countP fun e =>
      env.le (env.ofNat kStormReenqPerS) (reenqRate env e)
    let stormPct := percent env stormIntervals s.samples.length
    let rr := sorted (s.samples.map fun e => UInt64.ofNat (env.toNat (reenqRate env e)))
    let peak := env.ofNat (rr.getLast?.getD 0).toNat
    let p50 := env.ofNat (qAt env rr 0.50).toNat
    let secs := env.div (env.ofNat s.totMs.toNat) (env.ofNat 1000)
    let perS := fun n : UInt64 => env.div (env.ofNat n.toNat) secs
    let realIpi :=
      s.totReenq ≠ 0 ∧
        env.le (env.mul (env.ofRat 0.5) (env.ofNat s.totReenq.toNat)) (env.ofNat s.totPreempt.toNat)
          = true
    let kind :=
      if stormIntervals = 0 then "clean -- no storm intervals"
      else if realIpi then "REAL IPI storm (preempt-kick dominant)"
      else "IDLE re-enqueue churn (kicks no-op on busy CPUs)"
    (ReportResult.setVerdict
      (if stormIntervals = 0 then "CLEAN"
        else if realIpi then "REAL-IPI-STORM" else "IDLE-REENQUEUE-CHURN")
      [spelling kind, spelling "; storm ", num stormIntervals, spelling "/", num s.samples.length,
        spelling " intervals (", env.fixed 1 stormPct, spelling "%); reenq/s p50=", env.fixed 0 p50,
        spelling " peak=", env.fixed 0 peak, spelling "; kick/s=", env.fixed 0 (perS s.totKicks),
        spelling " (preempt ", env.fixed 0 (perS s.totPreempt), spelling ") reenq/s=",
        env.fixed 0 (perS s.totReenq)] {})
      |>.gauge "montauk_analysis_storm_captured" [] (env.ofNat 1)
      |>.gauge "montauk_analysis_storm_pct" [] stormPct
      |>.gauge "montauk_analysis_storm_reenq_per_s" (spelling "stat=\"peak\"") peak
      |>.gauge "montauk_analysis_storm_kick_per_s" (spelling "flag=\"all\"") (perS s.totKicks)
      |>.gauge "montauk_analysis_storm_kick_per_s" (spelling "flag=\"preempt\"")
        (perS s.totPreempt)

end Montauk.Tools
