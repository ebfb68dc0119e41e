import Montauk.Tools.StallReports

/-!
# The reports on picks, wakers and migrations

`slice`, `service`, `wakers`, `fractal`, `kstrand` and `locality`: what each of
them keeps of the records, and how it composes its conclusion from that and
from the timelines of the driver. The tables that `emit` prints and the
offenders are left out.
-/

namespace Montauk.Tools

open Scan Timeline Trace
open App (spelling)

variable {F : Type} (env : ReportEnv F)

/-! ## slice -/

/-- `kStrandNs`: a longer gap is no slice. -/
def kStrandNs : UInt64 := 10000000

/-- From one pick to the next on the CPU. -/
def sliceNs (p : Pk × Pk) : UInt64 := p.2.ts - p.1.ts

def isSlice (p : Pk × Pk) : Bool := 0 < sliceNs p && sliceNs p < kStrandNs

/-- The slices of the active picks, with the pick each begins with. -/
def activeSlices (src : List (UInt32 × List Pk)) : List (Pk × Pk) :=
  src.flatMap fun r => (neighbours r.2).filter isSlice

def kSegs : Nat := 8

/-- The median slice of each segment of the run that has one. -/
def segmentMedians (tl : List (UInt64 × UInt64)) : List UInt64 :=
  let tl := orderBy Prod.fst tl
  let t0 := (tl.head?.map Prod.fst).getD 0
  let t1 := (tl.getLast?.map Prod.fst).getD 0
  if t0 < t1 then
    let span := t1 - t0
    (List.range kSegs).filterMap fun g =>
      let lo := t0 + span * UInt64.ofNat g / UInt64.ofNat kSegs
      let hi := t0 + span * UInt64.ofNat (g + 1) / UInt64.ofNat kSegs
      let bucket := sorted ((tl.filter fun p =>
        lo ≤ p.1 && (p.1 < hi || (g + 1 = kSegs && p.1 ≤ hi))).map Prod.snd)
      bucket[bucket.length / 2]?
  else []

/-- The disorder of the trajectory, where there are enough slices for one. -/
def trajInversion (tl : List (UInt64 × UInt64)) : Option F :=
  if 2 * kSegs ≤ tl.length then
    let medians := segmentMedians tl
    if 3 ≤ medians.length then some (env.inversionRatio medians) else none
  else none

/-- `SliceReport::compute_verdict`. -/
def SliceReport.conclude (slices : List UInt64) (res : ReportResult F) : ReportResult F :=
  if slices = [] then res.setVerdict "NO-PICK-STREAM" [spelling "no slices (PICK stream absent)"]
  else
    let sum := slices.foldl (fun m s => env.add m (env.ofNat s.toNat)) (env.ofNat 0)
    let mean := env.div sum (env.ofNat slices.length)
    let p50 := qUs env slices 0.50
    let p99 := qUs env slices 0.99
    res.setVerdict
      (if env.lt (env.ofNat 0) p50 && env.le (env.mul (env.ofNat 10) p50) p99 then "HEAVY-TAIL"
        else "EVEN")
      [fmtCount env (env.ofNat slices.length), spelling " dispatched slices; p50 ",
        env.fixed 1 p50, spelling "us p90 ", env.fixed 1 (qUs env slices 0.90), spelling "us p99 ",
        env.fixed 1 p99, spelling "us worst ", env.fixed 1 (us env (slices.getLast?.getD 0)),
        spelling "us; mean ", env.fixed 1 (env.div mean (env.ofNat 1000)), spelling "us"]

/-- `SliceReport::compute`, which returns before the verdict if there is no
slice. -/
def SliceReport.compute (sub : SchedSubstrate) : ReportResult F :=
  let found := activeSlices sub.picks.active
  if found = [] then {}
  else
    let slices := sorted (found.map sliceNs)
    let res := (SliceReport.conclude env slices {}).quantiles "montauk_analysis_slice_us"
      [("0.5", qUs env slices 0.50), ("0.99", qUs env slices 0.99),
        ("worst", us env (slices.getLast?.getD 0))]
    match trajInversion env (found.map fun p => (p.1.ts, sliceNs p)) with
    | none => res
    | some inversion => res.gauge "montauk_analysis_slice_trajectory_inversion" [] inversion

/-! ## service -/

/-- `ServiceReport`, with picks of its own. -/
structure ServiceReport where
  picks : List (UInt32 × List (UInt64 × Int32)) := []
  switchPicks : List (UInt32 × List (UInt64 × Int32)) := []

def ServiceReport.fold (s : ServiceReport) (r : TraceRecord) : ServiceReport :=
  match r with
  | .sched e =>
      if e.op = .pick then { s with picks := push e.cpu (e.timestampNs, e.pid) s.picks }
      else if e.op = .switchIn then
        { s with switchPicks := push e.cpu (e.timestampNs, e.pid) s.switchPicks }
      else s
  | _ => s

/-- What a pick serves its task until the next, if that is a slice. -/
def served (p : (UInt64 × Int32) × UInt64 × Int32) : Option (Int32 × UInt64) :=
  let d := p.2.1 - p.1.1
  if 0 < d ∧ d < kStrandNs then some (p.1.2, d) else none

def ServiceReport.byPid (s : ServiceReport) : List (Int32 × UInt64) :=
  let src := if s.picks ≠ [] then s.picks else s.switchPicks
  (src.flatMap fun r => (neighbours (orderBy Prod.fst r.2)).filterMap served).foldl
    (fun t p => adjust p.1 0 (· + p.2) t) []

/-- `ServiceReport::compute`, which returns before the verdict if nobody was
served. -/
def ServiceReport.compute (s : ServiceReport) : ReportResult F :=
  let svc := sorted (s.byPid.map Prod.snd)
  if s.byPid = [] ∨ svc = [] then {}
  else
    let total := svc.foldl (· + ·) 0
    let np := svc.length
    let top1 := svc.getLast?.getD 0
    let fair := env.div (env.ofNat total.toNat) (env.ofNat np)
    let top1Pct := percent env top1.toNat total.toNat
    let res : ReportResult F :=
      ReportResult.gauge "montauk_analysis_service_top1_pct" [] top1Pct {}
        |>.gauge "montauk_analysis_service_pids" [] (env.ofNat np)
    if svc = [] then res.setVerdict "NO-SERVICE" [spelling "no service (PICK stream absent)"]
    else
      res.setVerdict (if env.le (env.ofNat 50) top1Pct then "SKEWED" else "EVEN")
        [fmtCount env (env.ofNat np), spelling " PIDs ran; per-PID service p50 ",
          env.fixed 1 (qMs env svc 0.50), spelling "ms p99 ", env.fixed 1 (qMs env svc 0.99),
          spelling "ms max ", env.fixed 1 (ms env top1), spelling "ms; fair-share ",
          env.fixed 1 (env.div fair (env.ofNat 1000000)), spelling "ms"]

/-! ## wakers -/

structure WakersReport where
  wakeCount : List (Int32 × Nat) := []
  w2rByPid : List (Int32 × List UInt64) := []
  totalWakes : Nat := 0

def WakersReport.fold (s : WakersReport) (r : TraceRecord) : WakersReport :=
  match r with
  | .sched e =>
      if e.op = .wakeup then
        if 0 ≤ e.secondaryPid then
          { s with
            wakeCount := adjust e.secondaryPid 0 (· + 1) s.wakeCount
            totalWakes := s.totalWakes + 1 }
        else s
      else if e.op = .wake2run ∧ env.qual.matchesPid e = true then
        { s with w2rByPid := push e.pid e.runtimeNs s.w2rByPid }
      else s
  | _ => s

/-- From how many wakes on a waker is hot. -/
def WakersReport.thresh (s : WakersReport) : Nat :=
  let sum := (s.wakeCount.map Prod.snd).sum
  let mean := env.div (env.ofNat sum) (env.ofNat s.wakeCount.length)
  max (env.toNat (env.mul mean (env.ofNat 8))) 8

def WakersReport.hot (s : WakersReport) : List (Int32 × Nat) :=
  s.wakeCount.filter fun r => s.thresh env ≤ r.2

/-- The waits of the hot wakers, or of the others. -/
def WakersReport.waitsOf (s : WakersReport) (hot : Bool) : List UInt64 :=
  sorted ((s.w2rByPid.filter fun r =>
    ((s.hot env).any fun h => h.1 = r.1) = hot).flatMap Prod.snd)

def WakersReport.compute (s : WakersReport) : ReportResult F :=
  if s.wakeCount = [] then
    ReportResult.setVerdict "NO-WAKER-EDGES"
      [spelling "no waker edges (pre-v7.9.0 trace -- sched_wakeup did not stamp the waker); ",
        spelling "re-capture to resolve"] {}
  else
    let hot := s.hot env
    let msg := s.waitsOf env true
    let wrk := s.waitsOf env false
    let mp99 := if msg = [] then env.ofNat 0 else qUs env msg 0.99
    let wp99 := if wrk = [] then env.ofNat 0 else qUs env wrk 0.99
    (ReportResult.setVerdict
      (if env.lt (env.ofNat 0) mp99 && env.lt (env.ofNat 0) wp99
          && env.le (env.mul (env.ofNat 2) wp99) mp99 then "MESSENGER-CLIFF"
        else if hot = [] then "NO-HOT-WAKERS" else "HOT-WAKERS")
      [fmtCount env (env.ofNat s.wakeCount.length), spelling " waker pids, ",
        fmtCount env (env.ofNat hot.length), spelling " hot (messengers, >=", num (s.thresh env),
        spelling " wakes); ", fmtCount env (env.ofNat s.totalWakes), spelling " total wakes"] {})
      |>.gauge "montauk_analysis_waker_pids" [] (env.ofNat s.wakeCount.length)
      |>.gauge "montauk_analysis_waker_hot_pids" [] (env.ofNat hot.length)
      |>.gauge "montauk_analysis_waker_wakes_total" [] (env.ofNat s.totalWakes)
      |>.gauge "montauk_analysis_waker_hot_threshold" [] (env.ofNat (s.thresh env))
      |>.quantiles "montauk_analysis_waker_messenger_wake2run_us"
        [("0.5", qUs env msg 0.50), ("0.99", qUs env msg 0.99), ("0.999", qUs env msg 0.999)]
      |>.quantiles "montauk_analysis_waker_worker_wake2run_us"
        [("0.5", qUs env wrk 0.50), ("0.99", qUs env wrk 0.99), ("0.999", qUs env wrk 0.999)]

/-! ## fractal -/

structure FractalReport where
  dispTs : List UInt64 := []
  migTs : List UInt64 := []

def FractalReport.fold (s : FractalReport) (r : TraceRecord) : FractalReport :=
  match r with
  | .sched e =>
      if e.op = .wake2run ∧ env.qual.matchesPid e = true then
        { dispTs := s.dispTs ++ [e.timestampNs]
          migTs := if e.subIdx ≠ 0 then s.migTs ++ [e.timestampNs] else s.migTs }
      else s
  | _ => s

/-- `FractalReport::SeriesOut`. -/
structure SeriesOut (F : Type) where
  name : String
  h : F
  se : F
  hrs : F
  dim : F
  decades : F
  ok : Bool

def analyzeSeries (name : String) (rate : List F) : SeriesOut F :=
  if rate.length < 32 then
    { name, h := env.nan, se := env.nan, hrs := env.nan, dim := env.nan, decades := env.ofNat 0,
      ok := false }
  else
    let (h, se, decades) := env.dfaHurst rate
    { name, h, se, hrs := env.rsHurst rate, dim := env.sub (env.ofNat 2) h, decades,
      ok := env.finite h }

/-- `bin_rate_series`; the tail goes into the last bin. -/
def binRateSeries (ts : List UInt64) (t0 w : UInt64) (nbins : Nat) : List F :=
  let bins := List.replicate nbins (env.ofNat 0)
  if w = 0 ∨ nbins = 0 then bins
  else
    (ts.filter fun t => t0 ≤ t).foldl (fun r t =>
      let i := ((t - t0) / w).toNat
      r.modify (if nbins ≤ i then nbins - 1 else i) fun x => env.add x (env.ofNat 1)) bins

/-- The width of a bin, between 10 µs and 10 ms. -/
def binWidth (span : UInt64) : UInt64 :=
  let w := span / 120000
  let w := if w < 10000 then 10000 else w
  if 10000000 < w then 10000000 else w

/-- The exponent is two standard errors above a half. -/
def SeriesOut.persistent (o : SeriesOut F) : Bool :=
  env.lt (env.ofRat 0.5) (env.sub o.h (env.mul (env.ofNat 2) o.se))

/-- The exponent is two standard errors below a half. -/
def SeriesOut.anti (o : SeriesOut F) : Bool :=
  env.lt (env.add o.h (env.mul (env.ofNat 2) o.se)) (env.ofRat 0.5)

def FractalReport.conclude (out : List (SeriesOut F)) (nbins : Nat) (res : ReportResult F) :
    ReportResult F :=
  let pers := out.countP fun o => o.ok && o.persistent env
  let anti := out.countP fun o => o.ok && !o.persistent env && o.anti env
  if pers ≠ 0 then
    res.setVerdict "PERSISTENT"
      [num pers, spelling " of ", num out.length,
        spelling " series long-range dependent (Hurst 2 s.e. above 0.5) over ", num nbins,
        spelling " bins -- bursts beget bursts"]
  else if anti ≠ 0 then
    res.setVerdict "ANTI-PERSISTENT"
      [num anti, spelling " of ", num out.length,
        spelling " series mean-reverting (Hurst 2 s.e. below 0.5) over ", num nbins,
        spelling " bins"]
  else
    res.setVerdict "UNCORRELATED"
      [spelling "no series separates from uncorrelated (Hurst within 2 s.e. of 0.5) over ",
        num nbins, spelling " bins"]

def FractalReport.compute (s : FractalReport) : ReportResult F :=
  let all := s.dispTs ++ s.migTs
  if all = [] then
    ReportResult.setVerdict "NO-SCHED"
      [spelling "no SCHED events in trace -- nothing to analyze"] {}
  else
    let t0 := all.foldl (fun m t => if t < m then t else m) 0xFFFFFFFFFFFFFFFF
    let t1 := all.foldl (fun m t => if m < t then t else m) 0
    if t1 ≤ t0 then
      ReportResult.setVerdict "ZERO-DURATION"
        [spelling "zero-duration timeline -- nothing to analyze"] {}
    else
      let w := binWidth (t1 - t0)
      let nbins := ((t1 - t0) / w).toNat + 1
      let mig := binRateSeries env s.migTs t0 w nbins
      let out :=
        [analyzeSeries env "dispatch-rate" (binRateSeries env s.dispTs t0 w nbins),
          analyzeSeries env "migration-rate" mig]
      let (avalanches, slope) := env.avalancheTail mig
      let series := out.filter SeriesOut.ok
      let gauges := series.flatMap fun o =>
        [("montauk_fractal_hurst_dfa", o.name, o.h), ("montauk_fractal_hurst_dfa_se", o.name, o.se),
          ("montauk_fractal_hurst_rs", o.name, o.hrs), ("montauk_fractal_dimension", o.name, o.dim),
          ("montauk_fractal_decades", o.name, o.decades)]
      let res : ReportResult F := gauges.foldl (fun res g =>
        res.gauge g.1 (spelling "series=\"" ++ spelling g.2.1 ++ spelling "\"") g.2.2) {}
      let res :=
        if 5 ≤ avalanches then
          res.gauge "montauk_fractal_avalanches" [] (env.ofNat avalanches.toNat)
            |>.gauge "montauk_fractal_avalanche_slope" [] slope
        else res
      FractalReport.conclude env out nbins res

/-! ## kstrand -/

/-- `KStrandReport::Agg`. -/
structure StrandAgg where
  cpu : UInt32 := 0
  lat : List UInt64 := []
  held : Nat := 0
  dark : Nat := 0
  maxNs : UInt64 := 0
  worstRunTs : UInt64 := 0

/-- `KStrandReport`: the strands, until the idle intervals are complete. -/
structure KStrandReport where
  evs : List KstrandEvent := []
  total : Nat := 0

def KStrandReport.fold (s : KStrandReport) (r : TraceRecord) : KStrandReport :=
  match r with
  | .kstrand e => { evs := s.evs ++ [e], total := s.total + 1 }
  | _ => s

/-- The CPU was idle for most of the strand. -/
def KstrandEvent.isDark (idle : CpuIdleIntervals) (e : KstrandEvent) : Bool :=
  let waitStart := if e.latencyNs < e.timestampNs then e.timestampNs - e.latencyNs else 0
  e.latencyNs ≤ idle.overlap e.cpu waitStart e.timestampNs * 2

/-- What a strand adds to the row of its thread. -/
def StrandAgg.add (idle : CpuIdleIntervals) (e : KstrandEvent) (a : StrandAgg) : StrandAgg where
  cpu := e.cpu
  lat := a.lat ++ [e.latencyNs]
  held := if e.isDark idle then a.held else a.held + 1
  dark := if e.isDark idle then a.dark + 1 else a.dark
  maxNs := if a.maxNs < e.latencyNs then e.latencyNs else a.maxNs
  worstRunTs := if a.maxNs < e.latencyNs then e.timestampNs else a.worstRunTs

/-- The rows, by the name of the thread. -/
def KStrandReport.byComm (s : KStrandReport) (idle : CpuIdleIntervals) :
    List (List UInt8 × StrandAgg) :=
  s.evs.foldl (fun t e => adjust (cstr (e.comm.take 16)) {} (StrandAgg.add idle e) t) []

def KStrandReport.worstHeld (s : KStrandReport) (idle : CpuIdleIntervals) : UInt64 :=
  worstOf ((s.evs.filter fun e => !e.isDark idle).map KstrandEvent.latencyNs)

def KStrandReport.compute (s : KStrandReport) (sub : SchedSubstrate) : ReportResult F :=
  let rows := s.byComm sub.idle
  let held : Nat := (rows.map fun r => r.2.held).sum
  let dark : Nat := (rows.map fun r => r.2.dark).sum
  let worst := ms env (s.worstHeld sub.idle)
  let res : ReportResult F :=
    if s.evs.isEmpty then
      ReportResult.setVerdict "NO-STRAND"
        [spelling "no per-CPU kthread strands over threshold ",
          spelling "(no I/O-completion starvation captured)"] {}
    else
      ReportResult.setVerdict
        (if dark < held then "STRAND-HELD" else if dark ≠ 0 then "STRAND-DARK" else "STRAND")
        [num s.total, spelling " strands across ", num rows.length,
          spelling " per-CPU kthreads; worst HELD strand ", env.fixed 1 worst,
          spelling "ms (I/O-completion freeze signature)"] {}
  res.gauge "montauk_analysis_kstrand_events_total" [] (env.ofNat s.total)
    |>.gauge "montauk_analysis_kstrand_worst_held_ms" [] worst

/-! ## locality -/

/-- The cache domains and the socket of a CPU, as the snapshot names them. -/
structure TopoEntry where
  l2 : UInt32
  l3 : UInt32
  socket : UInt32

structure LocalityReport where
  topo : List (UInt32 × TopoEntry) := []
  haveTopo : Bool := false
  tier : Fin 4 → Nat := fun _ => 0
  migrations : Nat := 0
  unmapped : Nat := 0
  lastMigTs : List (Int32 × UInt64) := []
  lastLane : List (Int32 × UInt32) := []
  stealMig : Nat := 0
  placeMig : Nat := 0
  stealIv : List UInt64 := []
  placeIv : List UInt64 := []
  haveLane : Bool := false
  intervals : List UInt64 := []
  tsMin : UInt64 := 0
  tsMax : UInt64 := 0

/-- `strtoul` to the base of ten, on a string without a NUL. -/
def strtoul (s : List UInt8) : UInt64 :=
  let s := s.dropWhile fun c => c = 0x20 || 0x09 ≤ c && c ≤ 0x0d
  let (negative, s) := match s with
    | 0x2d :: s => (true, s)
    | 0x2b :: s => (false, s)
    | s => (false, s)
  let n := (s.takeWhile digitByte).foldl (fun n c => 10 * n + (c.toNat - 0x30)) 0
  if 2 ^ 64 ≤ n then 0xFFFFFFFFFFFFFFFF
  else if negative then 0 - UInt64.ofNat n
  else UInt64.ofNat n

/-- `LocalityReport::pu`: the number behind `key="`. -/
def pu (line : List UInt8) (key : String) : Option UInt32 :=
  let pat := spelling key ++ spelling "=\""
  (line.tails.find? fun t => pat.isPrefixOf t).map fun t =>
    (strtoul (cstr (t.drop pat.length))).toUInt32

def topoLine (line : List UInt8) : Option (UInt32 × TopoEntry) := do
  let cpu ← pu line "cpu"
  let l2 ← pu line "l2"
  let l3 ← pu line "l3"
  let socket ← pu line "socket"
  return (cpu, { l2, l3, socket })

def LocalityReport.parseTopo (text : List UInt8) (s : LocalityReport) : LocalityReport :=
  let found := (pieces Ch.newline text).filterMap topoLine
  { s with
    topo := found.foldl (fun t r => assign r.1 r.2 t) s.topo
    haveTopo := s.haveTopo || !found.isEmpty }

/-- `LocalityReport::tier`: how far two CPUs are from each other. -/
def tierBetween (topo : List (UInt32 × TopoEntry)) (a b : UInt32) : Option (Fin 4) :=
  match rowOf a topo, rowOf b topo with
  | some ta, some tb =>
      if ta.l2 = tb.l2 then some 0
      else if ta.l3 = tb.l3 then some 1
      else if ta.socket = tb.socket then some 2
      else some 3
  | _, _ => none

/-- A `WAKE2RUN` on another CPU than the one before. -/
def LocalityReport.migrate (e : SchedEvent) (s : LocalityReport) : LocalityReport :=
  let bySteal := (rowOf e.pid s.lastLane).any fun lane => 0 < lane
  let ivs := ((rowOf e.pid s.lastMigTs).filter fun t => t < e.timestampNs).toList.map
    fun t => e.timestampNs - t
  let s := { s with
    migrations := s.migrations + 1
    stealMig := if bySteal then s.stealMig + 1 else s.stealMig
    placeMig := if bySteal then s.placeMig else s.placeMig + 1
    intervals := s.intervals ++ ivs
    stealIv := if bySteal then s.stealIv ++ ivs else s.stealIv
    placeIv := if bySteal then s.placeIv else s.placeIv ++ ivs
    lastMigTs := assign e.pid e.timestampNs s.lastMigTs }
  match tierBetween s.topo e.lastCpu.toUInt32 e.cpu with
  | none => { s with unmapped := s.unmapped + 1 }
  | some t => { s with tier := fun t' => if t' = t then s.tier t' + 1 else s.tier t' }

def LocalityReport.foldSched (s : LocalityReport) (e : SchedEvent) : LocalityReport :=
  if !env.qual.matchesPid e then s
  else
    let s := { s with
      tsMin := if s.tsMin = 0 ∨ e.timestampNs < s.tsMin then e.timestampNs else s.tsMin
      tsMax := if s.tsMax < e.timestampNs then e.timestampNs else s.tsMax }
    if e.op = .pick then { s with lastLane := assign e.pid e.subIdx s.lastLane, haveLane := true }
    else if e.op ≠ .wake2run then s
    else if e.lastCpu < 0 ∨ e.lastCpu = e.cpu.toInt32 then s
    else s.migrate e

def LocalityReport.fold (s : LocalityReport) (r : TraceRecord) : LocalityReport :=
  match r with
  | .provider e =>
      if cstr (e.name.take 32) ≠ spelling "cache_topology" then s
      else s.parseTopo (e.rest.take e.payloadLen.toNat)
  | .sched e => s.foldSched env e
  | _ => s

/-- From the first tier with any moves on no tier has more than the one before
it. -/
def decays : List Nat → Bool
  | [] => true
  | n :: ns =>
      if n = 0 then decays ns
      else (n :: ns).zip ns |>.all fun p => p.2 ≤ p.1

/-- The moves of the tiers, the nearest first. -/
def LocalityReport.tiers (s : LocalityReport) : List Nat := (List.finRange 4).map s.tier

def LocalityReport.compute (s : LocalityReport) : ReportResult F :=
  if !s.haveTopo then
    ReportResult.setVerdict "NO-TOPOLOGY"
      [spelling "no cache_topology snapshot in the trace -- cannot map migration distance ",
        spelling "(recapture with montauk >= 7.8.0)"] {}
  else
    let cl := s.tiers.sum
    if cl = 0 then
      ReportResult.setVerdict "NONE" [spelling "no cross-CPU migrations captured"] {}
    else
      let mono := decays s.tiers
      let localPct := percent env (s.tier 0 + s.tier 1) cl
      let spanS :=
        if s.tsMin < s.tsMax then
          env.div (env.ofNat (s.tsMax - s.tsMin).toNat) (env.ofNat 1000000000)
        else env.ofNat 0
      let res :=
        (ReportResult.setVerdict
          (if !mono then "SCATTERED"
            else if env.le (env.ofNat 90) localPct then "CACHE-LOCAL" else "SPREAD")
          [env.fixed 1 localPct,
            spelling "% of migrations stay cache-local (same-L2/L3); density ",
            spelling (if mono then "decays with distance (locality preserved)"
              else "does NOT decay with distance (placement scatters across domains)")] {})
          |>.gaugeEach "montauk_analysis_locality_tier_moves"
            (["same_l2", "same_l3", "same_socket", "cross_socket"].zip s.tiers)
            (fun t => spelling "tier=\"" ++ spelling t.1 ++ spelling "\"") (fun t => env.ofNat t.2)
          |>.gauge "montauk_analysis_locality_local_pct" [] localPct
          |>.gauge "montauk_analysis_locality_migration_rate_hz" []
            (if env.lt (env.ofNat 0) spanS then env.div (env.ofNat s.migrations) spanS
              else env.ofNat 0)
      if s.intervals = [] then res
      else
        res.quantiles "montauk_analysis_locality_intermigration_us"
          [("p50", qUs env (sorted s.intervals) 0.50), ("p99", qUs env (sorted s.intervals) 0.99)]

end Montauk.Tools
