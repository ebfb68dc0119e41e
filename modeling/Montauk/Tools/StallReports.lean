import Montauk.Tools.Substrate

/-!
# The reports on floored wakes and kicks

`placement-race`, `dispatch-stall` and `kick-latency`: what each of them keeps
of the records, and how it composes its conclusion from that and from the
timelines of the driver. The tables that `emit` prints and the offenders are
left out.
-/

namespace Montauk.Tools

open Scan Timeline Trace
open App (spelling)
open Emit (decimal)

variable {F : Type} (env : ReportEnv F)

/-- `kTickFloorNs`: from 900 µs on a wait is floored to a tick. -/
def kTickFloorNs : UInt64 := 900000

/-- When the wakee of a `WAKE2RUN` became runnable. -/
def SchedEvent.wakeTs (e : SchedEvent) : UInt64 :=
  if e.runtimeNs < e.timestampNs then e.timestampNs - e.runtimeNs else 0

/-! ## placement-race -/

structure PlacementRaceReport where
  idleEvt : List (UInt32 × List (UInt64 × Bool)) := []
  floored : List (UInt64 × UInt32) := []
  w2rTotal : Nat := 0
  maxCpu : UInt32 := 0

def PlacementRaceReport.fold (s : PlacementRaceReport) (r : TraceRecord) : PlacementRaceReport :=
  match r with
  | .sched e =>
      let s := { s with maxCpu := if s.maxCpu < e.cpu then e.cpu else s.maxCpu }
      if e.op = .cpuIdle then
        { s with idleEvt := push e.cpu (e.timestampNs, e.subIdx ≠ 0) s.idleEvt }
      else if e.op ≠ .wake2run then s
      else
        let s := { s with w2rTotal := s.w2rTotal + 1 }
        if e.runtimeNs < kTickFloorNs then s
        else { s with floored := s.floored ++ [(e.wakeTs, e.cpu)] }
  | _ => s

def idleAt (ev : List (UInt64 × Bool)) (t : UInt64) : Bool :=
  match ev with
  | [] => false
  | first :: _ =>
      if t < first.1 then false
      else
        let lo := lowerBound (fun e : UInt64 × Bool => e.1 ≤ t) ev
        0 < lo && (ev[lo - 1]?).any Prod.snd

/-- The loop over the CPUs from `c` on, which counts those that `home` takes;
nothing if it has not come to its end in so many steps. -/
def countCpus (home : UInt32 → Bool) (maxCpu : UInt32) : Nat → UInt32 → Nat → Option Nat
  | 0, _, _ => none
  | fuel + 1, c, n =>
      if c ≤ maxCpu then countCpus home maxCpu fuel (c + 1) (if home c then n + 1 else n)
      else some n

/-- The CPU is another one than the wakee ran on, and idle at its wake. -/
def betterHome (idleEvt : List (UInt32 × List (UInt64 × Bool))) (fw : UInt64 × UInt32)
    (c : UInt32) : Bool :=
  c ≠ fw.2 && (rowOf c idleEvt).any fun ev => idleAt ev fw.1

/-- How many better homes each floored wake had. -/
def PlacementRaceReport.idleCounts (s : PlacementRaceReport) (fuel : Nat) : Option (List Nat) :=
  let idleEvt := s.idleEvt.map fun r => (r.1, orderBy Prod.fst r.2)
  s.floored.mapM fun fw => countCpus (betterHome idleEvt fw) s.maxCpu fuel 0 0

/-- `PlacementRaceReport::compute`; nothing if a loop has not ended in so many
steps. -/
def PlacementRaceReport.compute (fuel : Nat) (s : PlacementRaceReport) :
    Option (ReportResult F) :=
  if s.idleEvt = [] then
    some (ReportResult.setVerdict "NO-IDLE-STREAM"
      [spelling "no CPU_IDLE events -- trace captured by a montauk without per-CPU idle ",
        spelling "streaming; re-capture to resolve"] {})
  else if s.floored = [] then
    some (ReportResult.setVerdict "NONE"
      [spelling "no tick-floored wakeups (>=900us) -- nothing to attribute"] {})
  else
    (s.idleCounts fuel).map fun counts =>
      let miss := counts.countP fun k => k ≠ 0
      let n := counts.length
      let missPct := percent env miss n
      let satPct := percent env (n - miss) n
      let avgIdle :=
        if miss ≠ 0 then env.div (env.ofNat counts.sum) (env.ofNat miss) else env.ofNat 0
      (ReportResult.setVerdict
        (if env.le (env.ofNat 66) missPct then "PLACEMENT-MISS"
          else if env.le (env.ofNat 66) satPct then "SATURATED" else "MIXED")
        [fmtCount env (env.ofNat n), spelling " tick-floored wakes (>=900us); PLACEMENT-MISS ",
          env.fixed 0 missPct, spelling "% (idle CPU was free) / SATURATED ", env.fixed 0 satPct,
          spelling "% (all busy); avg ", env.fixed 1 avgIdle,
          spelling " idle CPUs free at a miss"] {})
        |>.gauge "montauk_analysis_floored_wakes" [] (env.ofNat n)
        |>.gauge "montauk_analysis_placement_miss_pct" [] missPct
        |>.gauge "montauk_analysis_reroutable_pct" [] missPct
        |>.gauge "montauk_analysis_saturated_pct" [] satPct
        |>.gauge "montauk_analysis_avg_idle_at_miss" [] avgIdle

/-! ## dispatch-stall -/

/-- `DispatchStallReport::FW`. -/
structure FlooredWake where
  wakeTs : UInt64
  runTs : UInt64
  cpu : UInt32
  pid : Int32

structure DispatchStallReport where
  floored : List FlooredWake := []
  maxTs : UInt64 := 0

def kCensoredStrandNs : UInt64 := 50000000

def DispatchStallReport.fold (s : DispatchStallReport) (r : TraceRecord) : DispatchStallReport :=
  match r with
  | .sched e =>
      let s := { s with maxTs := if s.maxTs < e.timestampNs then e.timestampNs else s.maxTs }
      if e.op ≠ .wake2run then s
      else if e.runtimeNs < kTickFloorNs then s
      else if !env.qual.matchesPid e then s
      else { s with floored := s.floored ++ [⟨e.wakeTs, e.timestampNs, e.cpu, e.pid⟩] }
  | _ => s

def clsOf (score : UInt64) : UInt64 := score >>> 48

/-- How a pass-over stands to the pick that served the wakee. -/
inductive Standing where
  | unranked
  | higher
  | lower
  | newer
  | older
deriving DecidableEq

def Pk.standing (served : Option Pk) (p : Pk) : Standing :=
  match served with
  | none => .unranked
  | some s =>
      if clsOf s.score < clsOf p.score then .higher
      else if clsOf p.score < clsOf s.score then .lower
      else if p.score < s.score then .newer
      else .older

/-- A pass-over that only eligibility could remove. -/
def Standing.legit : Standing → Bool
  | .higher | .older | .unranked => true
  | .lower | .newer => false

/-- A floored wake with the pick that served it and its pass-overs. -/
structure WakeStall where
  fw : FlooredWake
  served : Option Pk := none
  passed : List Pk := []

/-- What the picks of its CPU tell about a floored wake. -/
def stallOf (src : List (UInt32 × List Pk)) (fw : FlooredWake) : WakeStall :=
  match rowOf fw.cpu src with
  | none => { fw }
  | some pv =>
      { fw
        served := ((pv.drop (lowerBound (fun p : Pk => p.ts < fw.runTs) pv)).takeWhile
          fun p => p.ts ≤ fw.runTs + kTickFloorNs).find? fun p => p.pid = fw.pid
        passed := ((pv.drop (lowerBound (fun p : Pk => p.ts < fw.wakeTs) pv)).takeWhile
          fun p => p.ts < fw.runTs).filter fun p => p.pid ≠ fw.pid }

namespace WakeStall

def inter (w : WakeStall) : Nat := w.passed.length

def countOf (st : Standing) (w : WakeStall) : Nat := w.passed.countP fun p => p.standing w.served = st

def legit (w : WakeStall) : Nat := w.passed.countP fun p => (p.standing w.served).legit

/-- The size of `po_pids`. -/
def distinct (w : WakeStall) : Nat := (w.passed.map Pk.pid).eraseDups.length

def preempt (w : WakeStall) : Bool := w.inter = 0

def waitNs (w : WakeStall) : UInt64 :=
  if w.fw.wakeTs < w.fw.runTs then w.fw.runTs - w.fw.wakeTs else 0

/-- The CPU was idle for most of the wait. -/
def dark (idle : CpuIdleIntervals) (w : WakeStall) : Bool :=
  w.waitNs ≠ 0 && w.waitNs ≤ idle.overlap w.fw.cpu w.fw.wakeTs w.fw.runTs * 2

end WakeStall

def total (count : WakeStall → Nat) (ws : List WakeStall) : Nat := (ws.map count).sum

/-- What `DispatchStallReport::compute` counts. -/
structure StallCounts where
  n : Nat := 0
  preempt : Nat := 0
  order : Nat := 0
  interSum : Nat := 0
  distinctSum : Nat := 0
  haveIdle : Bool := false
  dark : Nat := 0
  held : Nat := 0
  worstDarkNs : UInt64 := 0
  poTotal : Nat := 0
  poMirror : Nat := 0
  servedTotal : Nat := 0
  servedMirror : Nat := 0
  clsTotal : Nat := 0
  clsHigher : Nat := 0
  clsSame : Nat := 0
  clsLower : Nat := 0
  sameNewer : Nat := 0
  interV : List UInt64 := []
  legitV : List UInt64 := []
  reconstructed : Bool := false

def DispatchStallReport.counts (s : DispatchStallReport) (sub : SchedSubstrate) : StallCounts :=
  let ws := s.floored.map (stallOf sub.picks.active)
  let haveIdle := !sub.idle.iv.isEmpty
  let preempt := ws.filter WakeStall.preempt
  let order := ws.filter fun w => !w.preempt
  let dark := if haveIdle then preempt.filter fun w => w.dark sub.idle else []
  let ranked := ws.filter fun w => w.served.isSome
  { n := preempt.length + order.length
    preempt := preempt.length
    order := order.length
    interSum := total WakeStall.inter order
    distinctSum := total WakeStall.distinct ws
    haveIdle
    dark := dark.length
    held := if haveIdle then (preempt.filter fun w => !w.dark sub.idle).length else 0
    worstDarkNs := dark.foldl (fun m w => if m < w.waitNs then w.waitNs else m) 0
    poTotal := total WakeStall.inter ws
    poMirror := total (fun w => w.passed.countP fun p => p.lane = 0) ws
    servedTotal := ranked.length
    servedMirror := ranked.countP fun w => w.served.any fun p => p.lane = 0
    clsTotal := total WakeStall.inter ranked
    clsHigher := total (WakeStall.countOf .higher) ranked
    clsSame := total (fun w => w.countOf .newer + w.countOf .older) ranked
    clsLower := total (WakeStall.countOf .lower) ranked
    sameNewer := total (WakeStall.countOf .newer) ranked
    interV := sorted (ws.map fun w => UInt64.ofNat w.inter)
    legitV := sorted (ws.map fun w => UInt64.ofNat w.legit)
    reconstructed := sub.picks.reconstructed }

/-- The CPUs idle at the end of the trace for long, with how long. -/
def DispatchStallReport.censored (s : DispatchStallReport) (idle : CpuIdleIntervals) :
    List UInt64 :=
  (idle.opened.filter fun r => r.2 < s.maxTs && kCensoredStrandNs ≤ s.maxTs - r.2).map
    fun r => s.maxTs - r.2

def worstOf (dark : List UInt64) : UInt64 := dark.foldl (fun m d => if m < d then d else m) 0

/-- `snprintf` into a buffer of 512 bytes. -/
def bounded (text : List (List UInt8)) : List UInt8 := text.flatten.take 511

def DispatchStallReport.buildVerdict (s : DispatchStallReport) (c : StallCounts)
    (censored : List UInt64) (res : ReportResult F) : ReportResult F :=
  let preemptPct := percent env c.preempt c.n
  let orderPct := percent env c.order c.n
  let avgInter :=
    if c.order ≠ 0 then env.div (env.ofNat c.interSum) (env.ofNat c.order) else env.ofNat 0
  let verdict :=
    if s.floored = [] then
      bounded [spelling "no tick-floored wakes to attribute",
        if censored = [] then spelling " (nothing pending)" else []]
    else
      bounded [fmtCount env (env.ofNat c.n), spelling " saturated floored wakes; PREEMPT-STARVED ",
        env.fixed 0 preemptPct, spelling "% / ORDER-STARVED ", env.fixed 0 orderPct,
        spelling "%; avg ", env.fixed 1 avgInter, spelling " pass-overs, p99 ",
        num (qAt env c.interV 0.99).toNat]
  let dark :=
    if c.haveIdle ∧ s.floored ≠ [] then
      bounded [spelling "; ", env.fixed 0 (percent env c.dark c.preempt), spelling "% DARK (worst ",
        env.fixed 1 (ms env c.worstDarkNs), spelling "ms) / ",
        env.fixed 0 (percent env c.held c.preempt), spelling "% HELD"]
    else []
  let pending :=
    if censored ≠ [] then
      bounded [spelling "; CENSORED ", num censored.length,
        spelling " CPU(s) dark at trace end, worst ", env.fixed 1 (ms env (worstOf censored)),
        spelling "ms unresolved (host-death signature, not in worst-dark)"]
    else []
  let klass :=
    if s.floored = [] then "NONE"
    else if env.le (env.ofNat 66) preemptPct then "PREEMPT-STARVED"
    else if env.le (env.ofNat 66) orderPct then "ORDER-STARVED"
    else "MIXED"
  { res with verdict := verdict ++ dark ++ pending, klass := spelling klass }

/-- The gauges, once the verdict is built. -/
def DispatchStallReport.gauges (c : StallCounts) (censored : List UInt64) (res : ReportResult F) :
    ReportResult F :=
  let avg := fun part whole : Nat =>
    if whole ≠ 0 then env.div (env.ofNat part) (env.ofNat whole) else env.ofNat 0
  let avgInter := avg c.interSum c.order
  let p99 := qAt env c.interV 0.99
  let res :=
    if censored ≠ [] then
      res.gauge "montauk_analysis_dispatch_censored_strands" [] (env.ofNat censored.length)
        |>.gauge "montauk_analysis_dispatch_worst_censored_ms" [] (ms env (worstOf censored))
    else res
  if c.n = 0 then res
  else
    let res :=
      res.gauge "montauk_analysis_dispatch_preempt_pct" [] (percent env c.preempt c.n)
        |>.gauge "montauk_analysis_dispatch_order_pct" [] (percent env c.order c.n)
    let res :=
      if c.haveIdle then
        res.gauge "montauk_analysis_dispatch_dark_pct" [] (percent env c.dark c.preempt)
          |>.gauge "montauk_analysis_dispatch_held_pct" [] (percent env c.held c.preempt)
          |>.gauge "montauk_analysis_dispatch_worst_dark_ms" [] (ms env c.worstDarkNs)
      else res
    let res := res.gauge "montauk_analysis_dispatch_avg_passovers" [] avgInter
    let res :=
      if !c.reconstructed then
        res.gauge "montauk_analysis_dispatch_passover_mirror_pct" []
            (percent env c.poMirror c.poTotal)
          |>.gauge "montauk_analysis_dispatch_served_mirror_pct" []
            (percent env c.servedMirror c.servedTotal)
          |>.gauge "montauk_analysis_dispatch_passover_higher_class_pct" []
            (percent env c.clsHigher c.clsTotal)
          |>.gauge "montauk_analysis_dispatch_passover_same_class_pct" []
            (percent env c.clsSame c.clsTotal)
          |>.gauge "montauk_analysis_dispatch_passover_lower_class_pct" []
            (percent env c.clsLower c.clsTotal)
      else res
    res.gauge "montauk_analysis_dispatch_passover_p99" [] (env.ofNat p99.toNat)
      |>.gauge "montauk_analysis_dispatch_concentration_ratio" []
        (if env.lt (env.ofNat 0) avgInter then env.div (avg c.distinctSum c.n) avgInter
          else env.ofNat 0)
      |>.gauge "montauk_analysis_dispatch_ceiling_remains_pct" []
        (percent env (qAt env c.legitV 0.99).toNat p99.toNat)

def DispatchStallReport.compute (s : DispatchStallReport) (sub : SchedSubstrate) :
    ReportResult F :=
  let censored := s.censored sub.idle
  if s.floored = [] then s.buildVerdict env {} censored {}
  else
    let c := s.counts sub
    let res := DispatchStallReport.gauges env c censored (s.buildVerdict env c censored {})
    if c.n = 0 then res
    else
      let preemptPct := percent env c.preempt c.n
      let orderPct := percent env c.order c.n
      let avgInter :=
        if c.order ≠ 0 then env.div (env.ofNat c.interSum) (env.ofNat c.order) else env.ofNat 0
      res.setVerdict (if env.le orderPct preemptPct then "PREEMPT-STARVED" else "ORDER-STARVED")
        [fmtCount env (env.ofNat c.n), spelling " saturated floored wakes; PREEMPT-STARVED ",
          env.fixed 0 preemptPct, spelling "% (0 intervening picks) / ORDER-STARVED ",
          env.fixed 0 orderPct, spelling "% (CPU served others first); avg ",
          env.fixed 1 avgInter, spelling " pass-overs, p99 ",
          num (qAt env c.interV 0.99).toNat, spelling " pass-overs"]

/-! ## kick-latency -/

/-- `KickLatencyReport::Ev`. -/
structure KickEv where
  ts : UInt64
  issuerOrCaller : UInt32
  aux : UInt64

structure KickLatencyReport where
  kicks : List (UInt32 × List KickEv) := []
  resched : List (UInt32 × List UInt64) := []
  tickStop : List (UInt32 × List KickEv) := []
  lastTs : UInt64 := 0

def KickLatencyReport.fold (s : KickLatencyReport) (r : TraceRecord) : KickLatencyReport :=
  match r with
  | .sched e =>
      let s := { s with lastTs := if s.lastTs < e.timestampNs then e.timestampNs else s.lastTs }
      match e.op with
      | .kickIssue =>
          { s with kicks := push e.cpu ⟨e.timestampNs, e.lastCpu.toUInt32, e.score⟩ s.kicks }
      | .resched => { s with resched := push e.cpu e.timestampNs s.resched }
      | .tickStop =>
          { s with tickStop := push e.cpu ⟨e.timestampNs, e.subIdx, e.score⟩ s.tickStop }
      | _ => s
  | _ => s

/-- What became of a kick. -/
inductive KickOutcome where
  | answered (latency : UInt64)
  | unanswered (tickless : Bool)

def KickOutcome.latency? : KickOutcome → Option UInt64
  | .answered latency => some latency
  | .unanswered _ => none

def KickOutcome.isTickless : KickOutcome → Bool
  | .answered _ => false
  | .unanswered tickless => tickless

/-- The tick of the CPU was stopped in the 5 ms before the kick. -/
def freshTickStop (tstop : List KickEv) (kickTs : UInt64) : Bool :=
  (tstop.reverse.find? fun e => e.ts ≤ kickTs).any fun e =>
    kickTs - e.ts ≤ 5000000 && e.issuerOrCaller = 1

/-- A kick, which has until `bound` to be answered. -/
def kickOutcome (rs : List UInt64) (tstop : List KickEv) (kickTs bound : UInt64) : KickOutcome :=
  match rs[lowerBound (fun t : UInt64 => t < kickTs) rs]? with
  | none => .unanswered (freshTickStop tstop kickTs)
  | some t =>
      if t ≤ bound then .answered (t - kickTs) else .unanswered (freshTickStop tstop kickTs)

/-- The kicks of a CPU one after the other, each bounded by the next. -/
def KickLatencyReport.cpuOutcomes (s : KickLatencyReport) (row : UInt32 × List KickEv) :
    List KickOutcome :=
  let rs := sorted ((rowOf row.1 s.resched).getD [])
  let ks := (orderBy KickEv.ts row.2).map KickEv.ts
  let tstop := orderBy KickEv.ts ((rowOf row.1 s.tickStop).getD [])
  (ks.zip (ks.tail ++ [s.lastTs])).map fun k => kickOutcome rs tstop k.1 k.2

def KickLatencyReport.outcomes (s : KickLatencyReport) : List KickOutcome :=
  s.kicks.flatMap s.cpuOutcomes

def KickLatencyReport.compute (s : KickLatencyReport) : ReportResult F :=
  let outcomes := s.outcomes
  let total := outcomes.length
  let latencies := sorted (outcomes.filterMap KickOutcome.latency?)
  let unanswered := outcomes.countP fun o => o.latency?.isNone
  let tickless := outcomes.countP KickOutcome.isTickless
  if s.kicks = [] then
    (ReportResult.setVerdict "NONE"
      [spelling "no kicks captured (scx_bpf_kick_cpu never fired, or MONTAUK_SCX_STORM off -- ",
        spelling "the storm probes are not attached)"] {}).gauge
      "montauk_analysis_kick_captured" [] (env.ofNat 0)
  else
    let res :=
      (ReportResult.setVerdict
        (if unanswered = 0 then "ALL-ANSWERED"
          else if tickless ≠ 0 then "UNANSWERED-TICKSTOP-RACE" else "UNANSWERED")
        [num total, spelling " kicks, ", num unanswered,
          spelling " unanswered (no resched observed before the next kick or trace end), ",
          num tickless, spelling " of those raced a fresh tick-stop"] {})
        |>.gauge "montauk_analysis_kick_captured" [] (env.ofNat 1)
        |>.gauge "montauk_analysis_kicks_total" [] (env.ofNat total)
        |>.gauge "montauk_analysis_kicks_unanswered" [] (env.ofNat unanswered)
        |>.gauge "montauk_analysis_kicks_tickless_raced" [] (env.ofNat tickless)
        |>.gauge "montauk_analysis_kick_unanswered_pct" [] (percent env unanswered total)
    if latencies = [] then res
    else
      res.quantiles "montauk_analysis_kick_resched_us"
        [("0.5", qUs env latencies 0.50), ("0.99", qUs env latencies 0.99),
          ("worst", qUs env latencies 1)]

end Montauk.Tools
