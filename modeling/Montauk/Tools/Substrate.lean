import Montauk.Tools.Reports

/-!
# What the driver folds once

The per-CPU timelines that several reports look at: when a CPU was idle, who
held it, and what it picked. The driver folds every record into them and they
are put in order before the first report computes.
-/

namespace Montauk.Tools

open Scan Timeline Trace
open App (spelling)

/-! ## Idle intervals -/

/-- `CpuIdleIntervals`: the intervals of each CPU, and when an idle CPU went
idle. -/
structure CpuIdleIntervals where
  iv : List (UInt32 × List (UInt64 × UInt64)) := []
  opened : List (UInt32 × UInt64) := []

namespace CpuIdleIntervals

def fold (s : CpuIdleIntervals) (cpu subIdx : UInt32) (ts : UInt64) : CpuIdleIntervals :=
  if subIdx = 1 then { s with opened := assign cpu ts s.opened }
  else
    match rowOf cpu s.opened with
    | none => s
    | some enter =>
        if enter < ts then { iv := push cpu (enter, ts) s.iv, opened := erase cpu s.opened } else s

def finalize (s : CpuIdleIntervals) : CpuIdleIntervals :=
  { s with iv := s.iv.map fun r => (r.1, orderBy Prod.fst r.2) }

/-- How much of `[a, b)` the CPU was idle. -/
def overlap (s : CpuIdleIntervals) (cpu : UInt32) (a b : UInt64) : UInt64 :=
  match rowOf cpu s.iv with
  | none => 0
  | some ivs =>
      if b ≤ a then 0
      else
        let first := lowerBound (fun iv : UInt64 × UInt64 => iv.2 ≤ a) ivs
        ((ivs.drop first).takeWhile fun iv => iv.1 < b).foldl (fun acc iv =>
          let lo := if a < iv.1 then iv.1 else a
          let hi := if iv.2 < b then iv.2 else b
          if lo < hi then acc + (hi - lo) else acc) 0

end CpuIdleIntervals

/-! ## Holders -/

/-- `CpuHolderLedger`: who came on each CPU when, and the names of the
threads. -/
structure CpuHolderLedger where
  own : List (UInt32 × List (UInt64 × UInt32)) := []
  names : List (UInt32 × List UInt8) := []

/-- `CpuHolderLedger::Holder`. -/
structure Holder where
  tid : UInt32 := 0
  heldNs : UInt64 := 0
  windowNs : UInt64 := 0

namespace CpuHolderLedger

variable {F : Type} (env : ReportEnv F)

def learn (s : CpuHolderLedger) (tid : UInt32) (comm : List UInt8) : CpuHolderLedger :=
  if cstr comm = [] then s
  else if (rowOf tid s.names).isSome then s
  else { s with names := assign tid (redactComm env comm) s.names }

/-- A name that replaces what was there. -/
def learnAuthoritative (s : CpuHolderLedger) (tid : UInt32) (comm : List UInt8) :
    CpuHolderLedger :=
  if cstr comm = [] then s else { s with names := assign tid (redactComm env comm) s.names }

/-- What a ring event tells about names. -/
def learnRing (s : CpuHolderLedger) (e : RingEvent) : CpuHolderLedger :=
  match e.type with
  | .exit => s
  | .fork =>
      let s := s.learn env e.pid e.comm
      if e.childPid ≠ 0 then s.learn env e.childPid e.comm else s
  | .exec | .commChange | .threadName =>
      let s := s.learnAuthoritative env e.pid e.comm
      if e.childPid ≠ 0 then s.learnAuthoritative env e.childPid e.comm else s

def fold (s : CpuHolderLedger) (r : TraceRecord) : CpuHolderLedger :=
  match r with
  | .sched e =>
      if e.op = .switchIn ∨ e.op = .pick then
        { s with own := push e.cpu (e.timestampNs, e.pid.toUInt32) s.own }
      else s
  | .kstrand e => s.learn env e.tid e.comm
  | .sync (.io e) => s.learn env e.tid e.comm
  | .waitstack tid comm => s.learn env tid comm
  | .ring e => s.learnRing env e
  | _ => s

/-- By time, and by thread within it: the minor key first. -/
def finalize (s : CpuHolderLedger) : CpuHolderLedger :=
  { s with own := s.own.map fun r =>
      (r.1, orderBy Prod.fst (orderBy (fun p => p.2.toUInt64) r.2)) }

/-- The time each thread holds of `[t0, t1)`, from the segment that covers `t0`
on. -/
def heldIn (t0 t1 : UInt64) :
    List (UInt64 × UInt32) → List (UInt32 × UInt64) → List (UInt32 × UInt64)
  | [], acc => acc
  | seg :: rest, acc =>
      if t1 ≤ seg.1 then acc
      else
        let segHi := (rest.head?.map Prod.fst).getD t1
        let lo := if t0 < seg.1 then seg.1 else t0
        let hi := if segHi < t1 then segHi else t1
        heldIn t0 t1 rest (if lo < hi then adjust seg.2 0 (· + (hi - lo)) acc else acc)

/-- Who held the CPU most of `[t0, t1)`: of equal times the one met first, for
one order of a map that has none. -/
def dominant (s : CpuHolderLedger) (cpu : UInt32) (t0 t1 : UInt64) : Holder :=
  if t1 ≤ t0 then {}
  else
    match rowOf cpu s.own with
    | none => { windowNs := t1 - t0 }
    | some tl =>
        let i := lowerBound (fun e : UInt64 × UInt32 => e.1 < t0) tl
        (heldIn t0 t1 (tl.drop (i - 1)) []).foldl
          (fun h r => if h.heldNs < r.2 then { h with tid := r.1, heldNs := r.2 } else h)
          { windowNs := t1 - t0 }

end CpuHolderLedger

/-! ## Picks -/

/-- `CpuPickTimeline::Pk`. -/
structure Pk where
  ts : UInt64
  pid : Int32
  lane : UInt32
  score : UInt64

/-- `CpuPickTimeline`: the scheduler's own picks, and those made of the
switches. -/
structure CpuPickTimeline where
  picks : List (UInt32 × List Pk) := []
  switchPicks : List (UInt32 × List Pk) := []

namespace CpuPickTimeline

def fold (s : CpuPickTimeline) (e : SchedEvent) : CpuPickTimeline :=
  if e.op = .pick then
    { s with picks := push e.cpu ⟨e.timestampNs, e.pid, e.subIdx, e.score⟩ s.picks }
  else if e.op = .switchIn then
    { s with switchPicks := push e.cpu ⟨e.timestampNs, e.pid, 0, 0⟩ s.switchPicks }
  else s

def reconstructed (s : CpuPickTimeline) : Bool := s.picks.isEmpty && !s.switchPicks.isEmpty

def active (s : CpuPickTimeline) : List (UInt32 × List Pk) :=
  if s.reconstructed then s.switchPicks else s.picks

def inOrder (rows : List (UInt32 × List Pk)) : List (UInt32 × List Pk) :=
  rows.map fun r => (r.1, orderBy Pk.ts r.2)

def finalize (s : CpuPickTimeline) : CpuPickTimeline :=
  if s.reconstructed then { s with switchPicks := inOrder s.switchPicks }
  else { s with picks := inOrder s.picks }

end CpuPickTimeline

/-! ## The driver's fold -/

/-- `g_sched_idle`, `g_sched_holder` and `g_sched_picks`. -/
structure SchedSubstrate where
  idle : CpuIdleIntervals := {}
  holder : CpuHolderLedger := {}
  picks : CpuPickTimeline := {}

/-- `fold_driver_state`, less the drop snapshot. -/
def SchedSubstrate.fold {F : Type} (env : ReportEnv F) (s : SchedSubstrate) (r : TraceRecord) :
    SchedSubstrate :=
  let holder := s.holder.fold env r
  match r with
  | .sched e =>
      { idle := if e.op = .cpuIdle then s.idle.fold e.cpu e.subIdx e.timestampNs else s.idle
        holder
        picks := s.picks.fold e }
  | _ => { s with holder }

/-- `ensure_sched_substrate`. -/
def SchedSubstrate.finalize (s : SchedSubstrate) : SchedSubstrate where
  idle := s.idle.finalize
  holder := s.holder.finalize
  picks := s.picks.finalize

end Montauk.Tools
