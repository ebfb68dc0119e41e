import Montauk.Machine.Run
import Mathlib.Algebra.BigOperators.Group.Finset.Piecewise
import Mathlib.Data.UInt
import Mathlib.Logic.Function.Basic

/-!
# Migration counters

`handle_sched_switch` counts a move each time a traced thread comes on a CPU
other than the one in its entry, once in the entry and once in the per-CPU
counters, by the cache domains of the two CPUs and by the state the thread was
switched out in.

An entry is made at two places. `handle_sys_enter` writes CPU `-1` into it, so
that the first sched-in is no move; `enroll_threads` leaves the zero of the
initializer, and a thread it enrolls has moved from CPU 0 when it first comes
on any other CPU (`migrations_enrolled`). The split into wakes and steals takes
a thread to be runnable when it was switched out with the state word 0, and it
is right if the kernel has no other word for that (`migrations_exact`).
-/

namespace Montauk.Trace

open Machine

/-! ## The maps -/

def traceMaxCpus : Nat := 256

/-- `struct thread_bpf_state`, less its I/O fields. -/
structure ThreadState where
  pid : UInt32
  tid : UInt32
  state : UInt8
  syscallNr : Int32
  syscallArg0 : UInt64
  syscallArg1 : UInt64
  runtimeNs : UInt64
  enterNs : UInt64
  wakeNs : UInt64
  comm : List UInt8
  curCpu : Int
  migrations : Nat

/-- `struct mig_domain_counters`. -/
structure MigCounters where
  intra : Nat
  cross : Nat
  unknown : Nat
  intraWake : Nat
  intraSteal : Nat
  crossWake : Nat
  crossSteal : Nat

/-- The `SCHED_OP_WAKE2RUN` record; the fields it leaves at a constant are left
out. -/
structure Wake2Run where
  cpu : Nat
  pid : UInt32
  lastCpu : Int
  crossDomain : Bool
  freqMhz : UInt32
  runtimeNs : UInt64
  timestampNs : UInt64

/-- What is set before the handlers are attached, and the words the kernel
reports for a thread that is still runnable when it is switched out. -/
structure SchedConfig where
  cacheDomain : Vector UInt32 traceMaxCpus
  schedStream : Bool
  runnable : Int64 → Bool

/-- `thread_map`, `mig_domain_counts`, `cur_freq_mhz` and the wake records. -/
structure SchedMaps where
  thread : UInt32 → Option ThreadState
  counters : Nat → MigCounters
  freqMhz : Nat → UInt32
  events : List Wake2Run

/-! ## The handlers -/

/-- Map `prev_state` to the state encoding, for a thread that did not stay
runnable. -/
def offState (prevState : Int64) : UInt8 :=
  if prevState &&& 0x01 ≠ 0 then 1
  else if prevState &&& 0x02 ≠ 0 then 2
  else if prevState &&& 0x04 ≠ 0 then 3
  else if prevState &&& 0x20 ≠ 0 then 4
  else 1

/-- `prev` going off-CPU. -/
def ThreadState.schedOut (now : UInt64) (prevState : Int64) (prev : ThreadState) : ThreadState :=
  let prev := { prev with
    runtimeNs := if 0 < prev.enterNs then prev.runtimeNs + (now - prev.enterNs)
      else prev.runtimeNs
    enterNs := 0 }
  if prevState = 0 then { prev with state := 0, wakeNs := now }
  else { prev with state := offState prevState }

/-- A sched-in on `cpu` counts as a move. -/
def ThreadState.moves (cpu : Nat) (next : ThreadState) : Bool :=
  decide (0 ≤ next.curCpu) && decide (next.curCpu ≠ cpu)

/-- `next` coming on-CPU. -/
def ThreadState.schedIn (now : UInt64) (cpu : Nat) (next : ThreadState) : ThreadState :=
  { next with
    enterNs := now
    state := 0
    migrations := if next.moves cpu then next.migrations + 1 else next.migrations
    curCpu := cpu
    wakeNs := 0 }

/-- The lookup in `cpu_cache_domain`. -/
def SchedConfig.domain (cfg : SchedConfig) (cpu : Nat) : Option UInt32 :=
  if cpu < traceMaxCpus then cfg.cacheDomain[cpu]? else none

/-- The counters of the CPU a thread moves to. -/
def MigCounters.bump (cfg : SchedConfig) (src dst : Nat) (woke : Bool) (m : MigCounters) :
    MigCounters :=
  match cfg.domain src, cfg.domain dst with
  | some sc, some dc =>
      if sc = dc then
        let m := { m with intra := m.intra + 1 }
        if woke then { m with intraWake := m.intraWake + 1 }
        else { m with intraSteal := m.intraSteal + 1 }
      else
        let m := { m with cross := m.cross + 1 }
        if woke then { m with crossWake := m.crossWake + 1 }
        else { m with crossSteal := m.crossSteal + 1 }
  | _, _ => { m with unknown := m.unknown + 1 }

/-- `cross_domain`: the two CPUs have a domain, and not the same. -/
def SchedConfig.crosses (cfg : SchedConfig) (src dst : Nat) : Bool :=
  match cfg.domain src, cfg.domain dst with
  | some sc, some dc => sc != dc
  | _, _ => false

/-- The CPU and the clock when the handler runs, and whether the ring buffer
has room. -/
structure SwitchEnv where
  cpu : Nat
  now : UInt64
  room : Bool

/-- The wake-to-run record of a thread that comes on-CPU. -/
def ThreadState.wake2run (cfg : SchedConfig) (env : SwitchEnv) (freqMhz : UInt32) (tid : UInt32)
    (next : ThreadState) : Wake2Run where
  cpu := env.cpu
  pid := tid
  lastCpu := next.curCpu
  crossDomain := next.moves env.cpu && cfg.crosses next.curCpu.toNat env.cpu
  freqMhz := freqMhz
  runtimeNs := if next.wakeNs < env.now then env.now - next.wakeNs else 0
  timestampNs := env.now

/-- The part of `handle_sched_switch` on `prev`. -/
def SchedMaps.schedOut (m : SchedMaps) (env : SwitchEnv) (prevTid : UInt32) (prevState : Int64) :
    SchedMaps :=
  { m with
    thread := Function.update m.thread prevTid
      ((m.thread prevTid).map (ThreadState.schedOut env.now prevState)) }

/-- The part on `next`. -/
def SchedMaps.schedIn (cfg : SchedConfig) (m : SchedMaps) (env : SwitchEnv) (nextTid : UInt32) :
    SchedMaps :=
  match m.thread nextTid with
  | none => m
  | some next =>
      { m with
        thread := Function.update m.thread nextTid (some (next.schedIn env.now env.cpu))
        counters :=
          if next.moves env.cpu then
            Function.update m.counters env.cpu
              ((m.counters env.cpu).bump cfg next.curCpu.toNat env.cpu (next.state != 0))
          else m.counters
        events :=
          if cfg.schedStream && next.wakeNs != 0 && env.room then
            m.events ++ [next.wake2run cfg env (m.freqMhz env.cpu) nextTid]
          else m.events }

def SchedMaps.handleSchedSwitch (cfg : SchedConfig) (m : SchedMaps) (env : SwitchEnv)
    (prevTid : UInt32) (prevState : Int64) (nextTid : UInt32) : SchedMaps :=
  (m.schedOut env prevTid prevState).schedIn cfg env nextTid

/-- The registers of a syscall at its entry, and who makes it. -/
structure SyscallEnter where
  pid : UInt32
  tid : UInt32
  nr : Int32
  arg0 : UInt64
  arg1 : UInt64
  comm : List UInt8

/-- The entry that `handle_sys_enter` makes. -/
def SyscallEnter.fresh (e : SyscallEnter) : ThreadState where
  pid := e.pid
  tid := e.tid
  state := 0
  syscallNr := e.nr
  syscallArg0 := e.arg0
  syscallArg1 := e.arg1
  runtimeNs := 0
  enterNs := 0
  wakeNs := 0
  comm := e.comm
  -- not yet scheduled, so the first sched-in is not a migration
  curCpu := -1
  migrations := 0

def ThreadState.entered (e : SyscallEnter) (ts : ThreadState) : ThreadState :=
  { ts with syscallNr := e.nr, syscallArg0 := e.arg0, syscallArg1 := e.arg1 }

/-- What `handle_sys_enter` does to `thread_map`. -/
def SchedMaps.sysEnter (m : SchedMaps) (e : SyscallEnter) : SchedMaps :=
  { m with
    thread := Function.update m.thread e.tid
      (some (((m.thread e.tid).map (ThreadState.entered e)).getD e.fresh)) }

/-- The entry that `enroll_threads` makes: what it does not set is zero. -/
def ThreadState.enrolled (tgid tid : UInt32) (comm : List UInt8) : ThreadState where
  pid := tgid
  tid := tid
  state := 0
  syscallNr := -1
  syscallArg0 := 0
  syscallArg1 := 0
  runtimeNs := 0
  enterNs := 0
  wakeNs := 0
  comm := comm
  curCpu := 0
  migrations := 0

/-- `enroll_threads` at one task. -/
def SchedMaps.enrollThreads (m : SchedMaps) (tgid tid : UInt32) (comm : List UInt8) : SchedMaps :=
  if (m.thread tid).isSome then m
  else { m with thread := Function.update m.thread tid (some (.enrolled tgid tid comm)) }

/-- What `handle_exit` does to `thread_map`. -/
def SchedMaps.handleExit (m : SchedMaps) (tid : UInt32) : SchedMaps :=
  { m with thread := Function.update m.thread tid none }

/-! ## What there is to count -/

/-- The counters by name. -/
inductive MigCounter where
  | intra
  | cross
  | unknown
  | intraWake
  | intraSteal
  | crossWake
  | crossSteal

def MigCounters.get (m : MigCounters) : MigCounter → Nat
  | .intra => m.intra
  | .cross => m.cross
  | .unknown => m.unknown
  | .intraWake => m.intraWake
  | .intraSteal => m.intraSteal
  | .crossWake => m.crossWake
  | .crossSteal => m.crossSteal

def SchedMaps.total (m : SchedMaps) (k : MigCounter) : Nat :=
  ∑ cpu ∈ Finset.range traceMaxCpus, (m.counters cpu).get k

/-- The counter in the entry of a thread. -/
def SchedMaps.migrations (m : SchedMaps) (tid : UInt32) : Nat :=
  ((m.thread tid).map ThreadState.migrations).getD 0

/-- A thread came on CPU `dst`, was observed on `src` the time before, and was
still runnable in between, or not. -/
structure Move where
  tid : UInt32
  src : Nat
  dst : Nat
  runnable : Bool

inductive MoveKind where
  | intra
  | cross
  | unknown
deriving DecidableEq

/-- Within a cache domain, between two, or from or to a CPU without one. -/
def Move.kind (cfg : SchedConfig) (mv : Move) : MoveKind :=
  match cfg.domain mv.src, cfg.domain mv.dst with
  | some sc, some dc => if sc = dc then .intra else .cross
  | _, _ => .unknown

/-- The moves a counter is for: a steal is a move of a runnable thread. -/
def Move.counts (cfg : SchedConfig) (mv : Move) : MigCounter → Bool
  | .intra => mv.kind cfg = .intra
  | .cross => mv.kind cfg = .cross
  | .unknown => mv.kind cfg = .unknown
  | .intraWake => mv.kind cfg = .intra ∧ !mv.runnable
  | .intraSteal => mv.kind cfg = .intra ∧ mv.runnable
  | .crossWake => mv.kind cfg = .cross ∧ !mv.runnable
  | .crossSteal => mv.kind cfg = .cross ∧ mv.runnable

/-- How often a list of CPUs goes from one to another. -/
def changes : List Nat → Nat
  | c :: d :: cpus => (if c = d then 0 else 1) + changes (d :: cpus)
  | _ => 0

/-- The maps, and the machine they are about: where each thread runs, the word
it was last switched out with, the CPUs of its sched-ins since its entry was
made (`seen`, the last one first), whether `enroll_threads` made that entry,
the moves, and how often a `migrations` field went up. -/
structure Sched where
  maps : SchedMaps
  onCpu : UInt32 → Option Nat
  offWord : UInt32 → Int64
  seen : UInt32 → List Nat
  byIter : UInt32 → Bool
  moves : List Move
  counted : Nat

/-- The tracer is attached to a machine that runs. -/
def Sched.start (freqMhz : Nat → UInt32) (onCpu : UInt32 → Option Nat)
    (offWord : UInt32 → Int64) : Sched where
  maps :=
    { thread := fun _ => none
      counters := fun _ => ⟨0, 0, 0, 0, 0, 0, 0⟩
      freqMhz := freqMhz
      events := [] }
  onCpu := onCpu
  offWord := offWord
  seen _ := []
  byIter _ := false
  moves := []
  counted := 0

inductive SchedAct where
  | switch (env : SwitchEnv) (prevTid : UInt32) (prevState : Int64) (nextTid : UInt32)
  | sysEnter (e : SyscallEnter)
  | enroll (tgid tid : UInt32) (comm : List UInt8)
  | exit (tid : UInt32)

/-- The move that a sched-in of `tid` is. -/
def Sched.moveOn (cfg : SchedConfig) (s : Sched) (cpu : Nat) (tid : UInt32) : Option Move :=
  match s.seen tid with
  | [] => none
  | src :: _ =>
      if src = cpu then none
      else some { tid, src, dst := cpu, runnable := cfg.runnable (s.offWord tid) }

/-- The sched-in of `tid` is observed if it has an entry. -/
def Sched.observe (cfg : SchedConfig) (s : Sched) (cpu : Nat) (tid : UInt32) : Sched :=
  if (s.maps.thread tid).isSome then
    { s with
      seen := Function.update s.seen tid (cpu :: s.seen tid)
      moves := s.moves ++ (s.moveOn cfg cpu tid).toList }
  else s

def Sched.switch (cfg : SchedConfig) (s : Sched) (env : SwitchEnv) (prevTid : UInt32)
    (prevState : Int64) (nextTid : UInt32) : Sched :=
  let maps := s.maps.handleSchedSwitch cfg env prevTid prevState nextTid
  { s.observe cfg env.cpu nextTid with
    maps
    onCpu := Function.update (Function.update s.onCpu prevTid none) nextTid (some env.cpu)
    offWord := Function.update s.offWord prevTid prevState
    counted := s.counted + (maps.migrations nextTid - s.maps.migrations nextTid) }

/-- The entry of a thread is made: nothing was observed of it. -/
def Sched.forget (s : Sched) (tid : UInt32) (byIter : Bool) : Sched :=
  if (s.maps.thread tid).isSome then s
  else
    { s with
      seen := Function.update s.seen tid []
      byIter := Function.update s.byIter tid byIter }

/-- A step of the machine. Thread 0 is the idle task of every CPU; any other
thread is switched out where it runs, and comes on a CPU when it is on none. -/
def Sched.step (cfg : SchedConfig) (s : Sched) : SchedAct → Option Sched
  | .switch env prevTid prevState nextTid =>
      if env.cpu < traceMaxCpus ∧ prevTid ≠ nextTid ∧
          (prevTid = 0 ∨ s.onCpu prevTid = some env.cpu) ∧
          (nextTid = 0 ∨ s.onCpu nextTid = none) then
        some (s.switch cfg env prevTid prevState nextTid)
      else none
  | .sysEnter e =>
      if e.tid = 0 then none
      else some { s.forget e.tid false with maps := s.maps.sysEnter e }
  | .enroll tgid tid comm =>
      if tid = 0 then none
      else some { s.forget tid true with maps := s.maps.enrollThreads tgid tid comm }
  | .exit tid =>
      some { s with
        maps := s.maps.handleExit tid
        seen := Function.update s.seen tid [] }

/-- The counters are right: each entry has counted the changes of CPU among the
sched-ins observed of its thread, each sum of the per-CPU counters is the
number of the moves it is for, and the sums add up. -/
structure Sched.Exact (cfg : SchedConfig) (s : Sched) : Prop where
  thread : ∀ tid ts, s.maps.thread tid = some ts → ts.migrations = changes (s.seen tid)
  counter : ∀ k, s.maps.total k = s.moves.countP fun mv => mv.counts cfg k
  counted : s.counted = s.moves.length
  kinds : s.maps.total .intra + s.maps.total .cross + s.maps.total .unknown = s.counted
  intra : s.maps.total .intra = s.maps.total .intraWake + s.maps.total .intraSteal
  cross : s.maps.total .cross = s.maps.total .crossWake + s.maps.total .crossSteal

/-- The two places where the handlers read the CPU and the state of a thread
amiss: a thread that `enroll_threads` enrolled comes on a CPU for the first
time, and a thread moves. -/
def Sched.Faithful (cfg : SchedConfig) (s : Sched) : SchedAct → Prop
  | .switch env _ _ nextTid =>
      (s.maps.thread nextTid).isSome = true →
        (s.seen nextTid = [] → s.byIter nextTid = true → env.cpu = 0) ∧
        (∀ src rest, s.seen nextTid = src :: rest → src ≠ env.cpu →
          (cfg.runnable (s.offWord nextTid) = true ↔ s.offWord nextTid = 0))
  | _ => True

/-! ## What a switch does to the maps -/

section

variable {cfg : SchedConfig} {m : SchedMaps} {env : SwitchEnv} {prevTid nextTid : UInt32}
  {prevState : Int64}

theorem thread_schedOut (x : UInt32) :
    (m.schedOut env prevTid prevState).thread x
      = if x = prevTid then (m.thread prevTid).map (ThreadState.schedOut env.now prevState)
        else m.thread x := by
  unfold SchedMaps.schedOut
  exact Function.update_apply ..

theorem thread_schedIn (x : UInt32) :
    (m.schedIn cfg env nextTid).thread x
      = if x = nextTid then (m.thread nextTid).map (ThreadState.schedIn env.now env.cpu)
        else m.thread x := by
  unfold SchedMaps.schedIn
  cases hn : m.thread nextTid with
  | none =>
    by_cases hx : x = nextTid
    · simp [hx, hn]
    · simp [hx]
  | some next => exact Function.update_apply ..

theorem thread_switch (hne : prevTid ≠ nextTid) (x : UInt32) :
    (m.handleSchedSwitch cfg env prevTid prevState nextTid).thread x
      = if x = nextTid then (m.thread nextTid).map (ThreadState.schedIn env.now env.cpu)
        else if x = prevTid then (m.thread prevTid).map (ThreadState.schedOut env.now prevState)
        else m.thread x := by
  unfold SchedMaps.handleSchedSwitch
  rw [thread_schedIn, thread_schedOut, thread_schedOut, if_neg hne.symm]

/-- The counters are bumped by the entry of `next`, which is still the one from
before the switch. -/
theorem counters_switch (hne : prevTid ≠ nextTid) {next : ThreadState}
    (hn : m.thread nextTid = some next) :
    (m.handleSchedSwitch cfg env prevTid prevState nextTid).counters
      = if next.moves env.cpu then
          Function.update m.counters env.cpu
            ((m.counters env.cpu).bump cfg next.curCpu.toNat env.cpu (next.state != 0))
        else m.counters := by
  have hout : (m.schedOut env prevTid prevState).thread nextTid = some next := by
    rw [thread_schedOut, if_neg hne.symm, hn]
  unfold SchedMaps.handleSchedSwitch SchedMaps.schedIn
  rw [hout]
  rfl

theorem counters_switch_none (hne : prevTid ≠ nextTid) (hn : m.thread nextTid = none) :
    (m.handleSchedSwitch cfg env prevTid prevState nextTid).counters = m.counters := by
  have hout : (m.schedOut env prevTid prevState).thread nextTid = none := by
    rw [thread_schedOut, if_neg hne.symm, hn]
  unfold SchedMaps.handleSchedSwitch SchedMaps.schedIn
  rw [hout]
  rfl

theorem offState_ne_zero (w : Int64) : offState w ≠ 0 := by
  unfold offState
  split
  · decide
  split
  · decide
  split
  · decide
  split <;> decide

theorem schedOut_state (now : UInt64) (ts : ThreadState) :
    (ts.schedOut now prevState).state = 0 ↔ prevState = 0 := by
  unfold ThreadState.schedOut
  by_cases hw : prevState = 0
  · simp [hw]
  · simp [hw, offState_ne_zero]

theorem schedOut_curCpu (now : UInt64) (ts : ThreadState) :
    (ts.schedOut now prevState).curCpu = ts.curCpu := by
  unfold ThreadState.schedOut
  by_cases hw : prevState = 0 <;> simp [hw]

theorem schedOut_migrations (now : UInt64) (ts : ThreadState) :
    (ts.schedOut now prevState).migrations = ts.migrations := by
  unfold ThreadState.schedOut
  by_cases hw : prevState = 0 <;> simp [hw]

theorem get_bump (mc : MigCounters) (mv : Move) (k : MigCounter) :
    (mc.bump cfg mv.src mv.dst (!mv.runnable)).get k
      = mc.get k + if mv.counts cfg k then 1 else 0 := by
  unfold MigCounters.bump
  cases hs : cfg.domain mv.src with
  | none => cases k <;> simp [MigCounters.get, Move.counts, Move.kind, hs]
  | some sc =>
    cases hd : cfg.domain mv.dst with
    | none => cases k <;> simp [MigCounters.get, Move.counts, Move.kind, hs, hd]
    | some dc =>
      by_cases he : sc = dc
      · cases hr : mv.runnable <;> cases k <;>
          simp [MigCounters.get, Move.counts, Move.kind, hs, hd, he, hr]
      · cases hr : mv.runnable <;> cases k <;>
          simp [MigCounters.get, Move.counts, Move.kind, hs, hd, he, hr]

theorem total_update {counters : Nat → MigCounters} {mc : MigCounters} {cpu : Nat}
    {k : MigCounter} {d : Nat} (hm : m.counters = Function.update counters cpu mc)
    (hcpu : cpu < traceMaxCpus) (hget : mc.get k = (counters cpu).get k + d) :
    m.total k = (∑ c ∈ Finset.range traceMaxCpus, (counters c).get k) + d := by
  have hmem : cpu ∈ Finset.range traceMaxCpus := Finset.mem_range.mpr hcpu
  have hfun : ∀ c, (m.counters c).get k
      = Function.update (fun c => (counters c).get k) cpu (mc.get k) c := by
    intro c
    rw [hm]
    exact Function.apply_update (fun _ x => MigCounters.get x k) counters cpu mc c
  unfold SchedMaps.total
  rw [Finset.sum_congr rfl fun c _ => hfun c, Finset.sum_update_of_mem hmem, hget,
    Finset.sum_eq_add_sum_sdiff_singleton_of_mem hmem fun c => (counters c).get k]
  omega

end

/-! ## The run -/

/-- The entry of a thread, against what was observed of it. -/
structure ThreadState.Tracks (ts : ThreadState) (seen : List Nat) (byIter : Bool)
    (onCpu : Option Nat) (offWord : Int64) : Prop where
  migrations : ts.migrations = changes seen
  first : seen = [] → ts.curCpu = if byIter then 0 else -1
  cpu : ∀ c rest, seen = c :: rest → ts.curCpu = c
  off : seen ≠ [] → onCpu = none → (ts.state = 0 ↔ offWord = 0)

/-- The idle task has no entry, and every entry and every sum is right. -/
structure Sched.Inv (cfg : SchedConfig) (s : Sched) : Prop where
  idle : s.maps.thread 0 = none
  thread : ∀ tid ts, s.maps.thread tid = some ts →
    ts.Tracks (s.seen tid) (s.byIter tid) (s.onCpu tid) (s.offWord tid)
  counter : ∀ k, s.maps.total k = s.moves.countP fun mv => mv.counts cfg k
  counted : s.counted = s.moves.length

theorem ThreadState.Tracks.new {ts : ThreadState} {byIter : Bool} (hmig : ts.migrations = 0)
    (hcpu : ts.curCpu = if byIter then 0 else -1) (onCpu : Option Nat) (offWord : Int64) :
    ts.Tracks [] byIter onCpu offWord where
  migrations := hmig
  first _ := hcpu
  cpu := by
    intro c rest hc
    cases hc
  off hne := (hne rfl).elim

theorem ThreadState.Tracks.moves_first {ts : ThreadState} {byIter : Bool} {onCpu : Option Nat}
    {offWord : Int64} {cpu : Nat} (h : ts.Tracks [] byIter onCpu offWord)
    (hcpu : byIter = true → cpu = 0) : ts.moves cpu = false := by
  unfold ThreadState.moves
  rw [h.first rfl]
  cases byIter with
  | false => simp
  | true => simp [hcpu rfl]

theorem ThreadState.Tracks.moves_next {ts : ThreadState} {src : Nat} {rest : List Nat}
    {byIter : Bool} {onCpu : Option Nat} {offWord : Int64} {cpu : Nat}
    (h : ts.Tracks (src :: rest) byIter onCpu offWord) :
    ts.moves cpu = decide (src ≠ cpu) := by
  unfold ThreadState.moves
  rw [h.cpu src rest rfl]
  simp

theorem ThreadState.Tracks.schedIn {ts : ThreadState} {seen : List Nat} {byIter : Bool}
    {onCpu : Option Nat} {offWord : Int64} {cpu : Nat} (now : UInt64)
    (h : ts.Tracks seen byIter onCpu offWord) (hcpu : seen = [] → byIter = true → cpu = 0) :
    (ts.schedIn now cpu).Tracks (cpu :: seen) byIter (some cpu) offWord where
  migrations := by
    have hmig : (ts.schedIn now cpu).migrations
        = if ts.moves cpu then ts.migrations + 1 else ts.migrations := rfl
    rw [hmig, h.migrations]
    cases seen with
    | nil =>
      rw [h.moves_first (hcpu rfl)]
      rfl
    | cons src rest =>
      rw [h.moves_next, changes]
      by_cases hsrc : src = cpu
      · simp [hsrc]
      · simp [hsrc, Ne.symm hsrc, Nat.add_comm]
  first := by
    intro hnil
    cases hnil
  cpu := by
    intro c rest hc
    cases hc
    rfl
  off := by
    intro _ hoff
    cases hoff

theorem ThreadState.Tracks.schedOut {ts : ThreadState} {seen : List Nat} {byIter : Bool}
    {onCpu : Option Nat} {offWord : Int64} (now : UInt64) (prevState : Int64)
    (h : ts.Tracks seen byIter onCpu offWord) :
    (ts.schedOut now prevState).Tracks seen byIter none prevState where
  migrations := (schedOut_migrations now ts).trans h.migrations
  first hnil := (schedOut_curCpu now ts).trans (h.first hnil)
  cpu c rest hc := (schedOut_curCpu now ts).trans (h.cpu c rest hc)
  off _ _ := schedOut_state now ts

section

variable {cfg : SchedConfig} {s : Sched}

theorem seen_observe (cpu : Nat) (tid x : UInt32) :
    (s.observe cfg cpu tid).seen x
      = if x = tid ∧ (s.maps.thread tid).isSome = true then cpu :: s.seen tid else s.seen x := by
  unfold Sched.observe
  by_cases hk : (s.maps.thread tid).isSome = true
  · simp [hk, Function.update_apply]
  · simp [hk]

theorem byIter_observe (cpu : Nat) (tid : UInt32) :
    (s.observe cfg cpu tid).byIter = s.byIter := by
  unfold Sched.observe
  split <;> rfl

theorem moves_observe (cpu : Nat) {tid : UInt32} (hsome : (s.maps.thread tid).isSome = true) :
    (s.observe cfg cpu tid).moves = s.moves ++ (s.moveOn cfg cpu tid).toList := by
  unfold Sched.observe
  rw [if_pos hsome]

theorem moves_observe_none (cpu : Nat) {tid : UInt32} (hnone : s.maps.thread tid = none) :
    (s.observe cfg cpu tid).moves = s.moves := by
  unfold Sched.observe
  simp [hnone]

theorem Sched.Inv.switch_thread {env : SwitchEnv} {prevTid nextTid : UInt32} {prevState : Int64}
    (h : s.Inv cfg) (hne : prevTid ≠ nextTid)
    (hok : s.Faithful cfg (.switch env prevTid prevState nextTid)) {tid : UInt32}
    {ts : ThreadState}
    (hts : (s.switch cfg env prevTid prevState nextTid).maps.thread tid = some ts) :
    ts.Tracks ((s.switch cfg env prevTid prevState nextTid).seen tid)
      ((s.switch cfg env prevTid prevState nextTid).byIter tid)
      ((s.switch cfg env prevTid prevState nextTid).onCpu tid)
      ((s.switch cfg env prevTid prevState nextTid).offWord tid) := by
  have hseen : (s.switch cfg env prevTid prevState nextTid).seen tid
      = if tid = nextTid ∧ (s.maps.thread nextTid).isSome = true then env.cpu :: s.seen nextTid
        else s.seen tid := seen_observe env.cpu nextTid tid
  have hiter : (s.switch cfg env prevTid prevState nextTid).byIter tid = s.byIter tid :=
    congrFun (byIter_observe env.cpu nextTid) tid
  have hon : (s.switch cfg env prevTid prevState nextTid).onCpu tid
      = if tid = nextTid then some env.cpu
        else if tid = prevTid then none else s.onCpu tid := by
    unfold Sched.switch
    simp only [Function.update_apply]
  have hoff : (s.switch cfg env prevTid prevState nextTid).offWord tid
      = if tid = prevTid then prevState else s.offWord tid := by
    unfold Sched.switch
    simp only [Function.update_apply]
  rw [hseen, hiter, hon, hoff]
  replace hts := (thread_switch hne tid).symm.trans hts
  by_cases hn : tid = nextTid
  · cases hn
    rw [if_pos rfl] at hts
    obtain ⟨next, hnext, rfl⟩ := Option.map_eq_some_iff.mp hts
    have hsome : (s.maps.thread nextTid).isSome = true := by
      rw [hnext]
      rfl
    rw [if_pos ⟨rfl, hsome⟩, if_pos rfl, if_neg hne.symm]
    exact (h.thread nextTid next hnext).schedIn env.now (hok hsome).1
  · rw [if_neg hn] at hts
    rw [if_neg fun hc => hn hc.1, if_neg hn]
    by_cases hp : tid = prevTid
    · cases hp
      rw [if_pos rfl] at hts
      obtain ⟨prev, hprev, rfl⟩ := Option.map_eq_some_iff.mp hts
      rw [if_pos rfl, if_pos rfl]
      exact (h.thread prevTid prev hprev).schedOut env.now prevState
    · rw [if_neg hp] at hts
      rw [if_neg hp, if_neg hp]
      exact h.thread tid ts hts

/-- A sched-in of a thread with an entry: its move, if it is one, is counted
once and in the counters it is for. -/
theorem Sched.Inv.switch_counts {env : SwitchEnv} {prevTid nextTid : UInt32} {prevState : Int64}
    {next : ThreadState} (h : s.Inv cfg) (hcpu : env.cpu < traceMaxCpus) (hne : prevTid ≠ nextTid)
    (hon : nextTid = 0 ∨ s.onCpu nextTid = none)
    (hok : s.Faithful cfg (.switch env prevTid prevState nextTid))
    (hnext : s.maps.thread nextTid = some next) :
    next.moves env.cpu = (s.moveOn cfg env.cpu nextTid).isSome ∧
      ∀ k, (s.switch cfg env prevTid prevState nextTid).maps.total k
        = s.maps.total k + (s.moveOn cfg env.cpu nextTid).toList.countP
            fun mv => mv.counts cfg k := by
  have hsome : (s.maps.thread nextTid).isSome = true := by
    rw [hnext]
    rfl
  have htr := h.thread nextTid next hnext
  have hoff : s.onCpu nextTid = none := by
    rcases hon with h0 | hoff
    · cases h0
      rw [h.idle] at hnext
      cases hnext
    · exact hoff
  have hcnt : (s.switch cfg env prevTid prevState nextTid).maps.counters = _ :=
    counters_switch hne hnext
  have hstay : next.moves env.cpu = false → ∀ k,
      (s.switch cfg env prevTid prevState nextTid).maps.total k = s.maps.total k := by
    intro hmv k
    unfold SchedMaps.total
    rw [hcnt, hmv]
    rfl
  obtain ⟨hfirst, hword⟩ := hok hsome
  unfold Sched.moveOn
  cases hseen : s.seen nextTid with
  | nil =>
    rw [hseen] at htr
    have hmv := htr.moves_first (hfirst hseen)
    exact ⟨hmv, fun k => by simp [hstay hmv k]⟩
  | cons src rest =>
    rw [hseen] at htr
    by_cases hsrc : src = env.cpu
    · have hmv : next.moves env.cpu = false := by
        rw [htr.moves_next]
        simp [hsrc]
      simp only [hsrc, if_pos]
      exact ⟨hmv, fun k => by simp [hstay hmv k]⟩
    · have hmv : next.moves env.cpu = true := by
        rw [htr.moves_next]
        simp [hsrc]
      simp only [hsrc, if_neg, not_false_iff]
      refine ⟨hmv, fun k => ?_⟩
      -- the state the entry was left in is the word of the last switch-out
      have hstate : (next.state != 0) = !cfg.runnable (s.offWord nextTid) := by
        have hiff := (htr.off (List.cons_ne_nil src rest) hoff).trans (hword src rest hseen hsrc).symm
        cases hr : cfg.runnable (s.offWord nextTid) with
        | true => simp [hiff.mpr hr]
        | false =>
          have hns : next.state ≠ 0 := fun h0 => by simp [hiff.mp h0] at hr
          simp [hns]
      rw [hmv, if_pos rfl, hstate, htr.cpu src rest rfl, Int.toNat_natCast] at hcnt
      rw [total_update hcnt hcpu (get_bump _ ⟨nextTid, src, env.cpu, _⟩ k)]
      simp [SchedMaps.total]

theorem Sched.Inv.switch {env : SwitchEnv} {prevTid nextTid : UInt32} {prevState : Int64}
    (h : s.Inv cfg) (hcpu : env.cpu < traceMaxCpus) (hne : prevTid ≠ nextTid)
    (hon : nextTid = 0 ∨ s.onCpu nextTid = none)
    (hok : s.Faithful cfg (.switch env prevTid prevState nextTid)) :
    (s.switch cfg env prevTid prevState nextTid).Inv cfg := by
  have hthread := @Sched.Inv.switch_thread cfg s env prevTid nextTid prevState h hne hok
  have hswitch : ∀ x, (s.switch cfg env prevTid prevState nextTid).maps.thread x = _ :=
    thread_switch hne
  have hidle : (s.switch cfg env prevTid prevState nextTid).maps.thread 0 = none := by
    rw [hswitch]
    by_cases h0 : (0 : UInt32) = nextTid
    · rw [if_pos h0, ← h0, h.idle]
      rfl
    · rw [if_neg h0]
      by_cases h1 : (0 : UInt32) = prevTid
      · rw [if_pos h1, ← h1, h.idle]
        rfl
      · rw [if_neg h1]
        exact h.idle
  have hcounted : (s.switch cfg env prevTid prevState nextTid).counted
      = s.counted + ((s.switch cfg env prevTid prevState nextTid).maps.migrations nextTid
          - s.maps.migrations nextTid) := rfl
  have hmigs : (s.switch cfg env prevTid prevState nextTid).maps.migrations nextTid
      = (((s.maps.thread nextTid).map (ThreadState.schedIn env.now env.cpu)).map
          ThreadState.migrations).getD 0 := by
    unfold SchedMaps.migrations
    rw [hswitch]
    simp
  cases hnext : s.maps.thread nextTid with
  | none =>
    have hmoves : (s.switch cfg env prevTid prevState nextTid).moves = s.moves :=
      moves_observe_none env.cpu hnext
    have hcnt : (s.switch cfg env prevTid prevState nextTid).maps.counters = s.maps.counters :=
      counters_switch_none hne hnext
    refine ⟨hidle, fun tid ts => hthread, fun k => ?_, ?_⟩
    · unfold SchedMaps.total
      rw [hmoves, hcnt]
      exact h.counter k
    · rw [hcounted, hmigs, hmoves, hnext]
      simp [h.counted]
  | some next =>
    have hsome : (s.maps.thread nextTid).isSome = true := by
      rw [hnext]
      rfl
    have hmoves : (s.switch cfg env prevTid prevState nextTid).moves
        = s.moves ++ (s.moveOn cfg env.cpu nextTid).toList := moves_observe env.cpu hsome
    obtain ⟨hmv, htotal⟩ := h.switch_counts hcpu hne hon hok hnext
    refine ⟨hidle, fun tid ts => hthread, fun k => ?_, ?_⟩
    · rw [htotal k, hmoves, List.countP_append, h.counter k]
    · have hlen : (s.moveOn cfg env.cpu nextTid).toList.length
          = if next.moves env.cpu then 1 else 0 := by
        rw [hmv]
        cases s.moveOn cfg env.cpu nextTid <;> rfl
      have hmig : (next.schedIn env.now env.cpu).migrations
          = if next.moves env.cpu then next.migrations + 1 else next.migrations := rfl
      rw [hcounted, hmigs, hmoves, List.length_append, hlen, h.counted]
      unfold SchedMaps.migrations
      rw [hnext]
      simp only [Option.map_some, Option.getD_some, hmig]
      split <;> omega

/-- A thread that has no entry gets one, or the one it has stays as good. -/
theorem Sched.Inv.made {tid : UInt32} {byIter : Bool} {maps : SchedMaps} {ts : ThreadState}
    (h : s.Inv cfg) (h0 : tid ≠ 0) (hcnt : maps.counters = s.maps.counters)
    (hthread : maps.thread = Function.update s.maps.thread tid (some ts))
    (hnew : s.maps.thread tid = none → ∀ onCpu offWord, ts.Tracks [] byIter onCpu offWord)
    (hold : ∀ old seen iter onCpu offWord, s.maps.thread tid = some old →
      old.Tracks seen iter onCpu offWord → ts.Tracks seen iter onCpu offWord) :
    Sched.Inv cfg { s.forget tid byIter with maps } := by
  have hframe : (s.forget tid byIter).moves = s.moves ∧ (s.forget tid byIter).counted = s.counted ∧
      (s.forget tid byIter).onCpu = s.onCpu ∧ (s.forget tid byIter).offWord = s.offWord := by
    unfold Sched.forget
    split <;> exact ⟨rfl, rfl, rfl, rfl⟩
  obtain ⟨hmoves, hcounted, hon, hoff⟩ := hframe
  refine ⟨?_, fun x ts' hts' => ?_, fun k => ?_, ?_⟩
  · show maps.thread 0 = none
    rw [hthread, Function.update_of_ne h0.symm]
    exact h.idle
  · replace hts' : maps.thread x = some ts' := hts'
    show ts'.Tracks ((s.forget tid byIter).seen x) ((s.forget tid byIter).byIter x)
      ((s.forget tid byIter).onCpu x) ((s.forget tid byIter).offWord x)
    rw [hon, hoff]
    rw [hthread] at hts'
    by_cases hx : x = tid
    · cases hx
      rw [Function.update_self] at hts'
      cases hts'
      unfold Sched.forget
      cases ho : s.maps.thread tid with
      | none => simpa using hnew ho (s.onCpu tid) (s.offWord tid)
      | some old => simpa using hold old _ _ _ _ ho (h.thread tid old ho)
    · rw [Function.update_of_ne hx] at hts'
      have hsame : (s.forget tid byIter).seen x = s.seen x ∧
          (s.forget tid byIter).byIter x = s.byIter x := by
        unfold Sched.forget
        split
        · exact ⟨rfl, rfl⟩
        · simp [Function.update_of_ne hx]
      rw [hsame.1, hsame.2]
      exact h.thread x ts' hts'
  · show maps.total k = (s.forget tid byIter).moves.countP _
    unfold SchedMaps.total
    rw [hmoves, hcnt]
    exact h.counter k
  · show (s.forget tid byIter).counted = (s.forget tid byIter).moves.length
    rw [hmoves, hcounted]
    exact h.counted

theorem Sched.Inv.step {a : SchedAct} {s' : Sched} (h : s.Inv cfg) (hok : s.Faithful cfg a)
    (hstep : s.step cfg a = some s') : s'.Inv cfg := by
  cases a with
  | switch env prevTid prevState nextTid =>
    unfold Sched.step at hstep
    obtain ⟨⟨hcpu, hne, -, hon⟩, hs⟩ := Option.ite_none_right_eq_some.mp hstep
    cases hs
    exact h.switch hcpu hne hon hok
  | sysEnter e =>
    unfold Sched.step at hstep
    obtain ⟨h0, hs⟩ := Option.ite_none_left_eq_some.mp hstep
    cases hs
    refine h.made h0 rfl rfl (fun hnone _ _ => ?_) fun old seen iter onCpu offWord hold ht => ?_
    · rw [hnone]
      exact .new rfl rfl _ _
    · rw [hold]
      exact ⟨ht.migrations, ht.first, ht.cpu, ht.off⟩
  | enroll tgid tid comm =>
    unfold Sched.step at hstep
    obtain ⟨h0, hs⟩ := Option.ite_none_left_eq_some.mp hstep
    cases hs
    cases hold : s.maps.thread tid with
    | none =>
      have hmaps : s.maps.enrollThreads tgid tid comm
          = { s.maps with
              thread := Function.update s.maps.thread tid (some (.enrolled tgid tid comm)) } := by
        unfold SchedMaps.enrollThreads
        simp [hold]
      rw [hmaps]
      refine h.made h0 rfl rfl (fun _ _ _ => ?_) fun old _ _ _ _ hsome _ => ?_
      · exact .new rfl rfl _ _
      · rw [hold] at hsome
        cases hsome
    | some old =>
      have hsame : s.forget tid true = s ∧ s.maps.enrollThreads tgid tid comm = s.maps := by
        unfold Sched.forget SchedMaps.enrollThreads
        simp [hold]
      rw [hsame.1, hsame.2]
      exact h
  | exit tid =>
    cases hstep
    have hthread : ∀ x ts, (s.maps.handleExit tid).thread x = some ts →
        x ≠ tid ∧ s.maps.thread x = some ts := by
      intro x ts hx
      replace hx : Function.update s.maps.thread tid none x = some ts := hx
      by_cases hne : x = tid
      · cases hne
        rw [Function.update_self] at hx
        cases hx
      · rw [Function.update_of_ne hne] at hx
        exact ⟨hne, hx⟩
    refine ⟨?_, fun x ts hx => ?_, h.counter, h.counted⟩
    · cases hz : (s.maps.handleExit tid).thread 0 with
      | none => rfl
      | some ts =>
        have hold := (hthread 0 ts hz).2
        rw [h.idle] at hold
        cases hold
    · obtain ⟨hne, hold⟩ := hthread x ts hx
      have hseen : Function.update s.seen tid [] x = s.seen x := Function.update_of_ne hne ..
      show ts.Tracks (Function.update s.seen tid [] x) (s.byIter x) (s.onCpu x) (s.offWord x)
      rw [hseen]
      exact h.thread x ts hold

end

theorem Sched.Inv.start (cfg : SchedConfig) (freqMhz : Nat → UInt32)
    (onCpu : UInt32 → Option Nat) (offWord : UInt32 → Int64) :
    (Sched.start freqMhz onCpu offWord).Inv cfg where
  idle := rfl
  thread := by
    intro tid ts hts
    cases hts
  counter := by
    intro k
    refine Finset.sum_eq_zero fun c _ => ?_
    cases k <;> rfl
  counted := rfl

theorem countP_runnable (cfg : SchedConfig) (moves : List Move) (kind : MoveKind) :
    (moves.countP fun mv => mv.kind cfg = kind)
      = (moves.countP fun mv => mv.kind cfg = kind ∧ !mv.runnable)
        + moves.countP fun mv => mv.kind cfg = kind ∧ mv.runnable := by
  rw [List.countP_eq_countP_filter_add moves (fun mv => decide (mv.kind cfg = kind))
    (fun mv => !mv.runnable), List.countP_filter, List.countP_filter]
  simp

theorem Sched.Inv.exact {cfg : SchedConfig} {s : Sched} (h : s.Inv cfg) : s.Exact cfg where
  thread tid ts hts := (h.thread tid ts hts).migrations
  counter := h.counter
  counted := h.counted
  kinds := by
    rw [h.counter, h.counter, h.counter, h.counted]
    induction s.moves with
    | nil => rfl
    | cons mv moves ih =>
      rw [List.countP_cons, List.countP_cons, List.countP_cons, List.length_cons, ← ih]
      cases hk : mv.kind cfg <;> simp [Move.counts, hk] <;> omega
  intra := by
    rw [h.counter, h.counter, h.counter]
    exact countP_runnable cfg s.moves .intra
  cross := by
    rw [h.counter, h.counter, h.counter]
    exact countP_runnable cfg s.moves .cross

/-- In a run whose enrolled threads all come on CPU 0 first, and in which a
thread that moves was switched out with the word 0 exactly when it was still
runnable, the counters are right in every state. -/
theorem migrations_exact {cfg : SchedConfig} {freqMhz : Nat → UInt32}
    {onCpu : UInt32 → Option Nat} {offWord : UInt32 → Int64} {as : List SchedAct} {s : Sched}
    (hok : Meets (Sched.step cfg) (Sched.Faithful cfg) (.start freqMhz onCpu offWord) as)
    (h : run (Sched.step cfg) (.start freqMhz onCpu offWord) as = some s) : s.Exact cfg :=
  (run_keeps (fun _ _ _ hI ho hs => Sched.Inv.step hI ho hs) hok h
    (.start cfg freqMhz onCpu offWord)).exact

/-- One cache domain, and a runnable thread is switched out with the word 0. -/
def oneDomain : SchedConfig where
  cacheDomain := .replicate _ 0
  schedStream := false
  runnable := fun w => w == 0

/-- Thread 7 comes on CPU `cpu` from the idle task. -/
def schedOn (cpu : Nat) : SchedAct := .switch { cpu, now := 1, room := true } 0 0 7

/-- Thread 7 is preempted on CPU `cpu`. -/
def preempt (cpu : Nat) : SchedAct := .switch { cpu, now := 2, room := true } 7 0 0

/-- A thread whose first syscall is on CPU 3 is preempted and pulled to CPU 5. -/
def firstSyscall : SchedAct :=
  .sysEnter { pid := 7, tid := 7, nr := 0, arg0 := 0, arg1 := 0, comm := [] }

theorem migrations_exact_steal :
    ∃ s, run (Sched.step oneDomain) (.start (fun _ => 0) (fun _ => none) (fun _ => 0))
        [firstSyscall, schedOn 3, preempt 3, schedOn 5] = some s ∧ s.Exact oneDomain := by
  have hok : Meets (Sched.step oneDomain) (Sched.Faithful oneDomain)
      (.start (fun _ => 0) (fun _ => none) (fun _ => 0))
      [firstSyscall, schedOn 3, preempt 3, schedOn 5] := by
    refine meets_cons trivial rfl (meets_cons ?_ rfl (meets_cons ?_ rfl (meets_cons ?_ rfl meets_nil)))
    · exact fun _ => ⟨fun _ hiter => (Bool.false_ne_true hiter).elim,
        fun _ _ hseen => (List.cons_ne_nil _ _ hseen.symm).elim⟩
    · exact fun hsome => (Bool.false_ne_true hsome).elim
    · exact fun _ => ⟨fun _ hiter => (Bool.false_ne_true hiter).elim, fun _ _ _ _ => by decide⟩
  exact ⟨_, rfl, migrations_exact hok rfl⟩

/-- A thread that the iterator enrolled comes on CPU 3, and has moved. -/
theorem migrations_enrolled :
    ¬ ∀ (cfg : SchedConfig) (freqMhz : Nat → UInt32) (onCpu : UInt32 → Option Nat)
      (offWord : UInt32 → Int64) (as : List SchedAct) (s : Sched),
      run (Sched.step cfg) (.start freqMhz onCpu offWord) as = some s → s.Exact cfg := by
  intro h
  have hrun : ∃ s ts, run (Sched.step oneDomain)
      (.start (fun _ => 0) (fun _ => none) (fun _ => 0)) [.enroll 7 7 [], schedOn 3] = some s ∧
      s.maps.thread 7 = some ts ∧ ts.migrations = 1 ∧ s.seen 7 = [3] :=
    ⟨_, _, rfl, rfl, rfl, rfl⟩
  obtain ⟨s, ts, hs, hts, hmig, hseen⟩ := hrun
  have hcnt := (h oneDomain (fun _ => 0) (fun _ => none) (fun _ => 0) _ s hs).thread 7 ts hts
  rw [hmig, hseen] at hcnt
  cases hcnt

end Montauk.Trace
