import Mathlib.Data.UInt
import Mathlib.Logic.Function.Basic

/-!
# ntsync completions

The kernel side of the tracer pairs an ntsync `ioctl` with its return value
through a scratch slot: `handle_sys_enter` fills the slot of the CPU the
thread runs on, `handle_sys_exit` reads the slot of the CPU it runs on then.
The slot remembers the process, not the thread, and a wait is exactly the
call that blocks and may resume elsewhere.

The model is a step relation: threads enter syscalls, block, resume on any
CPU and leave. A run reports every completion once, with the right data, as
long as each ntsync call leaves on the CPU it entered on and keeps that CPU's
slot to itself meanwhile (`completions_exact`); a wait that resumes on
another CPU is lost (`completions_migrated`).
-/

namespace Montauk.Trace

/-! ## The calls -/

/-- `enum ntsync_trace_op`, with the `0xFF` of an unknown command. -/
inductive NtsyncOp where
  | createSem | semRelease | waitAny | waitAll | createMutex | mutexUnlock | mutexKill
  | createEvent | eventSet | eventReset | eventPulse | semRead | mutexRead | eventRead
  | unknown
deriving DecidableEq

def NtsyncOp.isWait : NtsyncOp → Bool
  | .waitAny | .waitAll => true
  | _ => false

def NtsyncOp.isCreate : NtsyncOp → Bool
  | .createSem | .createMutex | .createEvent => true
  | _ => false

/-- `NTS_EVENT_SET <= op && op <= NTS_EVENT_PULSE`. -/
def NtsyncOp.isEventSignal : NtsyncOp → Bool
  | .eventSet | .eventReset | .eventPulse => true
  | _ => false

def NtsyncOp.isRead : NtsyncOp → Bool
  | .semRead | .mutexRead | .eventRead => true
  | _ => false

def isNtsyncIoctl (cmd : UInt32) : Bool :=
  (cmd >>> 8) &&& 0xFF == 0x4E && 0x80 ≤ cmd &&& 0xFF && cmd &&& 0xFF ≤ 0x8D

def ntsyncCmdToOp (cmd : UInt32) : NtsyncOp :=
  match (cmd &&& 0xFF).toNat with
  | 0x80 => .createSem
  | 0x81 => .semRelease
  | 0x82 => .waitAny
  | 0x83 => .waitAll
  | 0x84 => .createMutex
  | 0x85 => .mutexUnlock
  | 0x86 => .mutexKill
  | 0x87 => .createEvent
  | 0x88 => .eventSet
  | 0x89 => .eventReset
  | 0x8a => .eventPulse
  | 0x8b => .semRead
  | 0x8c => .mutexRead
  | 0x8d => .eventRead
  | _ => .unknown

/-- The 32-bit word at each user address; `none` where a read faults. -/
abbrev UserMem := UInt64 → Option UInt32

/-- `bpf_probe_read_user` of `n` words, all zero when it faults. -/
def probeRead (mem : UserMem) (n : Nat) (addr : UInt64) : List UInt32 :=
  ((List.range n).mapM fun i => mem (addr + 4 * UInt64.ofNat i)).getD (List.replicate n 0)

/-- The 64-bit value in words `i` and `i + 1`. -/
def dword (ws : List UInt32) (i : Nat) : UInt64 :=
  (ws.getD i 0).toUInt64 + (ws.getD (i + 1) 0).toUInt64 * 2 ^ 32

/-- What a handler sees of the machine when it runs. -/
structure Env where
  mem : UserMem
  fdObj : Int32 → UInt64
  now : UInt64

/-- A syscall as `sys_enter` reports it. -/
structure Syscall where
  id : Nat
  arg0 : UInt64
  arg1 : UInt64
  arg2 : UInt64

/-- An `ioctl` with an ntsync command. -/
def Syscall.isNtsync (sc : Syscall) : Bool := sc.id == 16 && isNtsyncIoctl sc.arg1.toUInt32

def Syscall.op (sc : Syscall) : NtsyncOp := ntsyncCmdToOp sc.arg1.toUInt32

def Syscall.fd (sc : Syscall) : Int32 := sc.arg0.toUInt32.toInt32

/-! ## The handlers -/

def ntsyncMaxWaitFds : Nat := 8

/-- `struct ntsync_scratch`. -/
structure NtsyncScratch where
  pid : UInt32
  op : NtsyncOp
  fd : Int32
  argPtr : UInt64
  arg0 : UInt32
  arg1 : UInt32
  timeoutNs : UInt64
  waitCount : UInt32
  waitOwner : UInt32
  waitAlert : UInt32
  waitFds : List UInt32

/-- What `memset` leaves, and what the map starts with. -/
def NtsyncScratch.zero : NtsyncScratch where
  pid := 0
  op := .createSem
  fd := 0
  argPtr := 0
  arg0 := 0
  arg1 := 0
  timeoutNs := 0
  waitCount := 0
  waitOwner := 0
  waitAlert := 0
  waitFds := List.replicate ntsyncMaxWaitFds 0

/-- `struct montauk_ntsync_event`. -/
structure NtsyncEvent where
  pid : UInt32
  tid : UInt32
  op : NtsyncOp
  fd : Int32
  result : Int64
  timestampNs : UInt64
  arg0 : UInt32
  arg1 : UInt32
  timeoutNs : UInt64
  waitCount : UInt32
  waitIndex : UInt32
  waitOwner : UInt32
  waitAlert : UInt32
  waitFds : List UInt32
  objPtr : UInt64
  waitObjs : List UInt64

/-- The ten words of `struct ntsync_wait_args` at `arg`. -/
def waitArgs (mem : UserMem) (arg : UInt64) : List UInt32 := probeRead mem 10 arg

/-- The object fds of a wait: the first eight. -/
def readWaitFds (mem : UserMem) (objsPtr : UInt64) (count : UInt32) : List UInt32 :=
  let n := min count.toNat ntsyncMaxWaitFds
  if 0 < n ∧ objsPtr ≠ 0 then probeRead mem n objsPtr ++ List.replicate (ntsyncMaxWaitFds - n) 0
  else List.replicate ntsyncMaxWaitFds 0

/-- What `handle_sys_enter` stashes for an ntsync call. -/
def ntsyncCapture (mem : UserMem) (pid : UInt32) (sc : Syscall) : NtsyncScratch :=
  let s := { NtsyncScratch.zero with pid, fd := sc.fd, op := sc.op, argPtr := sc.arg2 }
  if s.op.isCreate then
    let vals := probeRead mem 2 sc.arg2
    { s with arg0 := vals.getD 0 0, arg1 := vals.getD 1 0 }
  else if s.op.isWait then
    let wa := waitArgs mem sc.arg2
    { s with
      timeoutNs := dword wa 0
      waitCount := wa.getD 4 0
      waitOwner := wa.getD 7 0
      waitAlert := wa.getD 8 0
      waitFds := readWaitFds mem (dword wa 2) (wa.getD 4 0) }
  else s

/-- The object identities of the fds of a wait. -/
def waitObjs (fdObj : Int32 → UInt64) (s : NtsyncScratch) : List UInt64 :=
  (List.range ntsyncMaxWaitFds).map fun i =>
    if i < s.waitCount.toNat then fdObj (s.waitFds.getD i 0).toInt32 else 0

/-- The event a wait emits when it enters; `-999` marks it as an entry. -/
def ntsyncEntry (env : Env) (tid : UInt32) (s : NtsyncScratch) : NtsyncEvent where
  pid := s.pid
  tid
  op := s.op
  fd := s.fd
  result := -999
  timestampNs := env.now
  arg0 := 0
  arg1 := 0
  timeoutNs := s.timeoutNs
  waitCount := s.waitCount
  waitIndex := 0
  waitOwner := s.waitOwner
  waitAlert := s.waitAlert
  waitFds := s.waitFds
  objPtr := 0
  waitObjs := waitObjs env.fdObj s

/-- The ntsync part of `handle_sys_enter`: the slot of the CPU, and the entry
event of a wait. -/
def handleSysEnter (tracked : UInt32 → Bool) (env : Env) (pid tid : UInt32) (sc : Syscall)
    (slot : NtsyncScratch) : NtsyncScratch × List NtsyncEvent :=
  if tracked pid && sc.isNtsync then
    let s := ntsyncCapture env.mem pid sc
    (s, if s.op.isWait then [ntsyncEntry env tid s] else [])
  else (slot, [])

/-- The object an event is about, for the calls that are not waits. -/
def eventObj (env : Env) (ret : Int64) (s : NtsyncScratch) : UInt64 :=
  if s.op.isWait then 0
  else if !s.op.isCreate then env.fdObj s.fd
  else if 0 ≤ ret then env.fdObj ret.toInt32
  else 0

/-- The event `handle_sys_exit` makes of a slot. -/
def ntsyncCompletion (env : Env) (pid tid : UInt32) (ret : Int64) (s : NtsyncScratch) :
    NtsyncEvent :=
  let readBack := fun n => probeRead env.mem n s.argPtr
  { pid
    tid
    op := s.op
    fd := s.fd
    result := ret
    timestampNs := env.now
    arg0 :=
      if s.op.isEventSignal && s.argPtr != 0 then (readBack 1).getD 0 0
      else if s.op.isRead && s.argPtr != 0 then (readBack 2).getD 0 0
      else s.arg0
    arg1 := if s.op.isRead && s.argPtr != 0 then (readBack 2).getD 1 0 else s.arg1
    timeoutNs := s.timeoutNs
    waitCount := s.waitCount
    -- the index is an out parameter, at offset 20 of the wait's arguments
    waitIndex :=
      if s.op.isWait && s.argPtr != 0 then (probeRead env.mem 1 (s.argPtr + 20)).getD 0 0 else 0
    waitOwner := s.waitOwner
    waitAlert := s.waitAlert
    waitFds := s.waitFds
    objPtr := eventObj env ret s
    waitObjs :=
      if s.op.isWait then waitObjs env.fdObj s else List.replicate ntsyncMaxWaitFds 0 }

/-- `s->op != 0 || s->fd != 0`: how the exit handler tells a filled slot. -/
def NtsyncScratch.filled (s : NtsyncScratch) : Bool := s.op != .createSem || s.fd != 0

/-- The ntsync part of `handle_sys_exit`: the slot of the CPU, and the events
submitted. -/
def handleSysExit (tracked : UInt32 → Bool) (env : Env) (pid tid : UInt32) (ret : Int64)
    (slot : NtsyncScratch) : NtsyncScratch × List NtsyncEvent :=
  if tracked pid && slot.pid == pid && slot.filled then
    ({ slot with pid := 0 }, [ntsyncCompletion env pid tid ret slot])
  else (slot, [])

/-! ## Threads and CPUs -/

/-- The threads of a machine: the process of each, never process `0`, and the
processes the tracer follows. -/
structure Procs where
  pid : UInt32 → UInt32
  tracked : UInt32 → Bool
  pid_ne_zero : ∀ tid, pid tid ≠ 0

/-- A syscall in flight, with the memory and the CPU it entered on. -/
structure InFlight where
  sys : Syscall
  mem : UserMem
  cpu : Nat

/-- A thread runs on a CPU or is blocked, in user code or in a syscall. -/
structure Thread where
  cpu : Nat
  blocked : Bool
  call : Option InFlight

/-- A syscall that has returned, with the events its exit submitted. -/
structure Exit where
  tid : UInt32
  call : InFlight
  ret : Int64
  events : List NtsyncEvent

structure State where
  slot : Nat → NtsyncScratch
  thread : UInt32 → Thread
  exits : List Exit

/-- Every slot is clear, every thread runs user code on a CPU of its own
choice. -/
def State.start (cpu : UInt32 → Nat) : State where
  slot _ := .zero
  thread tid := { cpu := cpu tid, blocked := false, call := none }
  exits := []

inductive Act where
  | enter (tid : UInt32) (env : Env) (sys : Syscall)
  | block (tid : UInt32)
  | resume (tid : UInt32) (cpu : Nat)
  | exit (tid : UInt32) (env : Env) (ret : Int64)

variable {P : Procs} {s s' : State} {a : Act}

/-- Thread `tid` takes a step. -/
inductive Step (P : Procs) : State → Act → State → Prop where
  | enter {s : State} {tid : UInt32} {t : Thread} {env : Env} {sys : Syscall}
      (hthread : s.thread tid = t) (htracked : P.tracked (P.pid tid) = true)
      (hruns : t.blocked = false) (huser : t.call = none) :
      Step P s (.enter tid env sys)
        { s with
          slot := Function.update s.slot t.cpu
            (handleSysEnter P.tracked env (P.pid tid) tid sys (s.slot t.cpu)).1
          thread := Function.update s.thread tid
            { t with call := some { sys, mem := env.mem, cpu := t.cpu } } }
  | block {s : State} {tid : UInt32} {t : Thread} (hthread : s.thread tid = t)
      (hruns : t.blocked = false) :
      Step P s (.block tid)
        { s with thread := Function.update s.thread tid { t with blocked := true } }
  | resume {s : State} {tid : UInt32} {t : Thread} {cpu : Nat} (hthread : s.thread tid = t)
      (hblocked : t.blocked = true) :
      Step P s (.resume tid cpu)
        { s with thread := Function.update s.thread tid { t with blocked := false, cpu } }
  | exit {s : State} {tid : UInt32} {t : Thread} {call : InFlight} {env : Env} {ret : Int64}
      (hthread : s.thread tid = t) (htracked : P.tracked (P.pid tid) = true)
      (hruns : t.blocked = false) (hcall : t.call = some call) :
      Step P s (.exit tid env ret)
        { slot := Function.update s.slot t.cpu
            (handleSysExit P.tracked env (P.pid tid) tid ret (s.slot t.cpu)).1
          thread := Function.update s.thread tid { t with call := none }
          exits := s.exits ++
            [{ tid, call, ret,
               events := (handleSysExit P.tracked env (P.pid tid) tid ret (s.slot t.cpu)).2 }] }

/-- A run: the steps taken, one after the other. -/
inductive Steps (P : Procs) : State → List Act → State → Prop where
  | nil (s : State) : Steps P s [] s
  | cons {s s' s'' : State} {a : Act} {as : List Act} (hstep : Step P s a s')
      (hrest : Steps P s' as s'') : Steps P s (a :: as) s''

/-! ## What a completion owes its call -/

def InFlight.timeoutNs (c : InFlight) : UInt64 :=
  if c.sys.op.isWait then dword (waitArgs c.mem c.sys.arg2) 0 else 0

def InFlight.waitCount (c : InFlight) : UInt32 :=
  if c.sys.op.isWait then (waitArgs c.mem c.sys.arg2).getD 4 0 else 0

def InFlight.waitFds (c : InFlight) : List UInt32 :=
  if c.sys.op.isWait then
    readWaitFds c.mem (dword (waitArgs c.mem c.sys.arg2) 2) ((waitArgs c.mem c.sys.arg2).getD 4 0)
  else List.replicate ntsyncMaxWaitFds 0

/-- The event is the completion of this call of this thread. -/
structure Completes (e : NtsyncEvent) (x : Exit) : Prop where
  tid : e.tid = x.tid
  op : e.op = x.call.sys.op
  fd : e.fd = x.call.sys.fd
  timeoutNs : e.timeoutNs = x.call.timeoutNs
  waitCount : e.waitCount = x.call.waitCount
  waitFds : e.waitFds = x.call.waitFds
  result : e.result = x.ret

/-- An ntsync call has exactly one completion, any other call none. -/
structure Exit.Exact (x : Exit) : Prop where
  ntsync : x.call.sys.isNtsync = true → ∃ e, x.events = [e] ∧ Completes e x
  other : x.call.sys.isNtsync = false → x.events = []

/-! ## Calls that keep their slot -/

/-- Thread `tid` has an ntsync call in flight that entered on `cpu`. -/
def State.Holds (s : State) (tid : UInt32) (cpu : Nat) : Prop :=
  ∃ call, (s.thread tid).call = some call ∧ call.sys.isNtsync = true ∧ call.cpu = cpu

/-- The step does not disturb a slot. An ntsync call enters on a CPU where no
other one in flight entered, and leaves on the CPU it entered on, with a
command and an fd that are not both zero; any other call leaves on a CPU where
its process has no ntsync call in flight. -/
def State.Undisturbed (P : Procs) (s : State) : Act → Prop
  | .enter tid _ sys => sys.isNtsync = true → ∀ u, ¬ s.Holds u (s.thread tid).cpu
  | .block _ => True
  | .resume _ _ => True
  | .exit tid _ _ => ∀ call, (s.thread tid).call = some call →
      (call.sys.isNtsync = true →
        call.cpu = (s.thread tid).cpu ∧ (call.sys.op ≠ .createSem ∨ call.sys.fd ≠ 0))
      ∧ (call.sys.isNtsync = false →
        ∀ u, s.Holds u (s.thread tid).cpu → P.pid u ≠ P.pid tid)

/-- No step of the run disturbs a slot. -/
inductive Quiet (P : Procs) : State → List Act → State → Prop where
  | nil (s : State) : Quiet P s [] s
  | cons {s s' s'' : State} {a : Act} {as : List Act} (hok : s.Undisturbed P a)
      (hstep : Step P s a s') (hrest : Quiet P s' as s'') : Quiet P s (a :: as) s''

/-! ## Slots and their calls -/

/-- The slot an ntsync call leaves behind when it enters. -/
def InFlight.capture (P : Procs) (tid : UInt32) (c : InFlight) : NtsyncScratch :=
  ntsyncCapture c.mem (P.pid tid) c.sys

@[simp] theorem ntsyncCapture_pid (mem : UserMem) (pid : UInt32) (sc : Syscall) :
    (ntsyncCapture mem pid sc).pid = pid := by
  unfold ntsyncCapture
  dsimp only
  split
  · rfl
  · split <;> rfl

@[simp] theorem ntsyncCapture_op (mem : UserMem) (pid : UInt32) (sc : Syscall) :
    (ntsyncCapture mem pid sc).op = sc.op := by
  unfold ntsyncCapture
  dsimp only
  split
  · rfl
  · split <;> rfl

@[simp] theorem ntsyncCapture_fd (mem : UserMem) (pid : UInt32) (sc : Syscall) :
    (ntsyncCapture mem pid sc).fd = sc.fd := by
  unfold ntsyncCapture
  dsimp only
  split
  · rfl
  · split <;> rfl

theorem NtsyncOp.not_isWait_of_isCreate {op : NtsyncOp} (h : op.isCreate = true) :
    op.isWait = false := by
  cases op
  all_goals first | rfl | exact absurd h (by decide)

theorem InFlight.capture_wait (P : Procs) (tid : UInt32) (c : InFlight) :
    (c.capture P tid).timeoutNs = c.timeoutNs ∧ (c.capture P tid).waitCount = c.waitCount
      ∧ (c.capture P tid).waitFds = c.waitFds := by
  unfold capture ntsyncCapture timeoutNs waitCount waitFds
  dsimp only
  cases hcreate : c.sys.op.isCreate with
  | true =>
      rw [NtsyncOp.not_isWait_of_isCreate hcreate]
      exact ⟨rfl, rfl, rfl⟩
  | false =>
      cases c.sys.op.isWait with
      | true => exact ⟨rfl, rfl, rfl⟩
      | false => exact ⟨rfl, rfl, rfl⟩

theorem completes_capture (P : Procs) (env : Env) (tid : UInt32) (call : InFlight) (ret : Int64)
    (events : List NtsyncEvent) :
    Completes (ntsyncCompletion env (P.pid tid) tid ret (call.capture P tid))
      { tid, call, ret, events } := by
  obtain ⟨htimeout, hcount, hfds⟩ := call.capture_wait P tid
  exact
    { tid := rfl
      op := ntsyncCapture_op _ _ _
      fd := ntsyncCapture_fd _ _ _
      timeoutNs := htimeout
      waitCount := hcount
      waitFds := hfds
      result := rfl }

theorem handleSysEnter_ntsync {tracked : UInt32 → Bool} {env : Env} {pid tid : UInt32}
    {sc : Syscall} {slot : NtsyncScratch} (htracked : tracked pid = true)
    (h : sc.isNtsync = true) :
    (handleSysEnter tracked env pid tid sc slot).1 = ntsyncCapture env.mem pid sc := by
  have hcond : (tracked pid && sc.isNtsync) = true := by rw [htracked, h]; rfl
  rw [handleSysEnter, if_pos hcond]

theorem handleSysEnter_other {tracked : UInt32 → Bool} {env : Env} {pid tid : UInt32}
    {sc : Syscall} {slot : NtsyncScratch} (h : sc.isNtsync = false) :
    (handleSysEnter tracked env pid tid sc slot).1 = slot := by
  have hcond : ¬ (tracked pid && sc.isNtsync) = true := by rw [h, Bool.and_false]; decide
  rw [handleSysEnter, if_neg hcond]

/-- The slot makes an event when its process leaves a syscall. -/
def NtsyncScratch.Live (s : NtsyncScratch) (pid : UInt32) : Prop :=
  s.pid = pid ∧ s.filled = true

theorem handleSysExit_live {tracked : UInt32 → Bool} {env : Env} {pid tid : UInt32} {ret : Int64}
    {slot : NtsyncScratch} (htracked : tracked pid = true) (h : slot.Live pid) :
    handleSysExit tracked env pid tid ret slot
      = ({ slot with pid := 0 }, [ntsyncCompletion env pid tid ret slot]) := by
  have hcond : (tracked pid && slot.pid == pid && slot.filled) = true := by
    rw [htracked, h.1, h.2, beq_self_eq_true]
    rfl
  rw [handleSysExit, if_pos hcond]

theorem handleSysExit_dead {tracked : UInt32 → Bool} {env : Env} {pid tid : UInt32} {ret : Int64}
    {slot : NtsyncScratch} (h : ¬ slot.Live pid) :
    handleSysExit tracked env pid tid ret slot = (slot, []) := by
  have hcond : ¬ (tracked pid && slot.pid == pid && slot.filled) = true := by
    intro hcond
    rw [Bool.and_eq_true, Bool.and_eq_true, beq_iff_eq] at hcond
    exact h ⟨hcond.1.2, hcond.2⟩
  rw [handleSysExit, if_neg hcond]

theorem capture_live {P : Procs} {tid : UInt32} {c : InFlight}
    (h : c.sys.op ≠ .createSem ∨ c.sys.fd ≠ 0) : (c.capture P tid).Live (P.pid tid) := by
  refine ⟨ntsyncCapture_pid _ _ _, ?_⟩
  rw [NtsyncScratch.filled, InFlight.capture, ntsyncCapture_op, ntsyncCapture_fd, Bool.or_eq_true,
    bne_iff_ne, bne_iff_ne]
  exact h

/-! ## The invariant -/

/-- Every ntsync call in flight owns the slot of the CPU it entered on, and
no other slot is live. -/
structure State.Inv (P : Procs) (s : State) : Prop where
  owns : ∀ tid call, (s.thread tid).call = some call → call.sys.isNtsync = true →
    s.slot call.cpu = call.capture P tid
  alone : ∀ t u cpu, s.Holds t cpu → s.Holds u cpu → t = u
  live : ∀ cpu pid, pid ≠ 0 → (s.slot cpu).Live pid → ∃ u, s.Holds u cpu ∧ P.pid u = pid
  done : ∀ x ∈ s.exits, x.Exact

theorem State.Inv.start (P : Procs) (cpu : UInt32 → Nat) : (State.start cpu).Inv P where
  owns := fun _ _ h => nomatch h
  alone := fun _ _ _ h => nomatch h.choose_spec.1
  live := fun _ _ hne h => absurd h.1.symm hne
  done := fun _ h => nomatch h

theorem State.Inv.frame (h : s.Inv P) (hslot : s'.slot = s.slot)
    (hcall : ∀ u call, call.sys.isNtsync = true →
      ((s'.thread u).call = some call ↔ (s.thread u).call = some call))
    (hdone : ∀ x ∈ s'.exits, x.Exact) : s'.Inv P := by
  have hholds : ∀ u cpu, s'.Holds u cpu ↔ s.Holds u cpu := by
    intro u cpu
    constructor
    · rintro ⟨call, hsome, hnts, hcpu⟩
      exact ⟨call, (hcall u call hnts).mp hsome, hnts, hcpu⟩
    · rintro ⟨call, hsome, hnts, hcpu⟩
      exact ⟨call, (hcall u call hnts).mpr hsome, hnts, hcpu⟩
  refine ⟨?_, ?_, ?_, hdone⟩
  · intro u call hsome hnts
    rw [hslot]
    exact h.owns u call ((hcall u call hnts).mp hsome) hnts
  · intro t u cpu ht hu
    exact h.alone t u cpu ((hholds t cpu).mp ht) ((hholds u cpu).mp hu)
  · intro cpu pid hne hlive
    rw [hslot] at hlive
    obtain ⟨u, hu, hpid⟩ := h.live cpu pid hne hlive
    exact ⟨u, (hholds u cpu).mpr hu, hpid⟩

/-- Thread `tid` is in the call `call` after the step, every other thread
where it was. -/
structure CallSet (s s' : State) (tid : UInt32) (call : Option InFlight) : Prop where
  self : (s'.thread tid).call = call
  other : ∀ u, u ≠ tid → s'.thread u = s.thread u

theorem CallSet.of_update {tid : UInt32} {t : Thread} {call : Option InFlight}
    (h : s'.thread = Function.update s.thread tid t) (hcall : t.call = call) :
    CallSet s s' tid call where
  self := by rw [h, Function.update_self, hcall]
  other := fun u hu => by rw [h, Function.update_of_ne hu]

/-- A call afterwards is the one set, or another thread's from before. -/
theorem CallSet.inv {tid u : UInt32} {call : Option InFlight} {c : InFlight}
    (h : CallSet s s' tid call) (hsome : (s'.thread u).call = some c) :
    (u = tid ∧ call = some c) ∨ (u ≠ tid ∧ (s.thread u).call = some c) := by
  by_cases hu : u = tid
  · rw [hu, h.self] at hsome
    exact Or.inl ⟨hu, hsome⟩
  · rw [h.other u hu] at hsome
    exact Or.inr ⟨hu, hsome⟩

/-- A call that is no ntsync call, or none, changes no ntsync call. -/
theorem CallSet.frame {tid : UInt32} {c : Option InFlight} (h : CallSet s s' tid c)
    (hold : ∀ call, (s.thread tid).call = some call → call.sys.isNtsync = false)
    (hnew : ∀ call, c = some call → call.sys.isNtsync = false) (u : UInt32) (call : InFlight)
    (hnts : call.sys.isNtsync = true) :
    (s'.thread u).call = some call ↔ (s.thread u).call = some call := by
  by_cases hu : u = tid
  · subst hu
    rw [h.self]
    constructor
    · intro hsome
      rw [hnew call hsome] at hnts
      cases hnts
    · intro hsome
      rw [hold call hsome] at hnts
      cases hnts
  · rw [h.other u hu]

theorem State.Inv.take (h : s.Inv P) {tid : UInt32} {call : InFlight}
    (huser : (s.thread tid).call = none) (hcalls : CallSet s s' tid (some call)) (hnts : call.sys.isNtsync = true)
    (hfree : ∀ u, ¬ s.Holds u call.cpu) (hexits : s'.exits = s.exits)
    (hslot : s'.slot = Function.update s.slot call.cpu (call.capture P tid)) : s'.Inv P := by
  have hself : s'.Holds tid call.cpu := ⟨call, hcalls.self, hnts, rfl⟩
  have hholder : ∀ u cpu, s'.Holds u cpu →
      (u = tid ∧ cpu = call.cpu) ∨ (s.Holds u cpu ∧ cpu ≠ call.cpu) := by
    rintro u cpu ⟨c, hsome, hc, rfl⟩
    rcases hcalls.inv hsome with ⟨hu, hcall⟩ | ⟨-, hsome⟩
    · rw [Option.some.inj hcall]
      exact Or.inl ⟨hu, rfl⟩
    · refine Or.inr ⟨⟨c, hsome, hc, rfl⟩, fun hcpu => ?_⟩
      exact hfree u ⟨c, hsome, hc, hcpu⟩
  refine ⟨?_, ?_, ?_, ?_⟩
  · intro u c hsome hc
    rcases hcalls.inv hsome with ⟨rfl, hcall⟩ | ⟨-, hsome⟩
    · rw [← Option.some.inj hcall, hslot, Function.update_self]
    · have hcpu : c.cpu ≠ call.cpu := fun hcpu => hfree u ⟨c, hsome, hc, hcpu⟩
      rw [hslot, Function.update_of_ne hcpu]
      exact h.owns u c hsome hc
  · intro t u cpu ht hu
    rcases hholder t cpu ht with ⟨rfl, hcpu⟩ | ⟨ht, hne⟩
    · rcases hholder u cpu hu with ⟨rfl, -⟩ | ⟨-, hne⟩
      · rfl
      · exact absurd hcpu hne
    · rcases hholder u cpu hu with ⟨-, hcpu⟩ | ⟨hu, -⟩
      · exact absurd hcpu hne
      · exact h.alone t u cpu ht hu
  · intro cpu pid hne hlive
    rw [hslot] at hlive
    by_cases hcpu : cpu = call.cpu
    · rw [hcpu, Function.update_self] at hlive
      rw [hcpu]
      exact ⟨tid, hself, (ntsyncCapture_pid _ _ _).symm.trans hlive.1⟩
    · rw [Function.update_of_ne hcpu] at hlive
      obtain ⟨u, ⟨c, hsome, hc, hcu⟩, hpid⟩ := h.live cpu pid hne hlive
      by_cases hu : u = tid
      · rw [hu, huser] at hsome
        cases hsome
      · exact ⟨u, ⟨c, by rw [hcalls.other u hu, hsome], hc, hcu⟩, hpid⟩
  · rw [hexits]
    exact h.done

theorem State.Inv.release (h : s.Inv P) {tid : UInt32} {call : InFlight} {slot : NtsyncScratch}
    (hcall : (s.thread tid).call = some call) (hnts : call.sys.isNtsync = true)
    (hcalls : CallSet s s' tid none)
    (hslot : s'.slot = Function.update s.slot call.cpu slot) (hclear : slot.pid = 0)
    (hdone : ∀ x ∈ s'.exits, x.Exact) : s'.Inv P := by
  have hmine : s.Holds tid call.cpu := ⟨call, hcall, hnts, rfl⟩
  have hold : ∀ u cpu, s'.Holds u cpu → s.Holds u cpu ∧ cpu ≠ call.cpu := by
    rintro u cpu ⟨c, hsome, hc, rfl⟩
    rcases hcalls.inv hsome with ⟨-, hnone⟩ | ⟨hu, hsome⟩
    · cases hnone
    have hholds : s.Holds u c.cpu := ⟨c, hsome, hc, rfl⟩
    refine ⟨hholds, fun hcpu => hu ?_⟩
    rw [hcpu] at hholds
    exact h.alone u tid call.cpu hholds hmine
  refine ⟨?_, ?_, ?_, hdone⟩
  · intro u c hsome hc
    obtain ⟨-, hcpu⟩ := hold u c.cpu ⟨c, hsome, hc, rfl⟩
    rcases hcalls.inv hsome with ⟨-, hnone⟩ | ⟨-, hsome⟩
    · cases hnone
    rw [hslot, Function.update_of_ne hcpu]
    exact h.owns u c hsome hc
  · intro t u cpu ht hu
    exact h.alone t u cpu (hold t cpu ht).1 (hold u cpu hu).1
  · intro cpu pid hne hlive
    rw [hslot] at hlive
    by_cases hcpu : cpu = call.cpu
    · rw [hcpu, Function.update_self] at hlive
      exact absurd (hlive.1.symm.trans hclear) hne
    · rw [Function.update_of_ne hcpu] at hlive
      obtain ⟨u, ⟨c, hsome, hc, hcu⟩, hpid⟩ := h.live cpu pid hne hlive
      have hu : u ≠ tid := by
        rintro rfl
        rw [hcall, Option.some.injEq] at hsome
        rw [← hcu, hsome] at hcpu
        exact hcpu rfl
      exact ⟨u, ⟨c, by rw [hcalls.other u hu, hsome], hc, hcu⟩, hpid⟩

theorem Exit.exact_append {x : Exit} {exits : List Exit} (h : ∀ y ∈ exits, y.Exact)
    (hx : x.Exact) : ∀ y ∈ exits ++ [x], y.Exact := by
  intro y hy
  rcases List.mem_append.mp hy with hy | hy
  · exact h y hy
  · rw [List.mem_singleton.mp hy]
    exact hx

theorem State.Inv.enter (h : s.Inv P) {tid : UInt32} {env : Env} {sys : Syscall}
    (htracked : P.tracked (P.pid tid) = true) (huser : (s.thread tid).call = none)
    (hok : s.Undisturbed P (.enter tid env sys))
    (hslot : s'.slot = Function.update s.slot (s.thread tid).cpu
      (handleSysEnter P.tracked env (P.pid tid) tid sys (s.slot (s.thread tid).cpu)).1)
    (hcalls : CallSet s s' tid (some { sys, mem := env.mem, cpu := (s.thread tid).cpu }))
    (hexits : s'.exits = s.exits) : s'.Inv P := by
  cases hnts : sys.isNtsync with
  | true =>
      rw [handleSysEnter_ntsync htracked hnts] at hslot
      exact h.take huser hcalls hnts (hok hnts) hexits hslot
  | false =>
      rw [handleSysEnter_other hnts, Function.update_eq_self] at hslot
      refine h.frame hslot (hcalls.frame ?_ ?_) ?_
      · intro call hsome
        rw [huser] at hsome
        cases hsome
      · rintro call ⟨⟩
        exact hnts
      · rw [hexits]
        exact h.done

theorem State.Inv.exit (h : s.Inv P) {tid : UInt32} {env : Env} {ret : Int64} {call : InFlight}
    (htracked : P.tracked (P.pid tid) = true) (hcall : (s.thread tid).call = some call)
    (hok : s.Undisturbed P (.exit tid env ret))
    (hslot : s'.slot = Function.update s.slot (s.thread tid).cpu
      (handleSysExit P.tracked env (P.pid tid) tid ret (s.slot (s.thread tid).cpu)).1)
    (hcalls : CallSet s s' tid none)
    (hexits : s'.exits = s.exits ++ [{ tid, call, ret, events :=
      (handleSysExit P.tracked env (P.pid tid) tid ret (s.slot (s.thread tid).cpu)).2 }]) :
    s'.Inv P := by
  obtain ⟨hkeep, hothers⟩ := hok call hcall
  cases hnts : call.sys.isNtsync with
  | true =>
      -- the slot of this CPU is the call's own
      obtain ⟨hcpu, hfilled⟩ := hkeep hnts
      have hlive : (call.capture P tid).Live (P.pid tid) := capture_live hfilled
      rw [← hcpu, h.owns tid call hcall hnts, handleSysExit_live htracked hlive] at hslot hexits
      refine h.release hcall hnts hcalls hslot rfl ?_
      rw [hexits]
      refine Exit.exact_append h.done ⟨fun _ => ⟨_, rfl, completes_capture P env tid call ret _⟩, fun hno => ?_⟩
      rw [hnts] at hno
      cases hno
  | false =>
      -- a live slot would belong to a call of the same process
      have hdead : ¬ (s.slot (s.thread tid).cpu).Live (P.pid tid) := by
        intro hlive
        obtain ⟨u, hu, hpid⟩ := h.live _ _ (P.pid_ne_zero tid) hlive
        exact hothers hnts u hu hpid
      rw [handleSysExit_dead hdead] at hslot hexits
      rw [Function.update_eq_self] at hslot
      refine h.frame hslot (hcalls.frame ?_ ?_) ?_
      · intro c hsome
        rw [hcall, Option.some.injEq] at hsome
        rw [← hsome]
        exact hnts
      · exact fun c hsome => nomatch hsome
      · rw [hexits]
        refine Exit.exact_append h.done ⟨fun hyes => ?_, fun _ => rfl⟩
        rw [hnts] at hyes
        cases hyes

theorem State.Inv.move (h : s.Inv P) {tid : UInt32} {t : Thread}
    (ht : t.call = (s.thread tid).call) :
    ({ s with thread := Function.update s.thread tid t } : State).Inv P := by
  have hcalls : CallSet s { s with thread := Function.update s.thread tid t } tid t.call :=
    .of_update rfl rfl
  refine h.frame rfl (fun u call _ => ?_) h.done
  by_cases hu : u = tid
  · rw [hu, hcalls.self, ht]
  · rw [hcalls.other u hu]

theorem State.Inv.step (h : s.Inv P) (hok : s.Undisturbed P a) (hstep : Step P s a s') :
    s'.Inv P := by
  cases hstep with
  | @enter tid t env sys hthread htracked hruns huser =>
      subst hthread
      exact h.enter htracked huser hok rfl (.of_update rfl rfl) rfl
  | block hthread hruns =>
      subst hthread
      exact h.move rfl
  | resume hthread hblocked =>
      subst hthread
      exact h.move rfl
  | @exit tid t call env ret hthread htracked hruns hcall =>
      subst hthread
      exact h.exit htracked hcall hok rfl (.of_update rfl rfl) rfl

theorem State.Inv.steps {as : List Act} (h : s.Inv P) (hrun : Quiet P s as s') : s'.Inv P := by
  induction hrun with
  | nil => exact h
  | cons hok hstep _ ih => exact ih (h.step hok hstep)

/-- **Every call that returns is reported exactly**, in a run that disturbs no
slot: an ntsync call has one completion, with its own op, fd, wait set,
timeout and result; no other call has any. -/
theorem completions_exact (P : Procs) (cpu : UInt32 → Nat) (as : List Act) (s : State)
    (hrun : Quiet P (State.start cpu) as s) : ∀ x ∈ s.exits, x.Exact :=
  ((State.Inv.start P cpu).steps hrun).done

/-! ## A wait that blocks -/

/-- One process, followed by the tracer. -/
def soleProc : Procs where
  pid _ := 1
  tracked _ := true
  pid_ne_zero _ := by decide

/-- `ioctl(3, NTSYNC_IOC_WAIT_ANY, args)`. -/
def waitAnyCall : Syscall := { id := 16, arg0 := 3, arg1 := 0x4E82, arg2 := 0x1000 }

def quietEnv : Env := { mem := fun _ => some 1, fdObj := fun _ => 0, now := 0 }

/-- A wait that resumes on its own CPU is reported. -/
theorem completions_exact_wait :
    ∃ s, Quiet soleProc (State.start fun _ => 0)
        [.enter 7 quietEnv waitAnyCall, .block 7, .resume 7 0, .exit 7 quietEnv 0] s
      ∧ s.exits.length = 1 ∧ ∀ x ∈ s.exits, x.Exact := by
  have hrun : ∃ s, Quiet soleProc (State.start fun _ => 0)
      [.enter 7 quietEnv waitAnyCall, .block 7, .resume 7 0, .exit 7 quietEnv 0] s
        ∧ s.exits.length = 1 := by
    refine ⟨_, .cons ?_ (.enter rfl rfl rfl rfl) (.cons trivial (.block rfl rfl)
      (.cons trivial (.resume rfl rfl) (.cons ?_ (.exit rfl rfl rfl rfl) (.nil _)))), rfl⟩
    · rintro - u ⟨call, hsome, -⟩
      cases hsome
    · rintro call ⟨⟩
      exact ⟨fun _ => ⟨rfl, .inl (by decide)⟩, fun h => absurd h (by decide)⟩
  obtain ⟨s, hquiet, hlen⟩ := hrun
  exact ⟨s, hquiet, hlen, completions_exact _ _ _ s hquiet⟩

/-- A wait that resumes on another CPU is lost: the slot of that CPU is
clear. -/
theorem completions_migrated :
    ¬ ∀ (P : Procs) (cpu : UInt32 → Nat) (as : List Act) (s : State),
      Steps P (State.start cpu) as s → ∀ x ∈ s.exits, x.Exact := by
  intro h
  have hrun : ∃ s, Steps soleProc (State.start fun _ => 0)
      [.enter 7 quietEnv waitAnyCall, .block 7, .resume 7 1, .exit 7 quietEnv 0] s
        ∧ ∃ x ∈ s.exits, x.call.sys.isNtsync = true ∧ x.events = [] := by
    refine ⟨_, .cons (.enter rfl rfl rfl rfl) (.cons (.block rfl rfl)
      (.cons (.resume rfl rfl) (.cons (.exit rfl rfl rfl rfl) (.nil _)))), ?_⟩
    exact ⟨_, List.mem_singleton.mpr rfl, by decide, rfl⟩
  obtain ⟨s, hsteps, x, hx, hnts, hnone⟩ := hrun
  obtain ⟨e, hone, -⟩ := (h _ _ _ s hsteps x hx).ntsync hnts
  rw [hnone] at hone
  cases hone

end Montauk.Trace
