import Montauk.Machine.Run
import Mathlib.Data.List.Perm.Basic

/-!
# The process table of the kernel module

The module keeps one entry for each process. Entries come from two sides, the
probe on `wake_up_new_task` and the scan at load time, and go with the probe on
`do_exit`; the probes are in place before the scan starts.

A probe and the scan work on the table in steps that others may come between:
the check of the limit, the insertion and the counter are three. The machine
here takes one such step at a time, or one step of the processes themselves.
-/

namespace Montauk.Kernel

/-! ## Entries -/

/-- A NUL-terminated string in a buffer of `cap` bytes. -/
structure CString (cap : Nat) where
  bytes : List UInt8
  nonul : 0 ∉ bytes
  fits : bytes.length < cap
deriving DecidableEq

def CString.empty {cap : Nat} (h : 0 < cap) : CString cap := ⟨[], List.not_mem_nil, h⟩

def CString.strscpy {cap size : Nat} (h : 0 < size) (s : CString cap) : CString size where
  bytes := s.bytes.take (size - 1)
  nonul hmem := s.nonul (List.mem_of_mem_take hmem)
  fits := by
    rw [List.length_take]
    omega

/-- `struct montauk_proc`, without its links. -/
structure MontaukProc where
  pid : Int32
  ppid : Int32
  comm : CString 16
  utime : UInt64
  stime : UInt64
  startTime : UInt64
  rssPages : UInt64
  state : UInt8
  uid : UInt32
  nrThreads : Int32
  exePath : CString 256
deriving DecidableEq

/-- What is read of an `mm_struct`: the resident pages and the path of the
executable. -/
structure Mm where
  rss : UInt64
  exeFile : Option (CString 4096)
deriving DecidableEq

/-- What is read of a `task_struct`. -/
structure Task where
  pid : Int32
  realParent : Int32
  comm : CString 16
  utime : UInt64
  stime : UInt64
  startBoottime : UInt64
  state : UInt32
  exitState : UInt32
  uid : UInt32
  nrThreads : Int32
  mm : Option Mm
deriving DecidableEq

def montaukNsecToTicks (nsec : UInt64) : UInt64 := nsec / (1000000000 / 100)

/-- `kzalloc`, and the pid. -/
def zeroProc (pid : Int32) : MontaukProc where
  pid
  ppid := 0
  comm := .empty (by decide)
  utime := 0
  stime := 0
  startTime := 0
  rssPages := 0
  state := 0
  uid := 0
  nrThreads := 0
  exePath := .empty (by decide)

def montaukProcInitAtomic (proc : MontaukProc) (task : Task) : MontaukProc :=
  { proc with
    ppid := task.realParent
    comm := task.comm
    utime := montaukNsecToTicks task.utime
    stime := montaukNsecToTicks task.stime
    startTime := montaukNsecToTicks task.startBoottime
    state := 'R'.toUInt8
    uid := task.uid
    nrThreads := 1
    rssPages := 0
    exePath := .empty (by decide) }

def stateChar (task : Task) : UInt8 :=
  if task.state = 0 then 'R'.toUInt8
  else if task.state = 1 then 'S'.toUInt8
  else if task.state = 2 then 'D'.toUInt8
  else if task.state = 4 then 'T'.toUInt8
  else if task.exitState = 32 then 'Z'.toUInt8
  else '?'.toUInt8

/-- `montauk_proc_update_from_task`, of the leader of a thread group. -/
def montaukProcUpdateFromTask (proc : MontaukProc) (task : Task) : MontaukProc :=
  { proc with
    ppid := task.realParent
    comm := task.comm
    utime := montaukNsecToTicks task.utime
    stime := montaukNsecToTicks task.stime
    startTime := montaukNsecToTicks task.startBoottime
    state := stateChar task
    uid := task.uid
    nrThreads := task.nrThreads
    rssPages := (task.mm.map Mm.rss).getD 0
    exePath := ((task.mm.bind Mm.exeFile).map (CString.strscpy (by decide))).getD proc.exePath }

/-! ## Processes and the steps in progress -/

/-- The leader of a thread group: it runs, is in the probe on `do_exit`, or is
behind it. -/
inductive Leader where
  | running
  | exiting
  | gone
deriving DecidableEq

/-- A process, until it is reaped: its leader, and the number of its other live
threads. -/
structure Process where
  pid : Int32
  leader : Leader
  others : Nat
deriving DecidableEq

/-- A thread of the process is not on its way out. -/
def Process.stays (p : Process) : Bool := p.leader = .running || 0 < p.others

def Process.live (p : Process) : Bool := p.leader ≠ .gone || 0 < p.others

/-- Who makes an entry. -/
inductive Source where
  | fork
  | scan
deriving DecidableEq

/-- What a probe or the scan is about to do next. -/
inductive Op where
  | alloc (src : Source) (task : Task)
  | insert (src : Source) (proc : MontaukProc)
  | count (src : Source) (pid : Int32)
  | remove (pid : Int32)
  | uncount (pid : Int32)
deriving DecidableEq

/-- `struct montauk_stats`, without the load time. -/
structure MontaukStats where
  tracked : Int := 0
  forks : Nat := 0
  execs : Nat := 0
  exits : Nat := 0
  overflows : Nat := 0

/-- The parameter `max_procs`, and whether `rhashtable_insert_fast` refuses a
key that is there already. -/
structure Config where
  maxProcs : Nat
  refuses : Bool

/-- The machine and the module; `scan` has the processes the scan of
`for_each_process` has not come to yet, while it runs. -/
structure State where
  procs : List Process
  table : List MontaukProc := []
  stats : MontaukStats := {}
  ops : List Op := []
  scan : Option (List Int32)

/-! ## The table -/

/-- `montauk_proc_lookup`, as far as it finds an entry. -/
def State.has (s : State) (pid : Int32) : Bool := s.table.any fun e => e.pid = pid

/-- The change of the entry a lookup finds. -/
def updateEntry (pid : Int32) (f : MontaukProc → MontaukProc) : List MontaukProc → List MontaukProc
  | [] => []
  | e :: rest => if e.pid = pid then f e :: rest else e :: updateEntry pid f rest

/-- `montauk_proc_alloc` with the fields the caller fills in; without room the
caller gives up. -/
def montaukProcAlloc (cfg : Config) (s : State) (src : Source) (task : Task) : State :=
  if cfg.maxProcs ≤ s.stats.tracked then
    { s with stats := { s.stats with overflows := s.stats.overflows + 1 } }
  else
    let proc := match src with
      | .fork => montaukProcInitAtomic (zeroProc task.pid) task
      | .scan => montaukProcUpdateFromTask (zeroProc task.pid) task
    { s with ops := .insert src proc :: s.ops }

/-- `montauk_proc_insert`, up to the counter. -/
def montaukProcInsert (cfg : Config) (s : State) (src : Source) (proc : MontaukProc) : State :=
  if cfg.refuses && s.has proc.pid then s
  else { s with table := proc :: s.table, ops := .count src proc.pid :: s.ops }

/-- The counter, and the one of the fork probe. -/
def countInsert (s : State) (src : Source) : State :=
  { s with stats := { s.stats with
      tracked := s.stats.tracked + 1
      forks := if src = .fork then s.stats.forks + 1 else s.stats.forks } }

def State.setProc (s : State) (pid : Int32) (f : Process → Process) : State :=
  { s with procs := s.procs.map fun p => if p.pid = pid then f p else p }

/-- The end of the probe on `do_exit`. -/
def State.exited (s : State) (pid : Int32) : State :=
  { s with stats := { s.stats with exits := s.stats.exits + 1 } }.setProc pid
    fun p => { p with leader := .gone }

/-- `montauk_proc_remove`, up to the counter. -/
def montaukProcRemove (s : State) (pid : Int32) : State :=
  if s.has pid then
    { s with table := s.table.eraseP fun e => e.pid = pid, ops := .uncount pid :: s.ops }
  else s.exited pid

def countRemove (s : State) (pid : Int32) : State :=
  { s with stats := { s.stats with tracked := s.stats.tracked - 1 } }.exited pid

def opStep (cfg : Config) (s : State) : Op → State
  | .alloc src task => montaukProcAlloc cfg s src task
  | .insert src proc => montaukProcInsert cfg s src proc
  | .count src _ => countInsert s src
  | .remove pid => montaukProcRemove s pid
  | .uncount pid => countRemove s pid

/-- An allocation in the module or in the hash table may fail, and the entry is
dropped. -/
def Op.mayFail : Op → Bool
  | .alloc .. | .insert .. => true
  | _ => false

/-! ## The probes -/

def montaukForkHandler (threadGroupLeader : Bool) (child : Task) : List Op :=
  if threadGroupLeader then [.alloc .fork child] else []

/-- `montauk_exec_handler`, in the thread `pid`. -/
def montaukExecHandler (s : State) (pid : Int32) (comm : CString 16) : State :=
  { s with
    table := updateEntry pid (fun e => { e with comm, exePath := .empty (by decide) }) s.table
    stats := { s.stats with execs := s.stats.execs + 1 } }

/-- `montauk_exit_handler`, in the thread `pid`. -/
def montaukExitHandler (threadGroupLeader : Bool) (pid : Int32) : List Op :=
  if threadGroupLeader then [.remove pid] else []

/-! ## The machine -/

def State.find (s : State) (pid : Int32) : Option Process := s.procs.find? fun p => p.pid = pid

/-- The process is not between its creation and the end of the fork probe. -/
def State.awake (s : State) (pid : Int32) : Bool :=
  s.ops.all fun
    | .alloc .fork task => task.pid ≠ pid
    | .insert .fork proc => proc.pid ≠ pid
    | .count .fork p => p ≠ pid
    | _ => true

def State.scanReady (s : State) : Bool :=
  s.ops.all fun
    | .alloc .scan _ | .insert .scan _ | .count .scan _ => false
    | _ => true

inductive Action where
  /-- `wake_up_new_task` for a new process -/
  | fork (child : Task)
  /-- `wake_up_new_task` for another thread of a process -/
  | clone (pid : Int32) (child : Task)
  /-- `begin_new_exec` in a thread -/
  | exec (tid : Int32) (comm : CString 16)
  /-- the thread that execs takes over from the leader, which has exited -/
  | takeOver (pid : Int32)
  /-- `do_exit` in a thread that is no leader -/
  | exitThread (pid tid : Int32)
  /-- `do_exit` in a leader -/
  | exitLeader (pid : Int32)
  /-- a process without live threads is released -/
  | reap (pid : Int32)
  /-- the scan comes to a task -/
  | scanTask (task : Task)
  | scanEnd
  /-- a probe or the scan goes on -/
  | goOn (op : Op)
  | fail (op : Op)

/-- A process enters the list of tasks, at its end. -/
def State.link (s : State) (p : Process) : State :=
  { s with procs := p :: s.procs, scan := s.scan.map fun todo => todo ++ [p.pid] }

def State.unlink (s : State) (pid : Int32) : State :=
  { s with
    procs := s.procs.filter fun p => p.pid ≠ pid
    scan := s.scan.map fun todo => todo.filter fun p => p ≠ pid }

/-- There is a process to take a step, and it has been woken. -/
def State.can (s : State) (pid : Int32) (ok : Process → Bool) : Bool :=
  s.awake pid && (s.find pid).any ok

def step (cfg : Config) (s : State) : Action → Option State
  | .fork child =>
      if (s.find child.pid).isNone then
        some ({ s with ops := montaukForkHandler true child ++ s.ops }.link
          ⟨child.pid, .running, 0⟩)
      else none
  | .clone pid child =>
      if s.can pid Process.stays then
        some ({ s with ops := montaukForkHandler false child ++ s.ops }.setProc pid
          fun p => { p with others := p.others + 1 })
      else none
  | .exec tid comm => some (montaukExecHandler s tid comm)
  | .takeOver pid =>
      if s.can pid fun p => p.leader = .gone && 0 < p.others then
        some (s.setProc pid fun p => { p with leader := .running, others := p.others - 1 })
      else none
  | .exitThread pid tid =>
      if s.can pid fun p => 0 < p.others then
        some ({ s with ops := montaukExitHandler false tid ++ s.ops }.setProc pid
          fun p => { p with others := p.others - 1 })
      else none
  | .exitLeader pid =>
      if s.can pid fun p => p.leader = .running then
        some ({ s with ops := montaukExitHandler true pid ++ s.ops }.setProc pid
          fun p => { p with leader := .exiting })
      else none
  | .reap pid => if s.can pid fun p => !p.live then some (s.unlink pid) else none
  | .scanTask task =>
      match s.scan with
      | some (pid :: todo) =>
          if s.scanReady ∧ task.pid = pid then
            some { s with ops := .alloc .scan task :: s.ops, scan := some todo }
          else none
      | _ => none
  | .scanEnd => if s.scan = some [] ∧ s.scanReady then some { s with scan := none } else none
  | .goOn op => if op ∈ s.ops then some (opStep cfg { s with ops := s.ops.erase op } op) else none
  | .fail op =>
      if op ∈ s.ops ∧ op.mayFail then some { s with ops := s.ops.erase op } else none

/-- The processes at load time. No exit probe runs in them yet. -/
structure Boot where
  procs : List Process
  distinct : (procs.map Process.pid).Nodup
  settled : ∀ p ∈ procs, p.leader ≠ .exiting

/-- `montauk_init`, when the probes are registered and `montauk_populate_existing`
is about to start. -/
def montaukInit (b : Boot) : State where
  procs := b.procs
  scan := some (b.procs.map Process.pid)

end Montauk.Kernel
