import Montauk.Machine.Run
import Montauk.Machine.Scan
import Mathlib.Data.UInt
import Mathlib.Logic.Function.Basic

/-!
# The tracked set

Which processes the tracer follows is the key set of one map, `proc_map`. It
is filled by pattern matches on an exec, a first syscall and a rename of the
main thread, by userspace from the names it discovers, and by `handle_fork`,
which hands the parent's entry on to the child. Nothing takes a key out.

The fork tracepoint reports thread ids, and `handle_fork` looks the parent up
under its thread id, where every other handler asks for the process. A worker
thread that was there before its process was enrolled has no entry of its
own, and what it forks is lost (`tracked_descendants_worker`); as long as the
threads that fork have an entry whenever their process has one, the tracked
set is closed under fork (`tracked_descendants`).

An entry outlives its process, and so it speaks for whoever gets the id next
(`tracked_legit_reused`). A tracked process has a right to be so if every new
id is either written by the fork or free in the map, and userspace promotes
no id for a name that an earlier process left behind (`tracked_legit`).
-/

namespace Montauk.Trace

open Machine Scan

/-! ## The maps -/

/-- `struct proc_bpf_info`. -/
structure ProcInfo where
  pid : UInt32
  ppid : UInt32
  tracked : Bool
  isRoot : Bool
  exited : Bool
  exitCode : Int32
  forkTs : UInt64
  execTs : UInt64
  exitTs : UInt64
  comm : List UInt8
  execFile : List UInt8

/-- `struct discovery_entry`. -/
structure Discovery where
  pid : UInt32
  comm : List UInt8

/-- The `TRACE_EVT_EXEC` record. -/
structure ExecEvent where
  pid : UInt32
  comm : List UInt8
  filename : List UInt8

/-- What the tracer was started with: the pattern in `.rodata`, lower-cased,
the search over all patterns in userspace, and the processes it never
promotes. -/
structure TraceConfig where
  pattern : List UInt8
  matchesAny : List UInt8 → Bool
  excluded : UInt32 → Bool

/-- The maps, and the exec records userspace has not consumed. -/
structure Maps where
  proc : UInt32 → Option ProcInfo
  disc : UInt32 → Option Discovery
  events : List ExecEvent

def Maps.isTracked (m : Maps) (pid : UInt32) : Bool := (m.proc pid).isSome

def lowerAscii (c : UInt8) : UInt8 := if 0x41 ≤ c && c ≤ 0x5a then c + 32 else c

/-- `bpf_substr_match`: the pattern at some position of the lower-cased
buffer. -/
def bpfSubstrMatch (hay needle : List UInt8) : Bool :=
  if needle = [] ∨ hay = [] ∨ hay.length < needle.length then false
  else
    let hay := (hay.take 64).map lowerAscii
    (List.range hay.length).any fun pos =>
      pos + needle.length ≤ hay.length && (hay.drop (pos % 32)).take needle.length == needle

/-! ## The handlers -/

/-- The clock and the name of the running thread when a handler runs. -/
structure TaskEnv where
  now : UInt64
  comm : List UInt8

/-- The entry of a process that matched the pattern. -/
def ProcInfo.root (pid : UInt32) (comm : List UInt8) : ProcInfo where
  pid
  ppid := 0
  tracked := true
  isRoot := true
  exited := false
  exitCode := 0
  forkTs := 0
  execTs := 0
  exitTs := 0
  comm := cbuf 16 comm
  execFile := List.replicate 64 0

def ProcInfo.child (parent : ProcInfo) (env : TaskEnv) (parentPid childPid : UInt32) :
    ProcInfo where
  pid := childPid
  ppid := parentPid
  tracked := true
  isRoot := false
  exited := false
  exitCode := 0
  forkTs := env.now
  execTs := 0
  exitTs := 0
  comm := parent.comm
  execFile := List.replicate 64 0

/-- `handle_exec` on an entry. -/
def ProcInfo.execed (env : TaskEnv) (file : List UInt8) (info : ProcInfo) : ProcInfo :=
  { info with comm := cbuf 16 env.comm, execTs := env.now, execFile := cbuf 64 file }

/-- `handle_exit` on an entry. -/
def ProcInfo.gone (env : TaskEnv) (code : Int32) (info : ProcInfo) : ProcInfo :=
  { info with exited := true, exitTs := env.now, exitCode := code }

def ProcInfo.renamed (name : List UInt8) (info : ProcInfo) : ProcInfo :=
  { info with comm := cbuf 16 name }

/-- Change the entry of `pid`, if there is one. -/
def Maps.modify (m : Maps) (pid : UInt32) (g : ProcInfo → ProcInfo) : Maps :=
  { m with proc := Function.update m.proc pid ((m.proc pid).map g) }

/-- `auto_track_pid`; an entry that is there stays. -/
def Maps.autoTrackPid (m : Maps) (env : TaskEnv) (pid : UInt32) : Maps :=
  if m.isTracked pid then m
  else { m with proc := Function.update m.proc pid (some (.root pid env.comm)) }

/-- `handle_fork`, with the thread ids of the tracepoint. -/
def Maps.handleFork (m : Maps) (env : TaskEnv) (parentPid childPid : UInt32) : Maps :=
  match m.proc parentPid with
  | none => m
  | some parent =>
      { m with
        proc := Function.update m.proc childPid (some (parent.child env parentPid childPid)) }

/-- The pattern match of `handle_exec`: on the file, else on the name. -/
def execMatches (cfg : TraceConfig) (env : TaskEnv) (file : List UInt8) : Bool :=
  bpfSubstrMatch ((cbuf 64 file).take 56) cfg.pattern ||
    bpfSubstrMatch (cbuf 16 env.comm) cfg.pattern

def Maps.handleExec (cfg : TraceConfig) (m : Maps) (env : TaskEnv) (pid : UInt32)
    (file : List UInt8) : Maps :=
  let m := m.modify pid (ProcInfo.execed env file)
  let m := if !m.isTracked pid && execMatches cfg env file then m.autoTrackPid env pid else m
  if m.isTracked pid then
    { m with events := m.events ++ [{ pid, comm := cbuf 16 env.comm, filename := cbuf 64 file }] }
  else m

/-- `handle_exit` on `proc_map`: the entry is marked, not deleted. -/
def Maps.handleExit (m : Maps) (env : TaskEnv) (pid : UInt32) (code : Int32) : Maps :=
  m.modify pid (ProcInfo.gone env code)

/-- The discovery part of `handle_sys_enter`; `leaderComm` is the name of the
group leader. -/
def Maps.discover (cfg : TraceConfig) (m : Maps) (env : TaskEnv) (pid : UInt32)
    (leaderComm : List UInt8) : Maps :=
  if m.isTracked pid || (m.disc pid).isSome then m
  else
    let m := { m with
      disc := Function.update m.disc pid (some { pid, comm := cbuf 16 leaderComm }) }
    if bpfSubstrMatch (cbuf 16 leaderComm) cfg.pattern then m.autoTrackPid env pid else m

/-- The `PR_SET_NAME` part of `handle_sys_enter`. -/
def Maps.rename (cfg : TraceConfig) (m : Maps) (env : TaskEnv) (pid tid : UInt32)
    (name : List UInt8) : Maps :=
  if tid = pid then
    let m := { m with disc := Function.update m.disc pid (some { pid, comm := cbuf 16 name }) }
    if m.isTracked pid then m.modify pid (ProcInfo.renamed name)
    else if bpfSubstrMatch (cbuf 16 name) cfg.pattern then m.autoTrackPid env pid
    else m
  else m

/-- What `handle_sys_enter` does to the maps, with the new name if the call is
a rename. -/
def Maps.sysEnter (cfg : TraceConfig) (m : Maps) (env : TaskEnv) (pid tid : UInt32)
    (leaderComm : List UInt8) (name : Option (List UInt8)) : Maps :=
  let m := m.discover cfg env pid leaderComm
  (name.map fun name => m.rename cfg env pid tid name).getD m

/-- `BpfTraceCollector::track_pid`, called with parent `0` and as a root. -/
def Maps.trackPid (m : Maps) (pid : UInt32) (comm : List UInt8) : Maps :=
  { m with proc := Function.update m.proc pid (some (.root pid (cstr comm))) }

/-- `rescan_comms` promotes this entry. -/
def Maps.promotes (cfg : TraceConfig) (m : Maps) (de : Discovery) : Bool :=
  !m.isTracked de.pid && !cfg.excluded de.pid && !(cstr de.comm).isEmpty &&
    cfg.matchesAny (cstr de.comm)

/-- `rescan_comms` at the entry of one key. -/
def Maps.rescan (cfg : TraceConfig) (m : Maps) (key : UInt32) : Maps :=
  (((m.disc key).filter (m.promotes cfg)).map fun de => m.trackPid de.pid de.comm).getD m

/-- `handle_event` on the next exec record. -/
def Maps.consume (cfg : TraceConfig) (m : Maps) : Maps :=
  match m.events with
  | [] => m
  | e :: rest =>
      let m := { m with events := rest }
      if !cfg.excluded e.pid &&
          ((!(cstr e.filename).isEmpty && cfg.matchesAny (cstr e.filename)) ||
            (!(cstr e.comm).isEmpty && cfg.matchesAny (cstr e.comm))) then
        m.trackPid e.pid e.comm
      else m

/-! ## What each handler does to the tracked set -/

section

variable (cfg : TraceConfig) (m : Maps) (env : TaskEnv)

theorem isTracked_update (proc : UInt32 → Option ProcInfo) (pid x : UInt32)
    (v : Option ProcInfo) (disc : UInt32 → Option Discovery) (events : List ExecEvent) :
    Maps.isTracked { proc := Function.update proc pid v, disc, events } x
      = if x = pid then v.isSome else (proc x).isSome := by
  unfold Maps.isTracked
  by_cases h : x = pid
  · subst h
    simp
  · simp [h]

theorem isTracked_autoTrackPid (pid x : UInt32) :
    (m.autoTrackPid env pid).isTracked x = (decide (x = pid) || m.isTracked x) := by
  unfold Maps.autoTrackPid
  split
  · rename_i h
    by_cases hx : x = pid
    · subst hx
      simp [h]
    · simp [hx]
  · rw [isTracked_update]
    by_cases hx : x = pid <;> simp [hx, Maps.isTracked]

theorem isTracked_handleFork (t c x : UInt32) :
    (m.handleFork env t c).isTracked x = (decide (x = c) && m.isTracked t || m.isTracked x) := by
  unfold Maps.handleFork
  cases h : m.proc t with
  | none => simp [Maps.isTracked, h]
  | some parent =>
    simp only
    rw [isTracked_update]
    by_cases hx : x = c <;> simp [hx, Maps.isTracked, h]

theorem isTracked_modify (pid x : UInt32) (g : ProcInfo → ProcInfo) :
    (m.modify pid g).isTracked x = m.isTracked x := by
  unfold Maps.modify
  rw [isTracked_update]
  by_cases hx : x = pid
  · subst hx
    simp [Maps.isTracked]
  · simp [hx, Maps.isTracked]

theorem isTracked_handleExec (pid x : UInt32) (file : List UInt8) :
    (m.handleExec cfg env pid file).isTracked x
      = (decide (x = pid) && execMatches cfg env file || m.isTracked x) := by
  have hev : ∀ (n : Maps) (es : List ExecEvent),
      (if n.isTracked pid then { n with events := es } else n).isTracked x = n.isTracked x := by
    intro n es
    split <;> rfl
  unfold Maps.handleExec
  simp only
  rw [hev]
  cases ht : m.isTracked pid with
  | true =>
    simp only [isTracked_modify, ht, Bool.not_true, Bool.false_and, Bool.false_eq_true, if_false]
    by_cases hx : x = pid
    · subst hx
      simp [ht]
    · simp [hx]
  | false =>
    cases hm : execMatches cfg env file with
    | true => simp [isTracked_modify, isTracked_autoTrackPid, ht]
    | false => simp [isTracked_modify]

theorem isTracked_handleExit (pid x : UInt32) (code : Int32) :
    (m.handleExit env pid code).isTracked x = m.isTracked x :=
  isTracked_modify m pid x _

/-- The first syscall of a process that is neither tracked nor known. -/
def Maps.discoverMatches (pid : UInt32) (leaderComm : List UInt8) : Bool :=
  !m.isTracked pid && (m.disc pid).isNone && bpfSubstrMatch (cbuf 16 leaderComm) cfg.pattern

theorem isTracked_discover (pid x : UInt32) (leaderComm : List UInt8) :
    (m.discover cfg env pid leaderComm).isTracked x
      = (decide (x = pid) && m.discoverMatches cfg pid leaderComm || m.isTracked x) := by
  unfold Maps.discover Maps.discoverMatches
  split
  · rename_i h
    rcases Bool.or_eq_true _ _ |>.mp h with h | h
    · simp [h]
    · rw [Option.isNone_eq_false_iff.mpr h]
      simp
  · rename_i h
    simp only [Bool.or_eq_true, not_or, Bool.not_eq_true] at h
    have hd : (m.disc pid).isNone = true := by
      rw [Option.isNone_iff_eq_none]
      simpa using h.2
    rw [h.1, hd]
    split
    · rename_i hm
      rw [isTracked_autoTrackPid, hm]
      simp [Maps.isTracked]
    · rename_i hm
      simp only [Bool.not_eq_true] at hm
      rw [hm]
      simp [Maps.isTracked]

/-- A rename of the main thread of a process that is not tracked. -/
def Maps.renameMatches (pid tid : UInt32) (name : List UInt8) : Bool :=
  decide (tid = pid) && !m.isTracked pid && bpfSubstrMatch (cbuf 16 name) cfg.pattern

theorem isTracked_rename (pid tid x : UInt32) (name : List UInt8) :
    (m.rename cfg env pid tid name).isTracked x
      = (decide (x = pid) && m.renameMatches cfg pid tid name || m.isTracked x) := by
  have hdisc : ∀ (disc : UInt32 → Option Discovery) y,
      Maps.isTracked { m with disc := disc } y = m.isTracked y := fun _ _ => rfl
  unfold Maps.rename Maps.renameMatches
  by_cases ht : tid = pid
  · cases hp : m.isTracked pid with
    | true => simp [ht, hp, hdisc, isTracked_modify]
    | false =>
      cases hm : bpfSubstrMatch (cbuf 16 name) cfg.pattern with
      | true => simp [ht, hp, hdisc, isTracked_autoTrackPid]
      | false => simp [ht, hp, hdisc]
  · simp [ht]

theorem isTracked_sysEnter (pid tid x : UInt32) (leaderComm : List UInt8)
    (name : Option (List UInt8)) :
    (m.sysEnter cfg env pid tid leaderComm name).isTracked x
      = (decide (x = pid) && (m.discoverMatches cfg pid leaderComm ||
          name.any fun name =>
            (m.discover cfg env pid leaderComm).renameMatches cfg pid tid name) ||
        m.isTracked x) := by
  unfold Maps.sysEnter
  cases name with
  | none => simp [isTracked_discover]
  | some name =>
    simp only [Option.map_some, Option.getD_some, Option.any_some]
    rw [isTracked_rename, isTracked_discover]
    cases decide (x = pid) <;> simp [Bool.or_comm, Bool.or_left_comm, Bool.or_assoc]

theorem isTracked_trackPid (pid x : UInt32) (comm : List UInt8) :
    (m.trackPid pid comm).isTracked x = (decide (x = pid) || m.isTracked x) := by
  unfold Maps.trackPid
  rw [isTracked_update]
  by_cases hx : x = pid <;> simp [hx, Maps.isTracked]

end

/-! ## Processes -/

/-- The threads that run when the tracer starts, each with its process. An id
that names a process is the id of no thread of another one. -/
structure Boot where
  threads : List (UInt32 × UInt32)
  ids : ∀ p ∈ threads, ∀ q ∈ threads, p.1 = q.2 → p.2 = q.2

/-- The maps, and the machine they are about. `threads` are the live threads,
as thread id and process id; `inst` numbers the processes that have had an id,
so that a reused id is a new number, and `discInst` says which of them left
the name in `discovery_map`. `forks` are the pairs of child and parent;
`isMatch` says which processes matched the pattern, and `due` that a live
process did, or was forked by one that was due or tracked. -/
structure System where
  maps : Maps
  threads : List (UInt32 × UInt32)
  inst : UInt32 → Nat
  next : Nat
  discInst : UInt32 → Nat
  forks : List (Nat × Nat)
  isMatch : Nat → Bool
  due : UInt32 → Bool

def System.start (b : Boot) : System where
  maps := { proc := fun _ => none, disc := fun _ => none, events := [] }
  threads := b.threads
  inst g := g.toNat
  next := 2 ^ 32
  discInst _ := 0
  forks := []
  isMatch _ := false
  due _ := false

inductive TrackAct where
  | clone (t g c : UInt32) (env : TaskEnv)
  | fork (t g c : UInt32) (env : TaskEnv)
  | exec (t g : UInt32) (file : List UInt8) (env : TaskEnv)
  | sysEnter (t g : UInt32) (leaderComm : List UInt8) (name : Option (List UInt8)) (env : TaskEnv)
  | exit (t g : UInt32) (code : Int32) (env : TaskEnv)
  | rescan (key : UInt32)
  | consume

/-- No live thread or process has this id. -/
def System.unused (s : System) (c : UInt32) : Bool :=
  s.threads.all fun p => p.1 != c && p.2 != c

/-- Process `g` matches the pattern if `b`. -/
def System.mark (s : System) (b : Bool) (g : UInt32) : System :=
  { s with
    isMatch := if b then Function.update s.isMatch (s.inst g) true else s.isMatch
    due := if b then Function.update s.due g true else s.due }

/-- The entry userspace promotes at `key` speaks for the process that has the
id now. -/
def System.ownName (s : System) (key : UInt32) (de : Discovery) : Bool :=
  s.threads.any (fun p => p.2 == de.pid) && s.discInst key == s.inst de.pid

/-- One step: of thread `t` of process `g`, or of userspace. -/
def System.step (cfg : TraceConfig) (s : System) : TrackAct → Option System
  | .clone t g c env =>
      if s.threads.contains (t, g) && s.unused c then
        some { s with maps := s.maps.handleFork env t c, threads := (c, g) :: s.threads }
      else none
  | .fork t g c env =>
      if s.threads.contains (t, g) && s.unused c then
        some { s with
          maps := s.maps.handleFork env t c
          threads := (c, c) :: s.threads
          inst := Function.update s.inst c s.next
          next := s.next + 1
          forks := (s.next, s.inst g) :: s.forks
          due := Function.update s.due c (s.due g || s.maps.isTracked g) }
      else none
  | .exec t g file env =>
      -- the other threads are gone, and the one left takes the leader's id
      if s.threads.contains (t, g) && s.threads.all (fun p => p.2 != g || p.1 == t) then
        some (System.mark { s with
          maps := s.maps.handleExec cfg env g file
          threads := (g, g) :: s.threads.filter fun p => p.2 != g }
            (!s.maps.isTracked g && execMatches cfg env file) g)
      else none
  | .sysEnter t g leaderComm name env =>
      if s.threads.contains (t, g) then
        let m := s.maps.discover cfg env g leaderComm
        some (System.mark { s with
          maps := s.maps.sysEnter cfg env g t leaderComm name
          discInst :=
            if (!s.maps.isTracked g && (s.maps.disc g).isNone) || (name.isSome && t == g) then
              Function.update s.discInst g (s.inst g)
            else s.discInst }
            (s.maps.discoverMatches cfg g leaderComm ||
              name.any fun name => m.renameMatches cfg g t name) g)
      else none
  | .exit t g code env =>
      if s.threads.contains (t, g) then
        some { s with
          maps := s.maps.handleExit env t code
          threads := s.threads.filter fun p => p != (t, g) }
      else none
  | .rescan key =>
      match (s.maps.disc key).filter (s.maps.promotes cfg) with
      | none => some s
      | some de =>
          some (System.mark { s with maps := s.maps.trackPid de.pid de.comm }
            (s.ownName key de) de.pid)
  | .consume => some { s with maps := s.maps.consume cfg }

/-- The maps behind a scan of one key are what `rescan_comms` makes of them. -/
theorem step_rescan_maps {cfg : TraceConfig} {s s' : System} {key : UInt32}
    (h : s.step cfg (.rescan key) = some s') : s'.maps = s.maps.rescan cfg key := by
  simp only [System.step] at h
  unfold Maps.rescan
  split at h
  · rename_i hnone
    cases h
    rw [hnone]
    rfl
  · rename_i de hsome
    cases h
    rw [hsome]
    rfl

/-- Process `i` matched the pattern itself, or was forked by one with the
right. -/
inductive Legit (isMatch : Nat → Bool) (forks : List (Nat × Nat)) : Nat → Prop where
  | matched {i : Nat} (h : isMatch i = true) : Legit isMatch forks i
  | forked {i j : Nat} (h : (i, j) ∈ forks) (hj : Legit isMatch forks j) : Legit isMatch forks i

theorem Legit.mono {isMatch isMatch' : Nat → Bool} {forks forks' : List (Nat × Nat)}
    (hm : ∀ i, isMatch i = true → isMatch' i = true) (hf : ∀ p ∈ forks, p ∈ forks') {i : Nat}
    (h : Legit isMatch forks i) : Legit isMatch' forks' i := by
  induction h with
  | matched h => exact .matched (hm _ h)
  | forked h _ ih => exact .forked (hf _ h) ih

/-- The process that has the id `g` has the right to be tracked. -/
def System.Legit (s : System) (g : UInt32) : Prop :=
  Trace.Legit s.isMatch s.forks (s.inst g)

section

variable {cfg : TraceConfig} {s s' : System} {a : TrackAct}

theorem mem_contains {l : List (UInt32 × UInt32)} {t g : UInt32} (h : l.contains (t, g) = true) :
    (t, g) ∈ l := by
  simpa using h

theorem System.unused_ne {c : UInt32} (h : s.unused c = true) {p : UInt32 × UInt32}
    (hp : p ∈ s.threads) : p.1 ≠ c ∧ p.2 ≠ c := by
  have hall := List.all_eq_true.mp h p hp
  simpa using hall

/-! ## What one step does -/

theorem System.step_clone {t g c : UInt32} {env : TaskEnv}
    (h : s.step cfg (.clone t g c env) = some s') :
    (t, g) ∈ s.threads ∧ (∀ p ∈ s.threads, p.1 ≠ c ∧ p.2 ≠ c) ∧
      s' = { s with maps := s.maps.handleFork env t c, threads := (c, g) :: s.threads } := by
  simp only [System.step] at h
  split at h
  · rename_i hc
    rw [Bool.and_eq_true] at hc
    cases h
    exact ⟨mem_contains hc.1, fun _ hp => System.unused_ne hc.2 hp, rfl⟩
  · cases h

theorem System.step_fork {t g c : UInt32} {env : TaskEnv}
    (h : s.step cfg (.fork t g c env) = some s') :
    (t, g) ∈ s.threads ∧ (∀ p ∈ s.threads, p.1 ≠ c ∧ p.2 ≠ c) ∧
      s' = { s with
        maps := s.maps.handleFork env t c
        threads := (c, c) :: s.threads
        inst := Function.update s.inst c s.next
        next := s.next + 1
        forks := (s.next, s.inst g) :: s.forks
        due := Function.update s.due c (s.due g || s.maps.isTracked g) } := by
  simp only [System.step] at h
  split at h
  · rename_i hc
    rw [Bool.and_eq_true] at hc
    cases h
    exact ⟨mem_contains hc.1, fun _ hp => System.unused_ne hc.2 hp, rfl⟩
  · cases h

theorem System.step_exec {t g : UInt32} {file : List UInt8} {env : TaskEnv}
    (h : s.step cfg (.exec t g file env) = some s') :
    (t, g) ∈ s.threads ∧
      s' = System.mark { s with
        maps := s.maps.handleExec cfg env g file
        threads := (g, g) :: s.threads.filter fun p => p.2 != g }
          (!s.maps.isTracked g && execMatches cfg env file) g := by
  simp only [System.step] at h
  split at h
  · rename_i hc
    rw [Bool.and_eq_true] at hc
    cases h
    exact ⟨mem_contains hc.1, rfl⟩
  · cases h

theorem System.step_sysEnter {t g : UInt32} {leaderComm : List UInt8} {name : Option (List UInt8)}
    {env : TaskEnv} (h : s.step cfg (.sysEnter t g leaderComm name env) = some s') :
    (t, g) ∈ s.threads ∧ ∃ discInst,
      s' = System.mark { s with maps := s.maps.sysEnter cfg env g t leaderComm name, discInst }
        (s.maps.discoverMatches cfg g leaderComm ||
          name.any fun name => (s.maps.discover cfg env g leaderComm).renameMatches cfg g t name)
        g := by
  simp only [System.step] at h
  split at h
  · rename_i hc
    cases h
    exact ⟨mem_contains hc, _, rfl⟩
  · cases h

theorem System.step_exit {t g : UInt32} {code : Int32} {env : TaskEnv}
    (h : s.step cfg (.exit t g code env) = some s') :
    s' = { s with
      maps := s.maps.handleExit env t code
      threads := s.threads.filter fun p => p != (t, g) } := by
  simp only [System.step] at h
  split at h
  · cases h
    rfl
  · cases h

theorem System.step_rescan {key : UInt32} (h : s.step cfg (.rescan key) = some s') :
    s' = s ∨ ∃ de, s.maps.disc key = some de ∧ s.maps.promotes cfg de = true ∧
      s' = System.mark { s with maps := s.maps.trackPid de.pid de.comm }
        (s.ownName key de) de.pid := by
  simp only [System.step] at h
  split at h
  · cases h
    exact Or.inl rfl
  · rename_i de hde
    cases h
    obtain ⟨hsome, hprom⟩ := Option.filter_eq_some_iff.mp hde
    exact Or.inr ⟨de, hsome, hprom, rfl⟩

/-! ## Every descendant is tracked -/

/-- A thread that forks has an entry of its own whenever its process has
one. -/
def System.ForksEnrolled (s : System) : TrackAct → Prop
  | .fork t g _ _ => s.maps.isTracked g = true → s.maps.isTracked t = true
  | _ => True

/-- Whoever is due is tracked, and the exec records that wait are of tracked
processes. -/
structure System.Complete (s : System) : Prop where
  due : ∀ p ∈ s.threads, s.due p.2 = true → s.maps.isTracked p.2 = true
  records : ∀ e ∈ s.maps.events, s.maps.isTracked e.pid = true

theorem System.Complete.start (b : Boot) : (System.start b).Complete where
  due _ _ h := nomatch h
  records _ h := nomatch h

theorem isTracked_consume {m : Maps} (h : ∀ e ∈ m.events, m.isTracked e.pid = true) (x : UInt32) :
    (m.consume cfg).isTracked x = m.isTracked x := by
  unfold Maps.consume
  cases hev : m.events with
  | nil => rfl
  | cons e rest =>
    have he := h e (by rw [hev]; simp)
    simp only
    split
    · rw [isTracked_trackPid]
      by_cases hx : x = e.pid
      · subst hx
        simp [he]
      · simp [hx, Maps.isTracked]
    · rfl

theorem events_consume (m : Maps) : ∀ e ∈ (m.consume cfg).events, e ∈ m.events := by
  intro e he
  unfold Maps.consume at he
  cases hev : m.events with
  | nil =>
    rw [hev] at he
    simp only at he
    rwa [hev] at he
  | cons e' rest =>
    rw [hev] at he
    simp only at he
    split at he
    · exact List.mem_cons_of_mem _ he
    · exact List.mem_cons_of_mem _ he

theorem events_handleFork (m : Maps) (env : TaskEnv) (t c : UInt32) :
    (m.handleFork env t c).events = m.events := by
  unfold Maps.handleFork
  split <;> rfl

theorem events_autoTrackPid (m : Maps) (env : TaskEnv) (pid : UInt32) :
    (m.autoTrackPid env pid).events = m.events := by
  unfold Maps.autoTrackPid
  split <;> rfl

theorem events_handleExec (m : Maps) (env : TaskEnv) (pid : UInt32) (file : List UInt8) :
    ∀ e ∈ (m.handleExec cfg env pid file).events,
      e ∈ m.events ∨ (e.pid = pid ∧ (m.handleExec cfg env pid file).isTracked pid = true) := by
  intro e he
  unfold Maps.handleExec at he ⊢
  simp only at he ⊢
  have hold : ∀ (n : Maps), n.events = m.events → e ∈ n.events → e ∈ m.events :=
    fun n hn h => hn ▸ h
  generalize hn : (if (!(m.modify pid (ProcInfo.execed env file)).isTracked pid &&
    execMatches cfg env file) = true then (m.modify pid (ProcInfo.execed env file)).autoTrackPid env pid
    else m.modify pid (ProcInfo.execed env file)) = n at he ⊢
  have hne : n.events = m.events := by
    rw [← hn]
    split
    · rw [events_autoTrackPid]
      rfl
    · rfl
  split at he
  · rename_i ht
    rcases List.mem_append.mp he with he | he
    · exact Or.inl (hold n hne he)
    · rw [List.mem_singleton.mp he]
      refine Or.inr ⟨rfl, ?_⟩
      rw [if_pos ht]
      exact ht
  · exact Or.inl (hold n hne he)

theorem events_sysEnter (m : Maps) (env : TaskEnv) (pid tid : UInt32) (leaderComm : List UInt8)
    (name : Option (List UInt8)) :
    (m.sysEnter cfg env pid tid leaderComm name).events = m.events := by
  have hd : ∀ n : Maps, (n.discover cfg env pid leaderComm).events = n.events := by
    intro n
    unfold Maps.discover
    split
    · rfl
    · simp only
      split
      · exact events_autoTrackPid _ _ _
      · rfl
  have hr : ∀ (n : Maps) name, (n.rename cfg env pid tid name).events = n.events := by
    intro n name
    unfold Maps.rename
    split
    · simp only
      split
      · rfl
      split
      · exact events_autoTrackPid _ _ _
      · rfl
    · rfl
  unfold Maps.sysEnter
  cases name with
  | none => exact hd m
  | some name => exact (hr _ name).trans (hd m)

/-- The exec records stay those of tracked processes when the tracked set
grows and no record is added. -/
theorem System.Complete.records_mono (h : s.Complete) {m : Maps}
    (hgrow : ∀ x, s.maps.isTracked x = true → m.isTracked x = true)
    (hev : ∀ e ∈ m.events, e ∈ s.maps.events) : ∀ e ∈ m.events, m.isTracked e.pid = true :=
  fun e he => hgrow e.pid (h.records e (hev e he))

theorem handleFork_grow (m : Maps) (env : TaskEnv) (t c : UInt32) :
    ∀ x, m.isTracked x = true → (m.handleFork env t c).isTracked x = true := by
  intro x hx
  rw [isTracked_handleFork, hx, Bool.or_true]

theorem System.Complete.step (h : s.Complete) (hok : s.ForksEnrolled a)
    (hstep : s.step cfg a = some s') : s'.Complete := by
  cases a with
  | clone t g c env =>
    obtain ⟨htg, -, rfl⟩ := System.step_clone hstep
    have hgrow := handleFork_grow s.maps env t c
    refine ⟨fun p hp hd => ?_, h.records_mono hgrow (by simp [events_handleFork])⟩
    rcases List.mem_cons.mp hp with rfl | hp
    · exact hgrow g (h.due (t, g) htg hd)
    · exact hgrow _ (h.due p hp hd)
  | fork t g c env =>
    obtain ⟨htg, hfresh, rfl⟩ := System.step_fork hstep
    have hgrow := handleFork_grow s.maps env t c
    refine ⟨fun p hp hd => ?_, h.records_mono hgrow (by simp [events_handleFork])⟩
    rcases List.mem_cons.mp hp with rfl | hp
    · simp only [Function.update_self, Bool.or_eq_true] at hd
      have hg : s.maps.isTracked g = true := by
        rcases hd with hd | hd
        · exact h.due (t, g) htg hd
        · exact hd
      simp [isTracked_handleFork, hok hg]
    · simp only [Function.update_of_ne (hfresh p hp).2] at hd
      exact hgrow _ (h.due p hp hd)
  | exec t g file env =>
    obtain ⟨htg, rfl⟩ := System.step_exec hstep
    have hgrow : ∀ x, s.maps.isTracked x = true →
        (s.maps.handleExec cfg env g file).isTracked x = true := by
      intro x hx
      simp [isTracked_handleExec, hx]
    refine ⟨fun p hp hd => ?_, fun e he => ?_⟩
    · have hp2 : p = (g, g) ∨ p ∈ s.threads := by
        rcases List.mem_cons.mp hp with hp | hp
        · exact Or.inl hp
        · exact Or.inr (List.mem_filter.mp hp).1
      simp only [System.mark] at hd ⊢
      split at hd
      · rename_i hm
        by_cases hpg : p.2 = g
        · rw [hpg]
          rw [Bool.and_eq_true] at hm
          simp [isTracked_handleExec, hm.2]
        · rw [Function.update_of_ne hpg] at hd
          rcases hp2 with rfl | hp2
          · exact absurd rfl hpg
          · exact hgrow _ (h.due p hp2 hd)
      · rcases hp2 with rfl | hp2
        · exact hgrow g (h.due (t, g) htg hd)
        · exact hgrow _ (h.due p hp2 hd)
    · rcases events_handleExec s.maps env g file e he with he | ⟨hpid, ht⟩
      · exact hgrow _ (h.records e he)
      · rw [hpid]
        exact ht
  | sysEnter t g leaderComm name env =>
    obtain ⟨-, discInst, rfl⟩ := System.step_sysEnter hstep
    have hgrow : ∀ x, s.maps.isTracked x = true →
        (s.maps.sysEnter cfg env g t leaderComm name).isTracked x = true := by
      intro x hx
      simp [isTracked_sysEnter, hx]
    refine ⟨fun p hp hd => ?_, h.records_mono hgrow (by simp [System.mark, events_sysEnter])⟩
    simp only [System.mark] at hd ⊢
    split at hd
    · rename_i hm
      by_cases hpg : p.2 = g
      · rw [hpg, isTracked_sysEnter]
        simp [hm]
      · rw [Function.update_of_ne hpg] at hd
        exact hgrow _ (h.due p hp hd)
    · exact hgrow _ (h.due p hp hd)
  | exit t g code env =>
    obtain rfl := System.step_exit hstep
    have hsame : ∀ x, (s.maps.handleExit env t code).isTracked x = s.maps.isTracked x :=
      fun x => isTracked_handleExit s.maps env t x code
    refine ⟨fun p hp hd => ?_, h.records_mono (fun x hx => (hsame x).trans hx) (fun e he => he)⟩
    exact (hsame p.2).trans (h.due p (List.mem_filter.mp hp).1 hd)
  | rescan key =>
    rcases System.step_rescan hstep with rfl | ⟨de, -, -, rfl⟩
    · exact h
    · have hgrow : ∀ x, s.maps.isTracked x = true →
          (s.maps.trackPid de.pid de.comm).isTracked x = true := by
        intro x hx
        simp [isTracked_trackPid, hx]
      refine ⟨fun p hp hd => ?_, h.records_mono hgrow (fun e he => he)⟩
      simp only [System.mark] at hd ⊢
      split at hd
      · by_cases hpg : p.2 = de.pid
        · rw [hpg]
          simp [isTracked_trackPid]
        · rw [Function.update_of_ne hpg] at hd
          exact hgrow _ (h.due p hp hd)
      · exact hgrow _ (h.due p hp hd)
  | consume =>
    cases hstep
    have hsame : ∀ x, (s.maps.consume cfg).isTracked x = s.maps.isTracked x :=
      fun x => isTracked_consume h.records x
    exact ⟨fun p hp hd => (hsame p.2).trans (h.due p hp hd),
      fun e he => (hsame e.pid).trans (h.records e (events_consume s.maps e he))⟩

/-- In a run whose forks are all made by threads with an entry of their own,
or by processes that are not tracked, every live process that matched the
pattern is tracked, and every one forked by a process that was due or tracked
then, and so every descendant of a match. -/
theorem tracked_descendants {b : Boot} {as : List TrackAct}
    (hok : Meets (System.step cfg) System.ForksEnrolled (.start b) as)
    (h : run (System.step cfg) (.start b) as = some s) :
    ∀ p ∈ s.threads, s.due p.2 = true → s.maps.isTracked p.2 = true :=
  (run_keeps (fun _ _ _ hI ho hs => System.Complete.step hI ho hs) hok h (.start b)).due

def workerBoot : Boot where
  threads := [(10, 10), (11, 10)]
  ids := by simp

/-- The tracer looks for a process named `g`. -/
def nameConfig : TraceConfig where
  pattern := [0x67]
  matchesAny := fun s => s == [0x67]
  excluded _ := false

def plainEnv : TaskEnv where
  now := 1
  comm := [0x61]

/-- The main thread renames itself to `g`. -/
def renameMain : TrackAct := .sysEnter 10 10 [0x61] (some [0x67]) plainEnv

theorem tracked_descendants_main :
    ∃ s, run (System.step nameConfig) (.start workerBoot)
        [renameMain, .fork 10 10 12 plainEnv] = some s ∧
      ∀ p ∈ s.threads, s.due p.2 = true → s.maps.isTracked p.2 = true := by
  have hok : Meets (System.step nameConfig) System.ForksEnrolled (.start workerBoot)
      [renameMain, .fork 10 10 12 plainEnv] :=
    meets_cons trivial rfl (meets_cons (fun h => h) rfl meets_nil)
  exact ⟨_, rfl, tracked_descendants hok rfl⟩

/-- A worker thread older than the match forks, and the child is not
tracked. -/
theorem tracked_descendants_worker :
    ¬ ∀ (cfg : TraceConfig) (b : Boot) (s : System) (as : List TrackAct),
      run (System.step cfg) (.start b) as = some s →
      ∀ p ∈ s.threads, s.due p.2 = true → s.maps.isTracked p.2 = true := by
  intro h
  have hrun : ∃ s, run (System.step nameConfig) (.start workerBoot)
      [renameMain, .fork 11 10 12 plainEnv] = some s ∧
      ((12, 12) ∈ s.threads ∧ s.due 12 = true ∧ s.maps.isTracked 12 = false) :=
    ⟨_, rfl, by decide +kernel⟩
  obtain ⟨s, hs, hmem, hdue, hlost⟩ := hrun
  have htracked := h nameConfig workerBoot s _ hs (12, 12) hmem hdue
  rw [hlost] at htracked
  cases htracked

/-! ## Every tracked process has the right -/

/-- A new id is written by the fork or free in the map, and userspace
promotes no id for a name that an earlier process left behind. -/
def System.IdsFree (cfg : TraceConfig) (s : System) : TrackAct → Prop
  | .clone t _ c _ => s.maps.isTracked c = true → s.maps.isTracked t = true
  | .fork t _ c _ => s.maps.isTracked c = true → s.maps.isTracked t = true
  | .rescan key => ∀ de, s.maps.disc key = some de → s.maps.promotes cfg de = true →
      ∀ p ∈ s.threads, p.1 = de.pid ∨ p.2 = de.pid → p.2 = de.pid ∧ s.ownName key de = true
  | _ => True

/-- An id that names a process is the id of no thread of another one; a live
thread whose own id or whose process is in the map is of a process with the
right. -/
structure System.Sound (s : System) : Prop where
  ids : ∀ p ∈ s.threads, ∀ q ∈ s.threads, p.1 = q.2 → p.2 = q.2
  legit : ∀ p ∈ s.threads, s.maps.isTracked p.1 = true ∨ s.maps.isTracked p.2 = true →
    s.Legit p.2
  records : ∀ e ∈ s.maps.events, s.maps.isTracked e.pid = true

theorem System.Sound.start (b : Boot) : (System.start b).Sound where
  ids := b.ids
  legit _ _ h := by
    rcases h with h | h
    · cases h
    · cases h
  records _ h := nomatch h

theorem System.Sound.matched (h : s.Sound) {g : UInt32} {b : Bool} {m : Maps}
    {threads : List (UInt32 × UInt32)} {discInst : UInt32 → Nat}
    (hids : ∀ p ∈ threads, ∀ q ∈ threads, p.1 = q.2 → p.2 = q.2)
    (hthreads : ∀ p ∈ threads, p ∈ s.threads ∨ (p = (g, g) ∧ ∃ t, (t, g) ∈ s.threads))
    (hown : ∀ p ∈ threads, p.1 = g → p.2 = g)
    (htracked : ∀ x, m.isTracked x = (decide (x = g) && b || s.maps.isTracked x))
    (hrecords : ∀ e ∈ m.events, m.isTracked e.pid = true) :
    (System.mark { s with maps := m, threads, discInst } b g).Sound := by
  refine ⟨hids, fun p hp ht => ?_, hrecords⟩
  have hmono : ∀ {x}, s.Legit x →
      (System.mark { s with maps := m, threads, discInst } b g).Legit x := by
    intro x hl
    refine Legit.mono (fun j hj => ?_) (fun _ hf => hf) hl
    simp only [System.mark]
    split
    · by_cases hij : j = s.inst g
      · subst hij
        simp
      · simp [hij, hj]
    · exact hj
  have hcase : (p.2 = g ∧ b = true) ∨ s.maps.isTracked p.1 = true ∨ s.maps.isTracked p.2 = true := by
    simp only [System.mark, htracked, Bool.or_eq_true, Bool.and_eq_true, decide_eq_true_eq] at ht
    rcases ht with (⟨hx, hb⟩ | hx) | (⟨hx, hb⟩ | hx)
    · exact Or.inl ⟨hown p hp hx, hb⟩
    · exact Or.inr (Or.inl hx)
    · exact Or.inl ⟨hx, hb⟩
    · exact Or.inr (Or.inr hx)
  rcases hcase with ⟨hg, hb⟩ | hold
  · refine .matched ?_
    rw [hg, hb]
    simp [System.mark]
  · refine hmono ?_
    rcases hthreads p hp with hp | ⟨rfl, t, ht'⟩
    · exact h.legit p hp hold
    · have hg : s.maps.isTracked g = true := by
        rcases hold with hold | hold
        · exact hold
        · exact hold
      exact h.legit (t, g) ht' (Or.inr hg)

/-- A new thread `c` of process `g'`: the old process `g` of thread `t`, or a
new one of its own. -/
theorem System.Sound.forked (h : s.Sound) {t g c g' : UInt32} (ht : (t, g) ∈ s.threads)
    (hfresh : ∀ p ∈ s.threads, p.1 ≠ c ∧ p.2 ≠ c) (hok : s.maps.isTracked c = true → s.maps.isTracked t = true)
    {env : TaskEnv} {s' : System} (hmaps : s'.maps = s.maps.handleFork env t c)
    (hthreads : s'.threads = (c, g') :: s.threads)
    (hids : ∀ p ∈ s'.threads, ∀ q ∈ s'.threads, p.1 = q.2 → p.2 = q.2)
    (hold : ∀ p ∈ s.threads, s.Legit p.2 → s'.Legit p.2) (hnew : s.Legit g → s'.Legit g')
    (hg' : g' = g ∨ g' = c) : s'.Sound := by
  have htracked : ∀ x, s'.maps.isTracked x
      = (decide (x = c) && s.maps.isTracked t || s.maps.isTracked x) := by
    intro x
    rw [hmaps]
    exact isTracked_handleFork s.maps env t c x
  refine ⟨hids, fun p hp hx => ?_, fun e he => ?_⟩
  · rw [hthreads] at hp
    rcases List.mem_cons.mp hp with rfl | hp
    · refine hnew (h.legit (t, g) ht ?_)
      have hcc : s'.maps.isTracked c = true → s.maps.isTracked t = true := by
        intro hcx
        rw [htracked, Bool.or_eq_true, Bool.and_eq_true] at hcx
        rcases hcx with hcx | hcx
        · exact hcx.2
        · exact hok hcx
      rcases hx with hx | hx
      · exact Or.inl (hcc hx)
      · rcases hg' with rfl | rfl
        · by_cases hgc : g' = c
          · subst hgc
            exact Or.inl (hcc hx)
          · rw [htracked] at hx
            simp only [hgc, decide_false, Bool.false_and, Bool.false_or] at hx
            exact Or.inr hx
        · exact Or.inl (hcc hx)
    · obtain ⟨hne1, hne2⟩ := hfresh p hp
      refine hold p hp (h.legit p hp ?_)
      rw [htracked, htracked] at hx
      simpa [hne1, hne2] using hx
  · rw [hmaps, events_handleFork] at he
    rw [htracked, h.records e he, Bool.or_true]

/-- A thread with the fresh id `c` breaks no id, in process `c` itself or in a
process whose own id is not `c`. -/
theorem System.Sound.ids_cons (h : s.Sound) {c g : UInt32}
    (hfresh : ∀ p ∈ s.threads, p.1 ≠ c ∧ p.2 ≠ c)
    (hg : g = c ∨ ∃ t, (t, g) ∈ s.threads) :
    ∀ p ∈ (c, g) :: s.threads, ∀ q ∈ (c, g) :: s.threads, p.1 = q.2 → p.2 = q.2 := by
  intro p hp q hq hpq
  rcases List.mem_cons.mp hp with rfl | hp'
  · rcases List.mem_cons.mp hq with rfl | hq'
    · rfl
    · exact absurd hpq.symm (hfresh q hq').2
  · rcases List.mem_cons.mp hq with rfl | hq'
    · rcases hg with rfl | ⟨t, htg⟩
      · exact absurd hpq (hfresh p hp').1
      · exact h.ids p hp' (t, g) htg hpq
    · exact h.ids p hp' q hq' hpq

theorem System.Sound.step (h : s.Sound) (hok : s.IdsFree cfg a)
    (hstep : s.step cfg a = some s') : s'.Sound := by
  cases a with
  | clone t g c env =>
    obtain ⟨htg, hfresh, rfl⟩ := System.step_clone hstep
    exact h.forked htg hfresh hok rfl rfl (h.ids_cons hfresh (Or.inr ⟨t, htg⟩))
      (fun _ _ hl => hl) (fun hl => hl) (Or.inl rfl)
  | fork t g c env =>
    obtain ⟨htg, hfresh, rfl⟩ := System.step_fork hstep
    have hmore : ∀ {i}, Trace.Legit s.isMatch s.forks i →
        Trace.Legit s.isMatch ((s.next, s.inst g) :: s.forks) i :=
      fun hl => Legit.mono (fun _ hi => hi) (fun _ hf => List.mem_cons_of_mem _ hf) hl
    refine h.forked htg hfresh hok rfl rfl (h.ids_cons hfresh (Or.inl rfl)) (fun p hp hl => ?_)
      (fun hl => ?_) (Or.inr rfl)
    · unfold System.Legit
      simp only [Function.update_of_ne (hfresh p hp).2]
      exact hmore hl
    · unfold System.Legit
      simp only [Function.update_self]
      exact .forked (List.mem_cons_self ..) (hmore hl)
  | exec t g file env =>
    obtain ⟨htg, rfl⟩ := System.step_exec hstep
    have hfilter : ∀ p ∈ s.threads.filter (fun p => p.2 != g), p ∈ s.threads ∧ p.2 ≠ g := by
      intro p hp
      simpa using List.mem_filter.mp hp
    refine h.matched (fun p hp q hq hpq => ?_) (fun p hp => ?_) (fun p hp hpg => ?_) (fun x => ?_)
      (fun e he => ?_)
    · rcases List.mem_cons.mp hp with rfl | hp
      · rcases List.mem_cons.mp hq with rfl | hq
        · rfl
        · exact absurd hpq.symm (hfilter q hq).2
      · rcases List.mem_cons.mp hq with rfl | hq
        · exact h.ids p (hfilter p hp).1 (t, g) htg hpq
        · exact h.ids p (hfilter p hp).1 q (hfilter q hq).1 hpq
    · rcases List.mem_cons.mp hp with rfl | hp
      · exact Or.inr ⟨rfl, t, htg⟩
      · exact Or.inl (hfilter p hp).1
    · rcases List.mem_cons.mp hp with rfl | hp
      · rfl
      · exact h.ids p (hfilter p hp).1 (t, g) htg hpg
    · rw [isTracked_handleExec]
      by_cases hx : x = g
      · subst hx
        cases s.maps.isTracked x <;> simp
      · simp [hx]
    · rcases events_handleExec s.maps env g file e he with he | ⟨hpid, ht⟩
      · rw [isTracked_handleExec, h.records e he, Bool.or_true]
      · rw [hpid]
        exact ht
  | sysEnter t g leaderComm name env =>
    obtain ⟨htg, discInst, rfl⟩ := System.step_sysEnter hstep
    refine h.matched h.ids (fun p hp => Or.inl hp) (fun p hp hpg => h.ids p hp (t, g) htg hpg)
      (fun x => isTracked_sysEnter cfg s.maps env g t x leaderComm name) (fun e he => ?_)
    rw [events_sysEnter] at he
    rw [isTracked_sysEnter, h.records e he, Bool.or_true]
  | exit t g code env =>
    obtain rfl := System.step_exit hstep
    have hsame : ∀ x, (s.maps.handleExit env t code).isTracked x = s.maps.isTracked x :=
      fun x => isTracked_handleExit s.maps env t x code
    have hmem : ∀ p ∈ s.threads.filter (fun p => p != (t, g)), p ∈ s.threads :=
      fun p hp => (List.mem_filter.mp hp).1
    refine ⟨fun p hp q hq => h.ids p (hmem p hp) q (hmem q hq), fun p hp hx => ?_, fun e he => ?_⟩
    · simp only [hsame] at hx
      exact h.legit p (hmem p hp) hx
    · exact (hsame e.pid).trans (h.records e he)
  | rescan key =>
    rcases System.step_rescan hstep with rfl | ⟨de, hsome, hprom, rfl⟩
    · exact h
    have hcond := hok de hsome hprom
    have hrecords : ∀ e ∈ (s.maps.trackPid de.pid de.comm).events,
        (s.maps.trackPid de.pid de.comm).isTracked e.pid = true := by
      intro e he
      rw [isTracked_trackPid, h.records e he, Bool.or_true]
    cases hown : s.ownName key de with
    | true =>
      refine h.matched h.ids (fun p hp => Or.inl hp) (fun p hp hpg => (hcond p hp (Or.inl hpg)).1)
        (fun x => ?_) hrecords
      rw [isTracked_trackPid, Bool.and_true]
    | false =>
      -- nobody alive has the id, and so nobody is asked about it
      have hnone : ∀ p ∈ s.threads, p.1 ≠ de.pid ∧ p.2 ≠ de.pid := by
        intro p hp
        constructor
        · intro hp1
          have := (hcond p hp (Or.inl hp1)).2
          rw [hown] at this
          cases this
        · intro hp2
          have := (hcond p hp (Or.inr hp2)).2
          rw [hown] at this
          cases this
      refine ⟨h.ids, fun p hp hx => ?_, hrecords⟩
      simp only [System.mark, isTracked_trackPid, (hnone p hp).1, (hnone p hp).2, decide_false,
        Bool.false_or] at hx
      exact h.legit p hp hx
  | consume =>
    cases hstep
    have hsame : ∀ x, (s.maps.consume cfg).isTracked x = s.maps.isTracked x :=
      fun x => isTracked_consume h.records x
    refine ⟨h.ids, fun p hp hx => ?_, fun e he => ?_⟩
    · simp only [hsame] at hx
      exact h.legit p hp hx
    · exact (hsame e.pid).trans (h.records e (events_consume s.maps e he))

/-- In a run whose new ids are written by the fork or free in the map, and in
which no name of an earlier process promotes an id, every live process that
is tracked has the right to be. -/
theorem tracked_legit {b : Boot} {as : List TrackAct}
    (hok : Meets (System.step cfg) (System.IdsFree cfg) (.start b) as)
    (h : run (System.step cfg) (.start b) as = some s) :
    ∀ p ∈ s.threads, s.maps.isTracked p.2 = true → s.Legit p.2 :=
  fun p hp ht => (run_keeps (fun _ _ _ hI ho hs => System.Sound.step hI ho hs) hok h
    (.start b)).legit p hp (Or.inr ht)

theorem tracked_legit_main :
    ∃ s, run (System.step nameConfig) (.start workerBoot)
        [renameMain, .fork 10 10 12 plainEnv, .exit 12 12 0 plainEnv] = some s ∧
      ∀ p ∈ s.threads, s.maps.isTracked p.2 = true → s.Legit p.2 := by
  have hok : Meets (System.step nameConfig) (System.IdsFree nameConfig) (.start workerBoot)
      [renameMain, .fork 10 10 12 plainEnv, .exit 12 12 0 plainEnv] := by
    refine meets_cons trivial rfl (meets_cons (fun h => ?_) rfl (meets_cons trivial rfl meets_nil))
    revert h
    decide +kernel
  exact ⟨_, rfl, tracked_legit hok rfl⟩

/-- Processes outside a set that holds no match and, with a child, the
parent. -/
theorem Legit.not_mem {isMatch : Nat → Bool} {forks : List (Nat × Nat)} {c : List Nat}
    (hm : ∀ i ∈ c, isMatch i = false) (hf : ∀ p ∈ forks, p.1 ∈ c → p.2 ∈ c) {i : Nat}
    (h : Legit isMatch forks i) : i ∉ c := by
  induction h with
  | matched h =>
    intro hi
    rw [hm _ hi] at h
    cases h
  | forked h _ ih => exact fun hi => ih (hf _ h hi)

def twoBoot : Boot where
  threads := [(1, 1), (10, 10)]
  ids := by simp

/-- Process 10 matches and exits; a child of process 1 gets the id, and is
tracked from the start. -/
theorem tracked_legit_reused :
    ¬ ∀ (cfg : TraceConfig) (b : Boot) (s : System) (as : List TrackAct),
      run (System.step cfg) (.start b) as = some s →
      ∀ p ∈ s.threads, s.maps.isTracked p.2 = true → s.Legit p.2 := by
  intro h
  have hrun : ∃ s, run (System.step nameConfig) (.start twoBoot)
      [renameMain, .exit 10 10 0 plainEnv, .fork 1 1 10 plainEnv] = some s ∧
      ((10, 10) ∈ s.threads ∧ s.maps.isTracked 10 = true ∧ s.inst 10 = 2 ^ 32 ∧
        s.forks = [(2 ^ 32, 1)] ∧ s.isMatch (2 ^ 32) = false ∧ s.isMatch 1 = false) :=
    ⟨_, rfl, by decide +kernel⟩
  obtain ⟨s, hs, hmem, ht, hinst, hforks, hnew, hold⟩ := hrun
  have hlegit := h nameConfig twoBoot s _ hs (10, 10) hmem ht
  unfold System.Legit at hlegit
  simp only [hinst] at hlegit
  refine hlegit.not_mem (c := [2 ^ 32, 1]) ?_ ?_ (by simp)
  · intro i hi
    rcases List.mem_cons.mp hi with rfl | hi
    · exact hnew
    · rw [List.mem_singleton.mp hi]
      exact hold
  · rw [hforks]
    decide

end

end Montauk.Trace
