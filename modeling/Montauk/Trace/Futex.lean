import Montauk.Machine.Run
import Montauk.Trace.Ntsync

/-!
# Futex records

The tracer records a futex call when it enters, in a generic IO event whose
slots are reused: the operation stands for the descriptor, the expected value
for the result, the address for the byte count. Nothing is recorded when the
call leaves. The analyzer reads every such event with a waiting operation as
a completed wait, and its result slot as the wait's result.

So it sees a wait as soon as it is entered, with the value the caller
expected to find for its result; the two sides agree on a run exactly if each
call taken for a wait has returned, and returned that value
(`futex_agrees_iff`).
-/

namespace Montauk.Trace

open Machine

/-! ## The tracer's side -/

/-- `struct montauk_io_event`. -/
structure IoEvent where
  pid : UInt32
  tid : UInt32
  syscallNr : Int32
  fd : Int32
  result : Int64
  count : UInt64
  whence : UInt32
  comm : List UInt8
  timestampNs : UInt64
  durationNs : UInt64

/-- What a handler sees of the machine when it runs. -/
structure IoEnv where
  mem : UserMem
  now : UInt64
  comm : List UInt8

/-- `emit_io_event` and `emit_io_event_dur`, with no offset kind. -/
def emitIoEvent (env : IoEnv) (pid tid : UInt32) (syscallNr fd : Int32) (result : Int64)
    (count durationNs : UInt64) : IoEvent where
  pid
  tid
  syscallNr
  fd
  result
  count
  whence := 0
  comm := env.comm
  timestampNs := env.now
  durationNs

/-- What of a `thread_map` entry the IO events use. -/
structure ThreadIo where
  syscallNr : Int32
  syscallArg1 : UInt64
  ioEnterNs : UInt64

/-- The descriptor an I/O wait is on, or `none` if the call is no such wait. -/
def ioWaitFd (mem : UserMem) (sc : Syscall) : Option Int32 :=
  if sc.id ∈ [232, 281, 47, 45] then some sc.arg0.toUInt32.toInt32
  else if sc.id ∈ [7, 271] then
    some (if 0 < sc.arg1 then ((probeRead mem 1 sc.arg0).getD 0 0).toInt32 else -1)
  else if sc.id ∈ [23, 270] then some (-1)
  else if sc.id = 16 then
    if isNtsyncIoctl sc.arg1.toUInt32 then none else some sc.arg0.toUInt32.toInt32
  else none

/-- The IO events of `handle_sys_enter`: the record of a futex call, and the
pending marker of an I/O wait. -/
def sysEnterIo (env : IoEnv) (pid tid : UInt32) (sc : Syscall) : List IoEvent :=
  (if sc.id = 202 then
    [emitIoEvent env pid tid 202 sc.arg1.toUInt32.toInt32 sc.arg2.toInt64 sc.arg0 0]
  else []) ++
  ((ioWaitFd env.mem sc).map fun fd =>
    emitIoEvent env pid tid (Int32.ofNat sc.id) fd (-999) 0 0).toList

/-- The thread's entry behind `handle_sys_enter`; a thread without one gets
one. -/
def sysEnterEntry (env : IoEnv) (sc : Syscall) (entry : Option ThreadIo) : ThreadIo where
  syscallNr := Int32.ofNat sc.id
  syscallArg1 := sc.arg1
  ioEnterNs :=
    if (ioWaitFd env.mem sc).isSome && entry.isSome then env.now
    else (entry.map ThreadIo.ioEnterNs).getD 0

/-- The calls whose completion `handle_sys_exit` records. -/
def ThreadIo.completes (ts : ThreadIo) : Bool :=
  [7, 271, 232, 281, 47, 45, 23, 270].contains ts.syscallNr ||
    (ts.syscallNr == 16 && !isNtsyncIoctl ts.syscallArg1.toUInt32)

/-- The IO events of `handle_sys_exit`. -/
def sysExitIo (env : IoEnv) (pid tid : UInt32) (ret : Int64) (entry : Option ThreadIo) :
    List IoEvent :=
  (entry.filter ThreadIo.completes).toList.map fun ts =>
    let dur := if ts.ioEnterNs != 0 && ts.ioEnterNs < env.now then env.now - ts.ioEnterNs else 0
    emitIoEvent env pid tid ts.syscallNr (-1) ret 0 dur

/-- The entry behind `handle_sys_exit`: the thread is out of its call. -/
def sysExitEntry (entry : Option ThreadIo) : Option ThreadIo :=
  entry.map fun ts =>
    { ts with
      syscallNr := -1
      ioEnterNs := if ts.completes then 0 else ts.ioEnterNs }

/-! ## The analyzer's side -/

/-- A record of the trace, as far as `sync_wait` looks at it. -/
inductive TraceEvent where
  | io (e : IoEvent)
  | ntsync (e : NtsyncEvent)

/-- `struct SyncWait`. -/
structure SyncWait where
  tid : UInt32
  pid : UInt32
  obj : UInt64
  ts : UInt64
  result : Int64
  isFutex : Bool

def futexIsWait (opb : UInt32) : Bool := opb == 0 || opb == 9 || opb == 6 || opb == 11

def syncWait : TraceEvent → Option SyncWait
  | .ntsync e =>
      if !e.op.isWait || e.result == -999 then none
      else some
        { tid := e.tid, pid := e.pid, obj := e.fd.toUInt32.toUInt64, ts := e.timestampNs,
          result := e.result, isFutex := false }
  | .io e =>
      if e.syscallNr != 202 then none
      else if !futexIsWait (e.fd.toUInt32 &&& 0x7f) then none
      else some
        { tid := e.tid, pid := e.pid, obj := e.count, ts := e.timestampNs, result := e.result,
          isFutex := true }

def syncWaits (trace : List TraceEvent) : List SyncWait := trace.filterMap syncWait

/-! ## Threads and their calls -/

structure SysReturn where
  tid : UInt32
  sys : Syscall
  ret : Int64

structure FutexState where
  entry : UInt32 → Option ThreadIo
  inFlight : UInt32 → Option Syscall
  trace : List TraceEvent
  returned : List SysReturn

def FutexState.start : FutexState where
  entry _ := none
  inFlight _ := none
  trace := []
  returned := []

inductive FutexAct where
  | enter (tid : UInt32) (env : IoEnv) (sys : Syscall)
  | exit (tid : UInt32) (env : IoEnv) (ret : Int64)

/-- A tracked thread enters a syscall or leaves the one it is in; its records
reach the trace. -/
def FutexState.step (P : Procs) (s : FutexState) : FutexAct → Option FutexState
  | .enter tid env sys =>
      if P.tracked (P.pid tid) && (s.inFlight tid).isNone then
        some { s with
          entry := Function.update s.entry tid (some (sysEnterEntry env sys (s.entry tid)))
          inFlight := Function.update s.inFlight tid (some sys)
          trace := s.trace ++ (sysEnterIo env (P.pid tid) tid sys).map .io }
      else none
  | .exit tid env ret =>
      if P.tracked (P.pid tid) then do
        let sys ← s.inFlight tid
        some { s with
          entry := Function.update s.entry tid (sysExitEntry (s.entry tid))
          inFlight := Function.update s.inFlight tid none
          trace := s.trace ++ (sysExitIo env (P.pid tid) tid ret (s.entry tid)).map .io
          returned := s.returned ++ [{ tid, sys, ret }] }
      else none

/-- A futex call that waits: its operation without the private and the clock
flag. -/
def Syscall.isFutexWait (sc : Syscall) : Bool :=
  sc.id == 202 && futexIsWait (sc.arg1.toUInt32 &&& ~~~0x180)

/-- A call whose record the analyzer takes for a wait. -/
def Syscall.looksLikeWait (sc : Syscall) : Bool :=
  sc.id == 202 && futexIsWait (sc.arg1.toUInt32 &&& 0x7f)

/-- What a wait is about, and how it ended. -/
abbrev WaitFacts := UInt32 × UInt64 × Int64 × Bool

def SyncWait.facts (w : SyncWait) : WaitFacts := (w.pid, w.obj, w.result, w.isFutex)

/-- The completed wait a returned call stands for. -/
def SysReturn.facts (P : Procs) (r : SysReturn) : WaitFacts :=
  (P.pid r.tid, r.sys.arg0, r.ret, true)

/-- For each thread the analyzer recognises its waiting calls that returned,
in order, each with its return value, and no other. -/
def FutexState.Agrees (P : Procs) (s : FutexState) : Prop :=
  ∀ tid, ((syncWaits s.trace).filter fun w => w.tid == tid).map SyncWait.facts
    = (s.returned.filter fun r => r.tid == tid && r.sys.isFutexWait).map (SysReturn.facts P)

/-- Every call that is taken for a wait is one, has returned, and returned the
value the caller expected at the address. -/
structure FutexState.ReturnsExpected (s : FutexState) : Prop where
  returned : ∀ r ∈ s.returned, r.sys.looksLikeWait = true →
    r.sys.isFutexWait = true ∧ r.sys.arg2.toInt64 = r.ret
  pending : ∀ tid c, s.inFlight tid = some c → c.looksLikeWait = false

/-! ## What is recognised -/

theorem looksLikeWait_of_isFutexWait {sc : Syscall} (h : sc.isFutexWait = true) :
    sc.looksLikeWait = true := by
  unfold Syscall.isFutexWait Syscall.looksLikeWait at *
  rw [Bool.and_eq_true] at h ⊢
  refine ⟨h.1, ?_⟩
  have hmask : ∀ x : UInt32, x &&& 0x7f = x &&& ~~~0x180 &&& 0x7f := by
    intro x
    rw [UInt32.and_assoc]
    rfl
  have hlow : ∀ c : UInt32, futexIsWait c = true → futexIsWait (c &&& 0x7f) = true := by
    intro c hc
    unfold futexIsWait at hc
    simp only [Bool.or_eq_true, beq_iff_eq] at hc
    rcases hc with ((rfl | rfl) | rfl) | rfl <;> decide
  rw [hmask]
  exact hlow _ h.2

/-- What the analyzer sees of a call from its entry. -/
def Syscall.seen (P : Procs) (tid : UInt32) (sc : Syscall) : WaitFacts :=
  (P.pid tid, sc.arg0, sc.arg2.toInt64, true)

theorem syncWait_other {e : IoEvent} (h : e.syscallNr ≠ 202) : syncWait (.io e) = none := by
  simp [syncWait, h]

theorem ioWaitFd_id {mem : UserMem} {sc : Syscall} {fd : Int32} (h : ioWaitFd mem sc = some fd) :
    Int32.ofNat sc.id ≠ 202 := by
  have hmem : sc.id ∈ [232, 281, 47, 45] ++ ([7, 271] ++ ([23, 270] ++ [16])) := by
    simp only [List.mem_append]
    unfold ioWaitFd at h
    split at h
    · exact Or.inl ‹_›
    split at h
    · exact Or.inr (Or.inl ‹_›)
    split at h
    · exact Or.inr (Or.inr (Or.inl ‹_›))
    split at h
    · rename_i h16
      exact Or.inr (Or.inr (Or.inr (by simp [h16])))
    · cases h
  have hall : ∀ n ∈ [232, 281, 47, 45] ++ ([7, 271] ++ ([23, 270] ++ [16])),
      Int32.ofNat n ≠ 202 := by decide
  exact hall _ hmem

theorem syncWaits_append (t u : List TraceEvent) :
    syncWaits (t ++ u) = syncWaits t ++ syncWaits u := by
  simp [syncWaits]

/-- The entry of a call is recognised if the call looks like a wait; the
facts are the ones its arguments give. -/
theorem syncWaits_enter (P : Procs) (env : IoEnv) (tid : UInt32) (sc : Syscall) :
    ∃ ws : List SyncWait, syncWaits ((sysEnterIo env (P.pid tid) tid sc).map .io) = ws ∧
      (∀ w ∈ ws, w.tid = tid) ∧
      ws.map SyncWait.facts = if sc.looksLikeWait then [sc.seen P tid] else [] := by
  have hmark : ∀ fd, ioWaitFd env.mem sc = some fd →
      syncWait (.io (emitIoEvent env (P.pid tid) tid (Int32.ofNat sc.id) fd (-999) 0 0)) = none :=
    fun fd h => syncWait_other (ioWaitFd_id h)
  have hmarks : syncWaits (((ioWaitFd env.mem sc).map fun fd =>
      emitIoEvent env (P.pid tid) tid (Int32.ofNat sc.id) fd (-999) 0 0).toList.map .io) = [] := by
    cases h : ioWaitFd env.mem sc with
    | none => rfl
    | some fd => simp [syncWaits, hmark fd h]
  unfold sysEnterIo
  rw [List.map_append, syncWaits_append, hmarks, List.append_nil]
  unfold Syscall.looksLikeWait
  by_cases h : sc.id = 202
  · rw [if_pos h]
    cases hw : futexIsWait (sc.arg1.toUInt32 &&& 0x7f)
    · exact ⟨_, rfl, by simp [syncWaits, syncWait, emitIoEvent, hw],
        by simp [syncWaits, syncWait, emitIoEvent, hw]⟩
    · exact ⟨_, rfl, by simp [syncWaits, syncWait, emitIoEvent, hw],
        by simp [syncWaits, syncWait, emitIoEvent, hw, h, SyncWait.facts, Syscall.seen]⟩
  · exact ⟨_, rfl, by simp [syncWaits, h], by simp [syncWaits, h]⟩

theorem syncWaits_exit (env : IoEnv) (pid tid : UInt32) (ret : Int64) (entry : Option ThreadIo) :
    syncWaits ((sysExitIo env pid tid ret entry).map .io) = [] := by
  have hnr : ∀ ts : ThreadIo, ts.completes = true → ts.syscallNr ≠ 202 := by
    rintro ts h h202
    unfold ThreadIo.completes at h
    rw [h202] at h
    simp only [Bool.or_eq_true, Bool.and_eq_true] at h
    rcases h with h | ⟨h, -⟩
    · exact absurd h (by decide)
    · exact absurd h (by decide)
  cases entry with
  | none => rfl
  | some ts =>
    cases h : ts.completes with
    | false => simp [sysExitIo, syncWaits, Option.filter, h]
    | true =>
      simp only [sysExitIo, Option.filter, h, if_true, Option.toList_some, List.map_cons,
        List.map_nil, syncWaits, List.filterMap_cons, List.filterMap_nil]
      rw [syncWait_other (hnr ts h)]

/-! ## The invariant -/

/-- The call in flight of a thread, if its record is taken for a wait. -/
def FutexState.pendingSeen (P : Procs) (s : FutexState) (tid : UInt32) : List WaitFacts :=
  (((s.inFlight tid).filter Syscall.looksLikeWait).map (Syscall.seen P tid)).toList

/-- For each thread the analyzer recognises what its calls looked like when
they entered: those that have returned, and the one in flight. -/
def FutexState.Seen (P : Procs) (s : FutexState) : Prop :=
  ∀ tid, ((syncWaits s.trace).filter fun w => w.tid == tid).map SyncWait.facts
    = (s.returned.filter fun r => r.tid == tid && r.sys.looksLikeWait).map
        (fun r => r.sys.seen P r.tid) ++ s.pendingSeen P tid

theorem FutexState.Seen.start (P : Procs) : FutexState.start.Seen P := fun _ => rfl

theorem filter_tid_eq {ws : List SyncWait} {tid u : UInt32} (h : ∀ w ∈ ws, w.tid = tid) :
    ws.filter (fun w => w.tid == u) = if tid = u then ws else [] := by
  split
  · rename_i hu
    refine List.filter_eq_self.mpr fun w hw => ?_
    rw [h w hw, hu, beq_self_eq_true]
  · rename_i hu
    refine List.filter_eq_nil_iff.mpr fun w hw => ?_
    rw [h w hw, beq_iff_eq]
    exact hu

theorem FutexState.Seen.enter {P : Procs} {s : FutexState} (h : s.Seen P) {tid : UInt32}
    (hfree : s.inFlight tid = none) (env : IoEnv) (sys : Syscall) (entry : UInt32 → Option ThreadIo) :
    FutexState.Seen P { s with
      entry
      inFlight := Function.update s.inFlight tid (some sys)
      trace := s.trace ++ (sysEnterIo env (P.pid tid) tid sys).map .io } := by
  intro u
  obtain ⟨ws, hws, htid, hfacts⟩ := syncWaits_enter P env tid sys
  have hu := h u
  simp only [FutexState.pendingSeen] at hu ⊢
  rw [syncWaits_append, hws, List.filter_append, List.map_append, filter_tid_eq htid, hu]
  by_cases htu : tid = u
  · subst htu
    rw [if_pos rfl, hfacts, hfree, Function.update_self]
    cases hl : sys.looksLikeWait <;> simp [Option.filter, hl]
  · rw [if_neg htu, Function.update_of_ne (Ne.symm htu)]
    simp

theorem FutexState.Seen.exit {P : Procs} {s : FutexState} (h : s.Seen P) {tid : UInt32}
    {sys : Syscall} (hcall : s.inFlight tid = some sys) (env : IoEnv) (ret : Int64)
    (entry : UInt32 → Option ThreadIo) :
    FutexState.Seen P { s with
      entry
      inFlight := Function.update s.inFlight tid none
      trace := s.trace ++ (sysExitIo env (P.pid tid) tid ret (s.entry tid)).map .io
      returned := s.returned ++ [{ tid, sys, ret }] } := by
  intro u
  have hu := h u
  simp only [FutexState.pendingSeen] at hu ⊢
  rw [syncWaits_append, syncWaits_exit, List.append_nil, hu, List.filter_append, List.map_append,
    List.append_assoc]
  congr 1
  by_cases htu : tid = u
  · subst htu
    rw [hcall, Function.update_self]
    cases hl : sys.looksLikeWait <;> simp [Option.filter, hl]
  · rw [Function.update_of_ne (Ne.symm htu)]
    simp [htu]

theorem FutexState.Seen.step {P : Procs} {s s' : FutexState} {a : FutexAct} (h : s.Seen P)
    (hstep : s.step P a = some s') : s'.Seen P := by
  cases a with
  | enter tid env sys =>
    simp only [FutexState.step] at hstep
    split at hstep
    · rename_i hok
      rw [Bool.and_eq_true] at hok
      cases hstep
      exact h.enter (Option.isNone_iff_eq_none.mp hok.2) env sys _
    · cases hstep
  | exit tid env ret =>
    simp only [FutexState.step] at hstep
    split at hstep
    · obtain ⟨sys, hcall, hs⟩ := Option.bind_eq_some_iff.mp hstep
      cases hs
      exact h.exit hcall env ret _
    · cases hstep

/-! ## When the two sides agree -/

/-- Two selections of a list, the second inside the first, show the same
facts with nothing behind the first only if they select the same elements and
show the same of each. -/
theorem filter_map_append_eq_iff {α β : Type} {p q : α → Bool} {f g : α → β}
    (hqp : ∀ x, q x = true → p x = true) (xs : List α) (ys : List β) :
    (xs.filter p).map f ++ ys = (xs.filter q).map g ↔
      ys = [] ∧ ∀ x ∈ xs, p x = true → q x = true ∧ f x = g x := by
  constructor
  · intro h
    have hle : (xs.filter q).length ≤ (xs.filter p).length :=
      (List.monotone_filter_right xs hqp).length_le
    have hlen := congrArg List.length h
    simp only [List.length_append, List.length_map] at hlen
    have hys : ys = [] := List.eq_nil_of_length_eq_zero (by omega)
    subst hys
    have hsame : xs.filter q = xs.filter p :=
      (List.monotone_filter_right xs hqp).eq_of_length (by simpa using hlen.symm)
    rw [List.append_nil, hsame, List.map_inj_left] at h
    refine ⟨rfl, fun x hx hp => ?_⟩
    have hmem : x ∈ xs.filter p := List.mem_filter.mpr ⟨hx, hp⟩
    refine ⟨?_, h x hmem⟩
    rw [← hsame] at hmem
    exact (List.mem_filter.mp hmem).2
  · rintro ⟨rfl, h⟩
    have hsame : xs.filter p = xs.filter q := by
      refine List.filter_congr fun x hx => ?_
      rw [Bool.eq_iff_iff]
      exact ⟨fun hp => (h x hx hp).1, hqp x⟩
    rw [List.append_nil, hsame, List.map_inj_left]
    intro x hx
    obtain ⟨hx, hq⟩ := List.mem_filter.mp hx
    exact (h x hx (hqp x hq)).2

theorem pendingSeen_eq_nil {P : Procs} {s : FutexState} {tid : UInt32} :
    s.pendingSeen P tid = [] ↔ ∀ c, s.inFlight tid = some c → c.looksLikeWait = false := by
  unfold FutexState.pendingSeen
  cases h : s.inFlight tid with
  | none => simp
  | some c => cases hl : c.looksLikeWait <;> simp [Option.filter, hl]

/-- In every run the analyzer's waits are the waits of the run, if and only
if each call it takes for a wait has returned the value it was entered
with. -/
theorem futex_agrees_iff {P : Procs} {s : FutexState} {as : List FutexAct}
    (h : run (FutexState.step P) .start as = some s) : s.Agrees P ↔ s.ReturnsExpected := by
  have hseen : s.Seen P :=
    run_invariant (fun _ _ _ hI hstep => FutexState.Seen.step hI hstep) h (.start P)
  have hiff : ∀ tid, ((syncWaits s.trace).filter fun w => w.tid == tid).map SyncWait.facts
      = (s.returned.filter fun r => r.tid == tid && r.sys.isFutexWait).map (SysReturn.facts P) ↔
      s.pendingSeen P tid = [] ∧ ∀ r ∈ s.returned,
        (r.tid == tid && r.sys.looksLikeWait) = true →
        (r.tid == tid && r.sys.isFutexWait) = true ∧ r.sys.seen P r.tid = r.facts P := by
    intro tid
    rw [hseen tid]
    refine filter_map_append_eq_iff (fun r hr => ?_) _ _
    rw [Bool.and_eq_true] at hr ⊢
    exact ⟨hr.1, looksLikeWait_of_isFutexWait hr.2⟩
  constructor
  · intro hagree
    refine ⟨fun r hr hl => ?_, fun tid => ?_⟩
    · obtain ⟨hw, hf⟩ := ((hiff r.tid).mp (hagree r.tid)).2 r hr (by simp [hl])
      rw [beq_self_eq_true, Bool.true_and] at hw
      simp only [Syscall.seen, SysReturn.facts, Prod.mk.injEq] at hf
      exact ⟨hw, hf.2.2.1⟩
    · exact pendingSeen_eq_nil.mp ((hiff tid).mp (hagree tid)).1
  · intro hok tid
    refine (hiff tid).mpr ⟨pendingSeen_eq_nil.mpr (hok.pending tid), fun r hr hl => ?_⟩
    rw [Bool.and_eq_true] at hl ⊢
    obtain ⟨hw, hret⟩ := hok.returned r hr hl.2
    refine ⟨⟨hl.1, hw⟩, ?_⟩
    simp only [Syscall.seen, SysReturn.facts, hret]

theorem solo_pid : (1 : UInt32) ≠ 0 := by decide

/-- All threads are of one process, which is tracked. -/
def soloProcs : Procs where
  pid _ := 1
  tracked _ := true
  pid_ne_zero _ := solo_pid

/-- One call of thread 1 that returns `ret`: `futex(0x40, op, val)`. -/
def futexOnce (op val : UInt64) (ret : Int64) : List FutexAct :=
  let env : IoEnv := { mem := fun _ => none, now := 1, comm := [] }
  [.enter 1 env { id := 202, arg0 := 0x40, arg1 := op, arg2 := val }, .exit 1 env ret]

/-- A wait for the value `0` to change that succeeds, and a wake. -/
theorem futex_agrees_wait :
    ∃ s, run (FutexState.step soloProcs) .start (futexOnce 0 0 0 ++ futexOnce 1 5 1) = some s ∧
      (s.Agrees soloProcs ↔ s.ReturnsExpected) :=
  ⟨_, rfl, @futex_agrees_iff soloProcs _ (futexOnce 0 0 0 ++ futexOnce 1 5 1) rfl⟩

/-- A wait for the value `1` to change that succeeds is read as a wait with
the result `1`. -/
theorem futex_wait_result :
    ¬ ∀ (P : Procs) (s : FutexState) (as : List FutexAct),
      run (FutexState.step P) .start as = some s → s.Agrees P := by
  intro h
  have hrun : ∃ s, run (FutexState.step soloProcs) .start (futexOnce 0 1 0) = some s ∧
      ((syncWaits s.trace).filter fun w => w.tid == 1).map SyncWait.facts = [(1, 0x40, 1, true)] ∧
      (s.returned.filter fun r => r.tid == 1 && r.sys.isFutexWait).map
        (SysReturn.facts soloProcs) = [(1, 0x40, 0, true)] :=
    ⟨_, rfl, by decide, by decide⟩
  obtain ⟨s, hs, hseen, hreturned⟩ := hrun
  have hagree := h soloProcs s _ hs 1
  rw [hseen, hreturned] at hagree
  exact absurd hagree (by decide)

end Montauk.Trace
