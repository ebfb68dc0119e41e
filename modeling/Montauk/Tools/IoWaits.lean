import Montauk.Tools.SyncReports

/-!
# Open I/O waits

A thread that enters an I/O wait leaves a marker in the trace, with the result
`-999`, and the number of the call in its entry; when it leaves, the entry
tells whether the call was such a wait, and its completion goes to the trace
with the result of the call. The report opens a wait with a marker and closes
it with a completion.

So the report holds the threads that are inside a wait, except that a
completion with the result `-999` looks like a marker: the two sides agree in
every state of a run exactly if no wait of the run returns `-999`
(`openWaits_iff`).
-/

namespace Montauk.Tools

open Machine Scan Timeline Trace

/-! ## Threads in their calls -/

/-- `poll`, `ppoll`, `epoll_wait`, `epoll_pwait`, `select`, `pselect6`,
`recvmsg`, `recvfrom`, or an `ioctl` that is not of ntsync. -/
def isIoWait (sc : Syscall) : Bool :=
  [7, 271, 232, 281, 23, 270, 47, 45].contains sc.id || (sc.id == 16 && !sc.isNtsync)

/-- A call that has been entered, with what the handler saw. -/
structure IoCall where
  sys : Syscall
  env : IoEnv

/-- What is known of a wait that has begun. -/
structure OpenWait where
  tid : UInt32
  nr : Int32
  since : UInt64
deriving DecidableEq

structure IoWaitState where
  entry : UInt32 → Option ThreadIo
  inCall : UInt32 → Option IoCall
  trace : List IoEvent

def IoWaitState.start : IoWaitState where
  entry _ := none
  inCall _ := none
  trace := []

/-- The calls whose own handlers record them when they leave: `openat`,
`lseek`, `read`, `write`, `pread64`, `pwrite64`, `io_getevents`, `newfstat`. -/
def recordedCalls : List Int32 := [257, 8, 0, 1, 17, 18, 208, 5]

inductive IoWaitAct where
  | enter (tid : UInt32) (env : IoEnv) (sys : Syscall)
  | exit (tid : UInt32) (env : IoEnv) (ret : Int64)
  | enroll (tid : UInt32)
  | record (e : IoEvent) (ioEnterNs : UInt64)

/-- A tracked thread enters a syscall or leaves one, and a new thread leaves
the call that made it; `enroll_threads` finds a thread; a handler of another
call submits its record, and may set the time of the entry. -/
def IoWaitState.step (P : Procs) (s : IoWaitState) : IoWaitAct → Option IoWaitState
  | .enter tid env sys =>
      if P.tracked (P.pid tid) && (s.inCall tid).isNone then
        some
          { entry := Function.update s.entry tid (some (sysEnterEntry env sys (s.entry tid)))
            inCall := Function.update s.inCall tid (some { sys, env })
            trace := s.trace ++ sysEnterIo env (P.pid tid) tid sys }
      else none
  | .exit tid env ret =>
      if P.tracked (P.pid tid) then
        some
          { entry := Function.update s.entry tid (sysExitEntry (s.entry tid))
            inCall := Function.update s.inCall tid none
            trace := s.trace ++ sysExitIo env (P.pid tid) tid ret (s.entry tid) }
      else none
  | .enroll tid =>
      if P.tracked (P.pid tid) && (s.entry tid).isNone then
        some { s with
          entry := Function.update s.entry tid (some { syscallNr := -1, syscallArg1 := 0, ioEnterNs := 0 }) }
      else none
  | .record e ioEnterNs =>
      if recordedCalls.contains e.syscallNr then
        some { s with
          entry := Function.update s.entry e.tid ((s.entry e.tid).map fun ts => { ts with ioEnterNs })
          trace := s.trace ++ [e] }
      else none

/-- The wait a thread is inside, with the time it was entered. -/
def IoWaitState.waitOf (s : IoWaitState) (tid : UInt32) : Option OpenWait :=
  ((s.inCall tid).filter fun c => isIoWait c.sys).map fun c =>
    { tid, nr := Int32.ofNat c.sys.id, since := c.env.now }

/-! ## The report's side -/

/-- The report that has folded the trace. -/
def IowaitReport.ofTrace (trace : List IoEvent) : IowaitReport :=
  trace.foldl (fun s e => s.fold (.sync (.io e))) {}

/-- The wait an entry of the report holds open. -/
def Parked.openWait (tid : UInt32) (p : Parked) : Option OpenWait :=
  if p.isOpen then some { tid, nr := p.nr, since := p.since } else none

def IowaitReport.openWaits (s : IowaitReport) : List OpenWait := s.tids.filterMap fun r => r.2.openWait r.1

/-- The report holds exactly the waits that threads are inside. -/
def IoWaitState.Agrees (s : IoWaitState) : Prop :=
  ∀ w, w ∈ (IowaitReport.ofTrace s.trace).openWaits ↔ s.waitOf w.tid = some w

/-- A call that leaves a wait does not return `-999`. -/
def IoWaitState.Returns (s : IoWaitState) : IoWaitAct → Prop
  | .exit tid _ ret => (s.entry tid).any ThreadIo.completes = true → ret ≠ -999
  | _ => True

/-! ## A thread in the report -/

/-- The entry of a thread, made of its events alone. -/
def parkedOf (trace : List IoEvent) (tid : UInt32) : Parked :=
  ((trace.filter fun e => isIowaitSyscall e.syscallNr).filter fun e => e.tid = tid).foldl
    (fun p e => p.see e) {}

theorem ofTrace_append (trace : List IoEvent) (e : IoEvent) :
    IowaitReport.ofTrace (trace ++ [e]) = (IowaitReport.ofTrace trace).fold (.sync (.io e)) := by
  rw [IowaitReport.ofTrace, List.foldl_append]
  rfl

theorem tids_ofTrace (trace : List IoEvent) : (IowaitReport.ofTrace trace).tids
    = (trace.filter fun e => isIowaitSyscall e.syscallNr).foldl
        (fun t e => adjust e.tid {} (Parked.see e) t) [] := by
  induction trace using List.reverseRecOn with
  | nil => rfl
  | append_singleton trace e ih =>
    rw [ofTrace_append, List.filter_append, List.foldl_append, ← ih, IowaitReport.fold]
    cases h : isIowaitSyscall e.syscallNr <;> simp [h]

theorem parkedOf_append (trace es : List IoEvent) (tid : UInt32) : parkedOf (trace ++ es) tid
    = ((es.filter fun e => isIowaitSyscall e.syscallNr).filter fun e => e.tid = tid).foldl
        (fun p e => p.see e) (parkedOf trace tid) := by
  rw [parkedOf, List.filter_append, List.filter_append, List.foldl_append]
  rfl

theorem tid_of_openWait {tid : UInt32} {p : Parked} {w : OpenWait} (h : p.openWait tid = some w) : w.tid = tid := by
  rw [Parked.openWait] at h
  split at h
  · cases h
    rfl
  · cases h

/-- A thread without events has no wait open. -/
theorem mem_of_openWait {trace : List IoEvent} {tid : UInt32} {w : OpenWait}
    (h : (parkedOf trace tid).openWait tid = some w) :
    tid ∈ (trace.filter fun e => isIowaitSyscall e.syscallNr).map IoEvent.tid := by
  by_contra hnot
  have hnone : ((trace.filter fun e => isIowaitSyscall e.syscallNr).filter fun e => e.tid = tid) = [] := by
    refine List.filter_eq_nil_iff.mpr fun e he htid => hnot ?_
    exact of_decide_eq_true htid ▸ List.mem_map_of_mem he
  rw [parkedOf, hnone] at h
  exact absurd h nofun

/-- A wait is open in the report exactly if the entry of its thread holds it
open. -/
theorem mem_openWaits {trace : List IoEvent} {w : OpenWait} :
    w ∈ (IowaitReport.ofTrace trace).openWaits ↔ (parkedOf trace w.tid).openWait w.tid = some w := by
  rw [IowaitReport.openWaits, tids_ofTrace, foldl_adjust, List.mem_filterMap]
  constructor
  · rintro ⟨r, hr, hopen⟩
    obtain ⟨tid, -, rfl⟩ := List.mem_map.mp hr
    rw [tid_of_openWait hopen]
    exact hopen
  · intro hopen
    refine ⟨(w.tid, parkedOf trace w.tid), List.mem_map.mpr ⟨w.tid, ?_, rfl⟩, hopen⟩
    exact List.mem_eraseDups.mpr (mem_of_openWait hopen)

theorem agrees_iff_openWait {s : IoWaitState} :
    s.Agrees ↔ ∀ tid, (parkedOf s.trace tid).openWait tid = s.waitOf tid := by
  have htid : ∀ tid w, s.waitOf tid = some w → w.tid = tid := by
    intro tid w h
    obtain ⟨c, -, rfl⟩ := Option.map_eq_some_iff.mp h
    rfl
  constructor
  · intro hagree tid
    refine Option.ext fun w => ⟨fun hw => ?_, fun hw => ?_⟩
    · obtain rfl := tid_of_openWait hw
      exact (hagree w).mp (mem_openWaits.mpr hw)
    · obtain rfl := htid tid w hw
      exact mem_openWaits.mp ((hagree w).mpr hw)
  · intro hsame w
    rw [mem_openWaits, hsame]

/-! ## What the handlers submit -/

theorem isSome_ioWaitFd (mem : UserMem) (sc : Syscall) : (ioWaitFd mem sc).isSome = isIoWait sc := by
  have hcontains : [7, 271, 232, 281, 23, 270, 47, 45].contains sc.id
      = decide (sc.id ∈ [232, 281, 47, 45] ∨ sc.id ∈ [7, 271] ∨ sc.id ∈ [23, 270]) := by
    rw [Bool.eq_iff_iff, List.contains_iff_mem, decide_eq_true_iff]
    simp only [List.mem_cons, List.not_mem_nil, or_false]
    omega
  rw [isIoWait, Syscall.isNtsync, hcontains, ioWaitFd]
  by_cases hfd : sc.id ∈ [232, 281, 47, 45]
  · simp only [hfd, true_or, decide_true, Bool.true_or, if_true, Option.isSome_some]
  by_cases hpoll : sc.id ∈ [7, 271]
  · simp only [hfd, hpoll, true_or, or_true, decide_true, Bool.true_or, if_true, if_false, Option.isSome_some]
  by_cases hselect : sc.id ∈ [23, 270]
  · simp only [hfd, hpoll, hselect, or_true, decide_true, Bool.true_or, if_true, if_false, Option.isSome_some]
  simp only [hfd, hpoll, hselect, or_self, decide_false, Bool.false_or, if_false]
  by_cases hioctl : sc.id = 16
  · rw [if_pos hioctl, hioctl]
    cases isNtsyncIoctl sc.arg1.toUInt32 <;> rfl
  · rw [if_neg hioctl, beq_false_of_ne hioctl]
    rfl

theorem isIoWait_iff {sc : Syscall} : isIoWait sc = true ↔
    sc.id ∈ [7, 271, 232, 281, 23, 270, 47, 45] ∨ sc.id = 16 ∧ isNtsyncIoctl sc.arg1.toUInt32 = false := by
  rw [isIoWait, Syscall.isNtsync, Bool.or_eq_true, List.contains_iff_mem, Bool.and_eq_true, beq_iff_eq]
  refine or_congr_right (and_congr_right fun hid => ?_)
  rw [hid, beq_self_eq_true, Bool.true_and, Bool.not_eq_true']

theorem isIowaitSyscall_of_isIoWait {sc : Syscall} (h : isIoWait sc = true) :
    isIowaitSyscall (Int32.ofNat sc.id) = true := by
  obtain hid | ⟨hid, -⟩ := isIoWait_iff.mp h
  · have hall : [7, 271, 232, 281, 23, 270, 47, 45].all (fun n => isIowaitSyscall (Int32.ofNat n)) = true := by
      decide
    exact List.all_eq_true.mp hall _ hid
  · rw [hid]
    rfl

theorem completes_of_isIoWait {sc : Syscall} (h : isIoWait sc = true) (env : IoEnv) (entry : Option ThreadIo) :
    (sysEnterEntry env sc entry).completes = true := by
  rw [ThreadIo.completes, sysEnterEntry]
  dsimp only
  obtain hid | ⟨hid, hcmd⟩ := isIoWait_iff.mp h
  · have hall : [7, 271, 232, 281, 23, 270, 47, 45].all
        (fun n => [7, 271, 232, 281, 47, 45, 23, 270].contains (Int32.ofNat n)) = true := by decide
    rw [List.all_eq_true.mp hall _ hid]
    rfl
  · rw [hid, hcmd]
    rfl

theorem isIowaitSyscall_of_completes {ts : ThreadIo} (h : ts.completes = true) :
    isIowaitSyscall ts.syscallNr = true := by
  rw [ThreadIo.completes, Bool.or_eq_true, Bool.and_eq_true, beq_iff_eq] at h
  obtain hnr | ⟨hnr, -⟩ := h
  · have hall : [7, 271, 232, 281, 47, 45, 23, 270].all isIowaitSyscall = true := by decide
    exact List.all_eq_true.mp hall _ (List.contains_iff_mem.mp hnr)
  · rw [hnr]
    rfl

/-- The marker of a thread's wait opens it, and a call that is no wait changes
nothing. -/
theorem openWait_enter (trace : List IoEvent) (env : IoEnv) (pid tid : UInt32) (sc : Syscall) (u : UInt32) :
    (parkedOf (trace ++ sysEnterIo env pid tid sc) u).openWait u
      = if tid = u ∧ isIoWait sc = true then some { tid := u, nr := Int32.ofNat sc.id, since := env.now }
        else (parkedOf trace u).openWait u := by
  have hfutex : (if sc.id = 202 then [emitIoEvent env pid tid 202 sc.arg1.toUInt32.toInt32 sc.arg2.toInt64 sc.arg0 0]
      else []).filter (fun e => isIowaitSyscall e.syscallNr) = [] := by
    split <;> rfl
  rw [parkedOf_append, sysEnterIo, List.filter_append, hfutex, List.nil_append, ← isSome_ioWaitFd env.mem]
  cases hfd : ioWaitFd env.mem sc with
  | none => simp
  | some fd =>
    have hwait : isIowaitSyscall (Int32.ofNat sc.id) = true :=
      isIowaitSyscall_of_isIoWait (by rw [← isSome_ioWaitFd env.mem, hfd, Option.isSome_some])
    by_cases hu : tid = u
    · subst hu
      simp [emitIoEvent, hwait, Parked.see, Parked.openWait]
    · simp [emitIoEvent, hwait, hu]

/-- The completion of a thread's wait closes it, unless the call returns the
mark of an entry. -/
theorem openWait_exit (trace : List IoEvent) (env : IoEnv) (pid tid : UInt32) (ret : Int64)
    (entry : Option ThreadIo) (u : UInt32) :
    (parkedOf (trace ++ sysExitIo env pid tid ret entry) u).openWait u
      = if tid = u then
          (entry.filter ThreadIo.completes).elim ((parkedOf trace u).openWait u) fun ts =>
            if ret = -999 then some { tid := u, nr := ts.syscallNr, since := env.now } else none
        else (parkedOf trace u).openWait u := by
  rw [parkedOf_append, sysExitIo]
  cases hentry : entry.filter ThreadIo.completes with
  | none => simp
  | some ts =>
    have hwait : isIowaitSyscall ts.syscallNr = true :=
      isIowaitSyscall_of_completes (Option.filter_eq_some_iff.mp hentry).2
    by_cases hu : tid = u
    · subst hu
      by_cases hret : ret = -999
      · simp [emitIoEvent, hwait, Parked.see, Parked.openWait, hret]
      · simp [emitIoEvent, hwait, Parked.see, Parked.openWait, hret]
    · simp [emitIoEvent, hwait, hu]

theorem openWait_record {trace : List IoEvent} {e : IoEvent} (h : recordedCalls.contains e.syscallNr = true)
    (u : UInt32) : (parkedOf (trace ++ [e]) u).openWait u = (parkedOf trace u).openWait u := by
  have hall : recordedCalls.all (fun nr => !isIowaitSyscall nr) = true := by decide
  have hno := List.all_eq_true.mp hall _ (List.contains_iff_mem.mp h)
  rw [parkedOf_append, List.filter_cons_of_neg (by simpa using hno)]
  rfl

/-! ## Runs -/

/-- A thread inside a wait has an entry that tells so. -/
def IoWaitState.Inv (s : IoWaitState) : Prop :=
  ∀ tid c, s.inCall tid = some c → isIoWait c.sys = true → (s.entry tid).any ThreadIo.completes = true

theorem IoWaitState.Inv.start : IoWaitState.start.Inv := fun _ _ h => absurd h nofun

theorem IoWaitState.Inv.step {P : Procs} {s s' : IoWaitState} {a : IoWaitAct} (h : s.Inv)
    (hstep : s.step P a = some s') : s'.Inv := by
  cases a with
  | enter tid env sys =>
    rw [IoWaitState.step] at hstep
    split at hstep
    · cases hstep
      intro u c hc hwait
      dsimp only at hc ⊢
      by_cases hu : u = tid
      · subst hu
        rw [Function.update_self] at hc ⊢
        cases hc
        exact completes_of_isIoWait hwait env _
      · rw [Function.update_of_ne hu] at hc ⊢
        exact h u c hc hwait
    · cases hstep
  | exit tid env ret =>
    rw [IoWaitState.step] at hstep
    split at hstep
    · cases hstep
      intro u c hc hwait
      dsimp only at hc ⊢
      by_cases hu : u = tid
      · subst hu
        rw [Function.update_self] at hc
        cases hc
      · rw [Function.update_of_ne hu] at hc ⊢
        exact h u c hc hwait
    · cases hstep
  | enroll tid =>
    rw [IoWaitState.step] at hstep
    split at hstep
    · rename_i hnew
      cases hstep
      intro u c hc hwait
      by_cases hu : u = tid
      · subst hu
        have hentry := h u c hc hwait
        rw [Option.isNone_iff_eq_none.mp (Bool.and_eq_true_iff.mp hnew).2] at hentry
        exact absurd hentry nofun
      · dsimp only
        rw [Function.update_of_ne hu]
        exact h u c hc hwait
    · cases hstep
  | record e ioEnterNs =>
    rw [IoWaitState.step] at hstep
    split at hstep
    · cases hstep
      intro u c hc hwait
      have hentry := h u c hc hwait
      dsimp only
      by_cases hu : u = e.tid
      · subst hu
        rw [Function.update_self, Option.any_map]
        exact hentry
      · rw [Function.update_of_ne hu]
        exact hentry
    · cases hstep

theorem waitOf_of_inCall {s t : IoWaitState} {tid : UInt32} (h : t.inCall tid = s.inCall tid) :
    t.waitOf tid = s.waitOf tid := by
  rw [IoWaitState.waitOf, IoWaitState.waitOf, h]

theorem waitOf_of_none {s : IoWaitState} {tid : UInt32} (h : s.inCall tid = none) : s.waitOf tid = none := by
  rw [IoWaitState.waitOf, h]
  rfl

theorem waitOf_of_some {s : IoWaitState} {tid : UInt32} {c : IoCall} (h : s.inCall tid = some c) :
    s.waitOf tid = if isIoWait c.sys = true then some { tid, nr := Int32.ofNat c.sys.id, since := c.env.now }
      else none := by
  rw [IoWaitState.waitOf, h]
  cases hwait : isIoWait c.sys <;> simp [Option.filter, hwait]

theorem IoWaitState.Agrees.enter {P : Procs} {s s' : IoWaitState} (h : s.Agrees) {tid : UInt32} {env : IoEnv}
    {sys : Syscall} (hstep : s.step P (.enter tid env sys) = some s') : s'.Agrees := by
  rw [agrees_iff_openWait] at h ⊢
  rw [IoWaitState.step] at hstep
  split at hstep
  · rename_i hok
    have hidle : s.inCall tid = none := Option.isNone_iff_eq_none.mp (Bool.and_eq_true_iff.mp hok).2
    cases hstep
    intro u
    rw [openWait_enter]
    by_cases hu : tid = u
    · subst hu
      rw [h tid, waitOf_of_none hidle, waitOf_of_some (Function.update_self ..)]
      simp only [true_and]
    · rw [if_neg (fun hand => hu hand.1), h u]
      exact (waitOf_of_inCall (Function.update_of_ne (Ne.symm hu) ..)).symm
  · cases hstep

theorem IoWaitState.Inv.waitOf_eq_none {s : IoWaitState} (h : s.Inv) {tid : UInt32}
    (hentry : (s.entry tid).filter ThreadIo.completes = none) : s.waitOf tid = none := by
  cases hc : s.inCall tid with
  | none => exact waitOf_of_none hc
  | some c =>
    rw [waitOf_of_some hc, if_neg]
    intro hwait
    have hany := h tid c hc hwait
    rw [← Option.isSome_filter, hentry] at hany
    exact absurd hany nofun

/-- A return keeps it exactly if no wait returns the mark of an entry. -/
theorem IoWaitState.Agrees.exit_iff {P : Procs} {s s' : IoWaitState} (h : s.Agrees) (hinv : s.Inv) {tid : UInt32}
    {env : IoEnv} {ret : Int64} (hstep : s.step P (.exit tid env ret) = some s') :
    s'.Agrees ↔ ((s.entry tid).any ThreadIo.completes = true → ret ≠ -999) := by
  rw [agrees_iff_openWait] at h ⊢
  rw [IoWaitState.step] at hstep
  split at hstep
  · cases hstep
    have hother : ∀ u, tid ≠ u → (parkedOf (s.trace ++ sysExitIo env (P.pid tid) tid ret (s.entry tid)) u).openWait u
        = IoWaitState.waitOf
            { entry := Function.update s.entry tid (sysExitEntry (s.entry tid))
              inCall := Function.update s.inCall tid none
              trace := s.trace ++ sysExitIo env (P.pid tid) tid ret (s.entry tid) } u := by
      intro u hu
      rw [openWait_exit, if_neg hu, h u]
      exact (waitOf_of_inCall (Function.update_of_ne (Ne.symm hu) ..)).symm
    have hgone : IoWaitState.waitOf
        { entry := Function.update s.entry tid (sysExitEntry (s.entry tid))
          inCall := Function.update s.inCall tid none
          trace := s.trace ++ sysExitIo env (P.pid tid) tid ret (s.entry tid) } tid = none :=
      waitOf_of_none (Function.update_self ..)
    have hself : (parkedOf (s.trace ++ sysExitIo env (P.pid tid) tid ret (s.entry tid)) tid).openWait tid = none
        ↔ ((s.entry tid).any ThreadIo.completes = true → ret ≠ -999) := by
      rw [openWait_exit, if_pos rfl, h tid, ← Option.isSome_filter]
      cases hentry : (s.entry tid).filter ThreadIo.completes with
      | none => exact iff_of_true (hinv.waitOf_eq_none hentry) nofun
      | some ts =>
        rw [Option.elim_some, Option.isSome_some]
        by_cases hret : ret = -999
        · simp [hret]
        · simp [hret]
    rw [← hself]
    constructor
    · intro hall
      rw [← hgone]
      exact hall tid
    · intro hclosed u
      by_cases hu : tid = u
      · subst hu
        exact hclosed.trans hgone.symm
      · exact hother u hu
  · cases hstep

theorem agrees_step {P : Procs} {s s' : IoWaitState} {a : IoWaitAct} (hinv : s.Inv) (h : s.Agrees)
    (hstep : s.step P a = some s') : s'.Agrees ↔ s.Returns a := by
  cases a with
  | enter tid env sys => exact iff_of_true (h.enter hstep) trivial
  | exit tid env ret => exact h.exit_iff hinv hstep
  | enroll tid =>
    rw [IoWaitState.step] at hstep
    split at hstep
    · cases hstep
      exact iff_of_true h trivial
    · cases hstep
  | record e ioEnterNs =>
    rw [IoWaitState.step] at hstep
    split at hstep
    · rename_i hrecorded
      cases hstep
      refine iff_of_true (agrees_iff_openWait.mpr fun u => ?_) trivial
      rw [openWait_record hrecorded]
      exact agrees_iff_openWait.mp h u
    · cases hstep

theorem IoWaitState.Agrees.start : IoWaitState.start.Agrees := agrees_iff_openWait.mpr fun _ => rfl

/-- In every run the report holds the waits that threads are inside, in every
state of the run, if and only if no wait returns `-999`. -/
theorem openWaits_iff {P : Procs} {s : IoWaitState} {as : List IoWaitAct}
    (h : run (IoWaitState.step P) .start as = some s) :
    Throughout (IoWaitState.step P) IoWaitState.Agrees .start as
      ↔ Meets (IoWaitState.step P) IoWaitState.Returns .start as :=
  throughout_iff_meets (fun _ _ _ hI hstep => IoWaitState.Inv.step hI hstep)
    (fun _ _ _ hI hQ hstep => agrees_step hI hQ hstep) h .start .start

def handlerAt (now : UInt64) : IoEnv := { mem := fun _ => none, now, comm := [] }

/-- Thread 1 polls nothing and returns `ret`, and waits on the descriptor 4. -/
def pollThenWait (ret : Int64) : List IoWaitAct :=
  [.enter 1 (handlerAt 5) { id := 7, arg0 := 0, arg1 := 0, arg2 := 0 }, .exit 1 (handlerAt 8) ret,
    .enter 1 (handlerAt 9) { id := 232, arg0 := 4, arg1 := 0, arg2 := 1 }]

theorem openWaits_poll : ∃ s, run (IoWaitState.step soloProcs) .start (pollThenWait 0) = some s ∧
    (Throughout (IoWaitState.step soloProcs) IoWaitState.Agrees .start (pollThenWait 0)
      ↔ Meets (IoWaitState.step soloProcs) IoWaitState.Returns .start (pollThenWait 0)) :=
  ⟨_, rfl, @openWaits_iff soloProcs _ (pollThenWait 0) rfl⟩

/-- An `ioctl` on the descriptor 3 that returns `ret`. -/
def ioctlOnce (ret : Int64) : List IoWaitAct :=
  [.enter 1 (handlerAt 5) { id := 16, arg0 := 3, arg1 := 0x6440, arg2 := 0 }, .exit 1 (handlerAt 8) ret]

/-- A driver that returns `-999` leaves the thread parked in the report. -/
theorem not_agrees_ioctl : ¬ ∀ (P : Procs) (as : List IoWaitAct) (s : IoWaitState),
    run (IoWaitState.step P) .start as = some s → s.Agrees := by
  intro h
  have hrun : ∃ s, run (IoWaitState.step soloProcs) .start (ioctlOnce (-999)) = some s ∧
      (IowaitReport.ofTrace s.trace).openWaits = [{ tid := 1, nr := 16, since := 8 }] ∧ s.waitOf 1 = none :=
    ⟨_, rfl, by decide, rfl⟩
  obtain ⟨s, hs, hopen, hwait⟩ := hrun
  have hinside := (h soloProcs _ s hs { tid := 1, nr := 16, since := 8 }).mp (by rw [hopen]; exact List.mem_singleton_self _)
  rw [hwait] at hinside
  exact absurd hinside nofun

end Montauk.Tools
