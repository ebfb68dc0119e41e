import Montauk.App.MetricsRender

/-!
# The renderers of a trace snapshot

`render_trace` and the sections it is made of. The processes and the file
descriptors go through `info_line`, once an entry, so their headers are
written once an entry too; the other rows are labelled samples.
-/

namespace Montauk.App

open Emit
open Scan (cstr)

/-! ## The snapshot -/

/-- `cmd` and `exec_file`, like the other names below, are the arrays as they
are held. -/
structure TracedProcess where
  pid : Int32
  ppid : Int32
  is_root : Bool
  exited : Bool
  exit_code : Int32
  fork_ts : UInt64
  exec_ts : UInt64
  exit_ts : UInt64
  cmd : List UInt8
  exec_file : List UInt8

structure ThreadSample (D : Type) where
  pid : Int32
  tid : Int32
  state : UInt8
  cpu_pct : D
  syscall_nr : Int32
  comm : List UInt8
  wchan : List UInt8
  syscall_name : List UInt8
  io_fd : Int32
  io_count : UInt64
  io_whence : UInt32
  io_result : Int64
  io_timestamp_ns : UInt64
  cur_cpu : Int32
  migrations : UInt64

structure NtsyncSample where
  pid : Int32
  tid : Int32
  op : UInt8
  fd : Int32
  result : Int64
  timestamp_ns : UInt64
  arg0 : UInt32
  arg1 : UInt32
  wait_owner : UInt32
  comm : List UInt8

structure FdSample where
  pid : Int32
  fd_num : Int32
  target : List UInt8

/-- The lists are the parts of the arrays that their counts say are used. -/
structure TraceSnapshot (D : Type) where
  procs : List TracedProcess
  threads : List (ThreadSample D)
  fds : List FdSample
  ntsync_events : List NtsyncSample
  sched_op_total : Fin 7 → UInt64
  mig_intra_domain : UInt64
  mig_cross_domain : UInt64
  mig_unknown_domain : UInt64
  mig_intra_wake : UInt64
  mig_intra_steal : UInt64
  mig_cross_wake : UInt64
  mig_cross_steal : UInt64
  waiting_for_match : Bool

/-! ## The renderers -/

def kSchedOpName : Fin 7 → String
  | 0 => ""
  | 1 => "enqueue"
  | 2 => "pick"
  | 3 => "pick_empty"
  | 4 => "preempt_tick"
  | 5 => "preempt_wakeup"
  | 6 => "wakeup"

def kNtsyncOps : List String :=
  ["create_sem", "sem_release", "wait_any", "wait_all", "create_mutex", "mutex_unlock",
    "mutex_kill", "create_event", "event_set", "event_reset", "event_pulse", "sem_read",
    "mutex_read", "event_read"]

def NtsyncSample.opStr (e : NtsyncSample) : String := (kNtsyncOps[e.op.toNat]?).getD "unknown"

def flag (b : Bool) : List UInt8 := if b then [0x31] else [0x30]

def procLabels (p : TracedProcess) : List Label :=
  [label "pid" (decimal p.pid.toInt), label "ppid" (decimal p.ppid.toInt),
    label "cmd" (cstr p.cmd), label "root" (flag p.is_root), label "exited" (flag p.exited),
    label "exit_status" (decimal ((p.exit_code >>> 8) &&& 0xff).toInt),
    label "exit_signal" (decimal (p.exit_code &&& 0x7f).toInt),
    label "exec_file" (cstr p.exec_file), label "fork_ts" (decimal p.fork_ts.toNat),
    label "exec_ts" (decimal p.exec_ts.toNat), label "exit_ts" (decimal p.exit_ts.toNat)]

def fdLabels (f : FdSample) : List Label :=
  [label "pid" (decimal f.pid.toInt), label "fd" (decimal f.fd_num.toInt),
    label "target" (cstr f.target)]

section

variable {D : Type}

def render_procs (t : TraceSnapshot D) : List (Walk D) :=
  [.collection (t.procs.map fun p =>
    [.info_line (ident "montauk_trace_process_info") (literal "Traced process group member")
      (procLabels p)])]

def schedOpKey (r : Fin 7 × UInt64) : List Label := [label "op" (spelling (kSchedOpName r.1))]

def schedOpEntry (r : Fin 7 × UInt64) : List (SinkCall D) :=
  [labeled_u64 (counter "montauk_sched_op_total"
    "Scheduler-decision tracepoint counts (per op, summed across CPUs)") (schedOpKey r) r.2]

/-- The ops that are counted, from 1 to 6. -/
def schedOps (t : TraceSnapshot D) : List (Fin 7 × UInt64) :=
  [1, 2, 3, 4, 5, 6].map fun o => (o, t.sched_op_total o)

def render_sched_ops (t : TraceSnapshot D) : List (Walk D) :=
  when ((schedOps t).any fun r => r.2 != 0) [.collection ((schedOps t).map schedOpEntry)]

def threadKey (th : ThreadSample D) : List Label :=
  [label "pid" (decimal th.pid.toInt), label "tid" (decimal th.tid.toInt),
    label "comm" (cstr th.comm)]

def threadEntry (th : ThreadSample D) : List (SinkCall D) :=
  [labeled_i64 (gauge "montauk_trace_thread_state" "Per-thread state for traced group")
      (threadKey th ++ [label "state" (cstr [th.state])]) 1,
    labeled_f64 (gauge "montauk_trace_thread_cpu_percent" "Per-thread CPU utilization")
      (threadKey th) th.cpu_pct,
    labeled_i64 (gauge "montauk_trace_thread_cpu" "Per-thread current on-CPU core")
      (threadKey th) th.cur_cpu.toInt64,
    labeled_u64 (counter "montauk_trace_thread_migrations"
      "Per-thread cross-CPU migration count") (threadKey th) th.migrations,
    labeled_i64 (gauge "montauk_trace_thread_syscall" "Per-thread current syscall")
      (threadKey th ++ [label "syscall" (cstr th.syscall_name), label "wchan" (cstr th.wchan)])
      th.syscall_nr.toInt64] ++
  when (decide (0 ≤ th.io_fd)) [
    labeled_u64 (gauge "montauk_trace_thread_io" "Per-thread last I/O syscall details")
      (threadKey th ++
        [label "syscall" (cstr th.syscall_name), label "fd" (decimal th.io_fd.toInt),
          label "count" (decimal th.io_count.toNat), label "result" (decimal th.io_result.toInt),
          label "whence" (decimal th.io_whence.toNat)]) th.io_timestamp_ns]

def render_threads (t : TraceSnapshot D) : List (Walk D) :=
  [.collection (t.threads.map threadEntry)]

def render_migrations (t : TraceSnapshot D) : List (Walk D) :=
  scalars [
    u64 (counter "montauk_trace_migrations_intra_domain"
      "Cross-core migrations within one cache domain/L3 domain") t.mig_intra_domain,
    u64 (counter "montauk_trace_migrations_cross_domain"
      ("Cross-core migrations across cache domain/L3 domains " ++
        "(cross-domain interconnect)")) t.mig_cross_domain,
    u64 (counter "montauk_trace_migrations_unknown_domain"
      "Cross-core migrations with unmapped cache domain (topology not pushed)")
      t.mig_unknown_domain,
    u64 (counter "montauk_trace_migrations_intra_wake"
      ("Intra-domain migrations that placed a woken task " ++
        "(select_cpu / enqueue spill push)")) t.mig_intra_wake,
    u64 (counter "montauk_trace_migrations_intra_steal"
      "Intra-domain migrations that pulled an already-runnable task at dispatch (steal)")
      t.mig_intra_steal,
    u64 (counter "montauk_trace_migrations_cross_wake"
      "Cross-domain wake-placements (select_cpu / enqueue spill push)") t.mig_cross_wake,
    u64 (counter "montauk_trace_migrations_cross_steal" "Cross-domain dispatch steals (pull)")
      t.mig_cross_steal]

def ntsyncKey (e : NtsyncSample) : List Label :=
  [label "pid" (decimal e.pid.toInt), label "tid" (decimal e.tid.toInt),
    label "comm" (cstr e.comm), label "op" (spelling e.opStr), label "fd" (decimal e.fd.toInt),
    label "result" (decimal e.result.toInt), label "arg0" (decimal e.arg0.toNat),
    label "arg1" (decimal e.arg1.toNat), label "owner" (decimal e.wait_owner.toNat)]

def ntsyncEntry (e : NtsyncSample) : List (SinkCall D) :=
  [labeled_u64 (gauge "montauk_trace_ntsync" "ntsync synchronization operations") (ntsyncKey e)
    e.timestamp_ns]

def render_ntsync (t : TraceSnapshot D) : List (Walk D) :=
  [.collection (t.ntsync_events.map ntsyncEntry)]

def render_fds (t : TraceSnapshot D) : List (Walk D) :=
  [.collection (t.fds.map fun f =>
    [.info_line (ident "montauk_trace_fd_target") (literal "Per-process fd targets")
      (fdLabels f)])]

/-- `\n# Trace\n`, as the lines it is. -/
def traceBanner : List Remark :=
  [⟨[], List.not_mem_nil, .inl rfl⟩,
    ⟨[sharp, 0x20, 0x54, 0x72, 0x61, 0x63, 0x65], by decide, .inr ⟨rfl, by decide, by decide⟩⟩]

def render_trace (t : TraceSnapshot D) : List (Walk D) :=
  [.call (.raw_comment traceBanner)] ++
  scalars [
    boolean (gauge "montauk_trace_waiting" "Trace mode waiting for pattern match")
      t.waiting_for_match,
    i64 (gauge "montauk_trace_group_size" "Number of processes in traced group")
      (Int64.ofNat t.procs.length),
    i64 (gauge "montauk_trace_thread_total" "Total threads across traced group")
      (Int64.ofNat t.threads.length)] ++
  when (!t.procs.isEmpty)
    (render_procs t ++ render_sched_ops t ++
      when (!t.threads.isEmpty) (render_threads t ++ render_migrations t) ++
      when (!t.ntsync_events.isEmpty) (render_ntsync t) ++
      when (!t.fds.isEmpty) (render_fds t))

end

/-- `trace_to_prometheus`. -/
def trace_to_prometheus {D : Type} (lib : Doubles D) (t : TraceSnapshot D) : List UInt8 :=
  PrometheusSink.text lib.toDoubleText (render_trace t)

/-! ## Rows apart -/

section

variable {D : Type}

/-- There is one entry at most where each writes its headers, and no two rows
of the others have the same labels. -/
structure TraceSnapshot.RowsApart (t : TraceSnapshot D) : Prop where
  procs : t.procs.length ≤ 1
  threads : (t.threads.map fun th => (th.pid, th.tid, cstr th.comm)).Nodup
  ntsync : (t.ntsync_events.map fun e => (e.pid, e.tid, cstr e.comm, spelling e.opStr, e.fd,
    e.result, e.arg0, e.arg1, e.wait_owner)).Nodup
  fds : t.fds.length ≤ 1

theorem rowsOf_schedOp :
    RowsOf (D := D) (["montauk_sched_op_total"].map ident) schedOpEntry schedOpKey :=
  rowsOf_plain (fun _ => rfl) (fun _ => nofun) (fun _ => rfl) (nodup_one "op")
    fun _ => List.Sublist.refl _

theorem schedOpKeys_nodup (t : TraceSnapshot D) : ((schedOps t).map schedOpKey).Nodup := by
  have hnames : ([1, 2, 3, 4, 5, 6].map fun o => spelling (kSchedOpName o)).Nodup := by
    decide +kernel
  have hkey : ∀ a b : Fin 7 × UInt64,
      schedOpKey a = schedOpKey b ↔ spelling (kSchedOpName a.1) = spelling (kSchedOpName b.1) := by
    intro a b
    simp only [schedOpKey, List.cons.injEq, label_inj, and_true]
  rw [nodup_keys_iff hkey, schedOps, List.map_map]
  exact hnames

def threadFamilies : List String :=
  ["montauk_trace_thread_state", "montauk_trace_thread_cpu_percent", "montauk_trace_thread_cpu",
    "montauk_trace_thread_migrations", "montauk_trace_thread_syscall",
    "montauk_trace_thread_io"]

theorem rowsOf_thread : RowsOf (D := D) (threadFamilies.map ident) threadEntry threadKey := by
  have hkey : (["pid", "tid", "comm"].map ident).Nodup := nodup_idents (by decide +kernel)
  have hstate : (["pid", "tid", "comm", "state"].map ident).Nodup :=
    nodup_idents (by decide +kernel)
  have hcall : (["pid", "tid", "comm", "syscall", "wchan"].map ident).Nodup :=
    nodup_idents (by decide +kernel)
  have hio : (["pid", "tid", "comm", "syscall", "fd", "count", "result", "whence"].map
      ident).Nodup := nodup_idents (by decide +kernel)
  have hnames : ∀ th : ThreadSample D,
      (threadKey th).map Label.key = ["pid", "tid", "comm"].map ident := fun _ => rfl
  refine ⟨?_, ?_, fun th th' => (hnames th).trans (hnames th').symm, ?_⟩
  · intro th
    simp only [threadEntry, List.filterMap_append, filterMap_when]
    exact (List.Sublist.refl _).append (sublist_when _ _)
  · intro th c hc
    rw [threadEntry, List.mem_append, mem_when] at hc
    rcases hc with hc | ⟨-, hc⟩
    · simp only [List.mem_cons, List.not_mem_nil, or_false] at hc
      rcases hc with rfl | rfl | rfl | rfl | rfl
      · exact ⟨List.prefix_append _ _, hstate⟩
      · exact ⟨List.prefix_rfl, hkey⟩
      · exact ⟨List.prefix_rfl, hkey⟩
      · exact ⟨List.prefix_rfl, hkey⟩
      · exact ⟨List.prefix_append _ _, hcall⟩
    · obtain rfl := List.mem_singleton.mp hc
      exact ⟨List.prefix_append _ _, hio⟩
  · exact ⟨_, fun th => ⟨_, List.mem_append_left _ (List.mem_cons_of_mem _ List.mem_cons_self)⟩⟩

theorem threadKeys_nodup (ts : List (ThreadSample D)) :
    (ts.map threadKey).Nodup ↔ (ts.map fun th => (th.pid, th.tid, cstr th.comm)).Nodup := by
  refine nodup_keys_iff ?_ _
  intro a b
  simp only [threadKey, List.cons.injEq, label_inj, decimal_inj, Int32.toInt_inj, Prod.mk.injEq,
    and_true]

theorem rowsOf_ntsync :
    RowsOf (D := D) (["montauk_trace_ntsync"].map ident) ntsyncEntry ntsyncKey :=
  have hkeys : (["pid", "tid", "comm", "op", "fd", "result", "arg0", "arg1", "owner"].map
      ident).Nodup := nodup_idents (by decide +kernel)
  rowsOf_plain (fun _ => rfl) (fun _ => nofun) (fun _ => rfl) hkeys fun _ => List.Sublist.refl _

theorem ntsyncKeys_nodup (es : List NtsyncSample) :
    (es.map ntsyncKey).Nodup ↔ (es.map fun e => (e.pid, e.tid, cstr e.comm, spelling e.opStr,
      e.fd, e.result, e.arg0, e.arg1, e.wait_owner)).Nodup := by
  refine nodup_keys_iff ?_ _
  intro a b
  simp only [ntsyncKey, List.cons.injEq, label_inj, decimal_inj, Int32.toInt_inj,
    Int64.toInt_inj, Int.natCast_inj, UInt32.toNat_inj, Prod.mk.injEq, and_true]

/-! ## What the trace covers -/

variable (lib : Doubles D)

def migrationFamilies : List String :=
  ["montauk_trace_migrations_intra_domain", "montauk_trace_migrations_cross_domain",
    "montauk_trace_migrations_unknown_domain", "montauk_trace_migrations_intra_wake",
    "montauk_trace_migrations_intra_steal", "montauk_trace_migrations_cross_wake",
    "montauk_trace_migrations_cross_steal"]

def traceFamilies : List String :=
  ["montauk_trace_waiting", "montauk_trace_group_size", "montauk_trace_thread_total",
    "montauk_trace_process_info", "montauk_sched_op_total"] ++ threadFamilies ++
    migrationFamilies ++ ["montauk_trace_ntsync", "montauk_trace_fd_target"]

theorem covers_trace (t : TraceSnapshot D) :
    Covers lib.toDoubleText (traceFamilies.map ident) (render_trace t)
      (t.procs ≠ [] → t.RowsApart) := by
  refine Covers.of_names (.append (.append (.remarks _) (.scalars _)) (.when
    (.append (.append (.append (.append (.infos _ _ _ _) (.when (.rows rowsOf_schedOp _) _))
      (.when (.append (.rows rowsOf_thread _) (.scalars _)) _))
      (.when (.rows rowsOf_ntsync _) _)) (.when (.infos _ _ _ _) _)) _)) rfl ?_
  have hthreads : ((!t.threads.isEmpty) = true → (t.threads.map threadKey).Nodup) ↔
      (t.threads.map fun th => (th.pid, th.tid, cstr th.comm)).Nodup := by
    rw [threadKeys_nodup]
    cases t.threads <;> simp
  have hntsync : ((!t.ntsync_events.isEmpty) = true → (t.ntsync_events.map ntsyncKey).Nodup) ↔
      (t.ntsync_events.map fun e => (e.pid, e.tid, cstr e.comm, spelling e.opStr, e.fd,
        e.result, e.arg0, e.arg1, e.wait_owner)).Nodup := by
    rw [ntsyncKeys_nodup]
    cases t.ntsync_events <;> simp
  have hfds : ((!t.fds.isEmpty) = true → t.fds.length ≤ 1) ↔ t.fds.length ≤ 1 := by
    cases t.fds <;> simp
  have hprocs : (!t.procs.isEmpty) = true ↔ t.procs ≠ [] := by simp
  rw [hprocs, hntsync, hfds]
  simp only [and_true, true_and, hthreads, schedOpKeys_nodup, implies_true]
  constructor
  · intro h hne
    obtain ⟨⟨⟨hp, ht⟩, hn⟩, hf⟩ := h hne
    exact ⟨hp, ht, hn, hf⟩
  · intro h hne
    obtain ⟨hp, ht, hn, hf⟩ := h hne
    exact ⟨⟨⟨hp, ht⟩, hn⟩, hf⟩

end

end Montauk.App
