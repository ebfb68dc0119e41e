import Montauk.App.TraceRender

/-!
# The text a scrape gets

The body of `/metrics`: the text of a snapshot and, where there is a trace,
the trace's text behind it. It is a valid exposition if and only if no
collection has two rows of the same labels and no more than one process and
one file descriptor is traced (`metrics_text_valid_iff`): the entries of these
two go through `info_line`, and the second one repeats the headers.
-/

namespace Montauk.App

open Emit
open Scan (cstr)

section

variable {D : Type} (lib : Doubles D)

/-- The body `handle_client` makes, and `LogWriter` with it. -/
def metrics_text (host : Host) (s : MetricsSnapshot D) (trace : Option (TraceSnapshot D)) :
    List UInt8 :=
  snapshot_to_prometheus lib host s ++ trace.elim [] (trace_to_prometheus lib)

/-- The walks behind the body, one sink after the other. -/
def metricsWalks (host : Host) (s : MetricsSnapshot D) (trace : Option (TraceSnapshot D)) :
    List (Walk D) :=
  render_snapshot lib host s ++ trace.elim [] render_trace

def TraceApart (trace : Option (TraceSnapshot D)) : Prop :=
  ∀ t ∈ trace, t.procs ≠ [] → t.RowsApart

theorem families_nodup : ((snapshotFamilies ++ traceFamilies).map ident).Nodup :=
  nodup_idents (by decide +kernel)

variable {host : Host} {s : MetricsSnapshot D} {trace : Option (TraceSnapshot D)}

theorem covers_metrics (h : ∀ p ∈ s.providers, p = []) :
    Covers lib.toDoubleText ((snapshotFamilies ++ traceFamilies).map ident)
      (metricsWalks lib host s trace) (s.RowsApart ∧ TraceApart trace) := by
  have hsnapshot := covers_snapshot lib host h
  rw [List.map_append]
  cases trace with
  | some t =>
    refine (hsnapshot.append (covers_trace lib t)).congr (and_congr_right fun _ => ?_)
    simp [TraceApart]
  | none =>
    refine (hsnapshot.append (Covers.nil.mono (List.nil_sublist _))).congr
      (and_congr_right fun _ => ?_)
    simp [TraceApart]

theorem metrics_text_eq (h : ∀ p ∈ s.providers, p = []) :
    metrics_text lib host s trace
      = blocksText ((metricsWalks lib host s trace).flatMap (Walk.blocks lib.toDoubleText)) := by
  have htrace : trace.elim [] (trace_to_prometheus lib)
      = blocksText ((trace.elim [] render_trace).flatMap (Walk.blocks lib.toDoubleText)) := by
    cases trace with
    | some t => exact (covers_trace lib t).text_eq
    | none => rfl
  rw [metrics_text, snapshot_to_prometheus, (covers_snapshot lib host h).text_eq, htrace,
    metricsWalks, List.flatMap_append, blocksText_append]

/-- What a scrape gets is valid exactly if the rows of every collection are
told apart by their labels and, as soon as there is a traced process, there is
no other and one file descriptor at most. -/
theorem metrics_text_valid_iff (host : Host) (s : MetricsSnapshot D)
    (trace : Option (TraceSnapshot D)) (h : ∀ p ∈ s.providers, p = []) :
    ValidExposition (metrics_text lib host s trace) ↔ s.RowsApart ∧ TraceApart trace := by
  rw [metrics_text_eq lib h]
  exact (covers_metrics lib h).valid_iff families_nodup

end

/-! ## Two traced processes -/

/-- Doubles of which only the text is looked at. -/
def plainDoubles : Doubles Unit where
  toDoubleText := oneText
  ofNat _ := ()
  mul _ _ := ()
  div _ _ := ()
  lt _ _ := false
  fixed1 _ := [0x31]

def plainHost : Host where
  version := []
  kernel := []
  scheduler := []

/-- A snapshot in which nothing has been counted yet. -/
def idleSnapshot : MetricsSnapshot Unit where
  cpu := ⟨(), (), [], [], 0, 0, false, (), (), (), (), (), (), (), ()⟩
  pmu := ⟨false, false, 0, 0, 0, 0, 0, 0, 0, 0, 0, 0, (), (), (), (), (), (), [], [], [], [], false,
    false, [], (), ()⟩
  mem := ⟨0, 0, 0, 0, 0, 0, 0, ()⟩
  vram := ⟨[], 0, 0, (), [], false, (), false, (), false, (), false, (), false, (), ()⟩
  net := ⟨[], (), ()⟩
  disk := ⟨[], (), ()⟩
  mounts := []
  providers := []
  thermal := ⟨false, (), false, (), false, (), false, (), []⟩
  total_processes := 0
  running_processes := 0
  state_sleeping := 0
  state_zombie := 0
  total_threads := 0
  top_procs := []

/-- A trace of these processes, before anything else has been seen of them. -/
def processTrace (pids : List Int32) : TraceSnapshot Unit where
  procs := pids.map fun pid => ⟨pid, 1, true, false, 0, 0, 0, 0, [], []⟩
  threads := []
  fds := []
  ntsync_events := []
  sched_op_total _ := 0
  mig_intra_domain := 0
  mig_cross_domain := 0
  mig_unknown_domain := 0
  mig_intra_wake := 0
  mig_intra_steal := 0
  mig_cross_wake := 0
  mig_cross_steal := 0
  waiting_for_match := false

theorem idle_apart : idleSnapshot.RowsApart := by
  constructor <;> simp [idleSnapshot]

/-- One process is fine. -/
theorem metrics_text_valid_one :
    ValidExposition (metrics_text plainDoubles plainHost idleSnapshot
      (some (processTrace [10]))) := by
  refine (metrics_text_valid_iff plainDoubles plainHost idleSnapshot
    (some (processTrace [10])) nofun).mpr ⟨idle_apart, ?_⟩
  rintro t ⟨⟩ -
  constructor <;> simp [processTrace]

/-- Two are not: `montauk_trace_process_info` has two `# HELP` lines. -/
theorem metrics_text_two_processes :
    ¬ ∀ (D : Type) (lib : Doubles D) (host : Host) (s : MetricsSnapshot D)
      (trace : Option (TraceSnapshot D)), (∀ p ∈ s.providers, p = []) →
      ValidExposition (metrics_text lib host s trace) := by
  intro hall
  have hproviders : ∀ p ∈ idleSnapshot.providers, p = [] := nofun
  have hvalid := hall Unit plainDoubles plainHost idleSnapshot (some (processTrace [10, 11]))
    hproviders
  rw [metrics_text_eq plainDoubles hproviders] at hvalid
  have hapart := ((covers_metrics plainDoubles hproviders).valid_iff families_nodup).mp hvalid
  have hone := (hapart.2 _ rfl (by simp [processTrace])).procs
  simp [processTrace] at hone

end Montauk.App
