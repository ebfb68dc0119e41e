import Mathlib.Data.Set.Defs
import Montauk.Tools.SyncReports

/-!
# The pairing report and the processes

`pairing` counts the waits and the signals on a descriptor number, whoever's
descriptor it is. What it counts on a number is what all processes do there
(`waits_aggAt`, `signalTotal_aggAt`), so a process is flagged as it would be alone if
and only if the others leave the comparison as it is. Where each process may
only use some numbers, that is so for every stream exactly if no number is
shared (`pairing_separate_iff`).
-/

namespace Montauk.Tools

open Timeline Trace

/-! ## What a record does to a descriptor -/

/-- A wait or a signal on a descriptor of a process. -/
structure FdTouch where
  pid : UInt32
  fd : Int32
  /-- The signal; nothing for a wait. -/
  signal : Option NtsyncOp

def FdTouch.isWait (t : FdTouch) : Bool := t.signal.isNone

/-- What it adds to the aggregate of its descriptor. -/
def FdTouch.add (t : FdTouch) (a : PairAgg) : PairAgg :=
  match t.signal with
  | none => { a with waits := a.waits + 1 }
  | some op => a.signal op

/-- What an event does: a completed wait waits on each of its descriptors. -/
def ntsyncTouches (e : NtsyncEvent) : List FdTouch :=
  if e.op.isWait then
    if e.result = -999 then []
    else (e.waitFds.take (min e.waitCount.toNat ntsyncMaxWaitFds)).map fun fd => ⟨e.pid, fd.toInt32, none⟩
  else if isSignalOp e.op then [⟨e.pid, e.fd, some e.op⟩]
  else []

def TraceRecord.fdTouches : TraceRecord → List FdTouch
  | .sync (.ntsync e) => ntsyncTouches e
  | _ => []

/-- All that the stream does to descriptors. -/
def fdTouches (trace : List TraceRecord) : List FdTouch := trace.flatMap TraceRecord.fdTouches

def waitsOn (fd : Int32) (ts : List FdTouch) : Nat := ts.countP fun t => t.fd = fd && t.isWait

def signalsOn (fd : Int32) (ts : List FdTouch) : Nat := ts.countP fun t => t.fd = fd && !t.isWait

/-! ## What the report keeps -/

/-- The aggregate of a descriptor number. -/
def PairingReport.at (aggs : PairingReport) (fd : Int32) : PairAgg := (rowOf fd aggs).getD {}

def PairingReport.flaggedFds (aggs : PairingReport) : List Int32 :=
  (aggs.byFd.filter fun r => r.2.flagged).map Prod.fst

theorem fold_touches (aggs : PairingReport) (r : TraceRecord) :
    aggs.fold r = r.fdTouches.foldl (fun aggs t => adjust t.fd {} t.add aggs) aggs := by
  cases r with
  | sync e =>
    cases e with
    | io e => rfl
    | ntsync e =>
      rw [PairingReport.fold, TraceRecord.fdTouches, ntsyncTouches]
      by_cases hw : e.op.isWait = true
      · rw [if_pos hw, if_pos hw]
        by_cases hres : e.result = -999
        · rw [if_pos hres, if_pos hres]
          rfl
        · rw [if_neg hres, if_neg hres, List.foldl_map]
          rfl
      · rw [if_neg hw, if_neg hw]
        by_cases hs : isSignalOp e.op = true
        · rw [if_pos hs, if_pos hs]
          rfl
        · rw [if_neg hs, if_neg hs]
          rfl
  | _ => rfl

theorem pairing_fold (trace : List TraceRecord) : trace.foldl PairingReport.fold [] =
    (fdTouches trace).foldl (fun aggs t => adjust t.fd {} t.add aggs) [] := by
  rw [fdTouches, List.foldl_flatMap]
  congr 1
  funext aggs r
  exact fold_touches aggs r

theorem signal_of_mem {trace : List TraceRecord} {t : FdTouch} (ht : t ∈ fdTouches trace) {op : NtsyncOp}
    (hop : t.signal = some op) : isSignalOp op = true := by
  obtain ⟨r, -, ht⟩ := List.mem_flatMap.mp ht
  cases r with
  | sync e =>
    cases e with
    | io e => exact absurd ht List.not_mem_nil
    | ntsync e =>
      rw [TraceRecord.fdTouches, ntsyncTouches] at ht
      split at ht
      · split at ht
        · exact absurd ht List.not_mem_nil
        · obtain ⟨fd, -, rfl⟩ := List.mem_map.mp ht
          cases hop
      · split at ht
        · rename_i hs
          obtain rfl := List.mem_singleton.mp ht
          obtain rfl := Option.some_inj.mp hop
          exact hs
        · exact absurd ht List.not_mem_nil
  | _ => exact absurd ht List.not_mem_nil

theorem waits_signal (op : NtsyncOp) (a : PairAgg) : (a.signal op).waits = a.waits := by
  cases op <;> rfl

theorem signalTotal_signal {op : NtsyncOp} (h : isSignalOp op = true) (a : PairAgg) :
    (a.signal op).signalTotal = a.signalTotal + 1 := by
  rw [PairAgg.signalTotal, PairAgg.signalTotal]
  cases op with
  | eventSet | eventReset | semRelease | mutexUnlock =>
    simp only [PairAgg.signal]
    omega
  | _ => exact absurd h Bool.false_ne_true

/-- The aggregate that some touches leave. -/
def aggOfTouches (ts : List FdTouch) : PairAgg := ts.foldl (fun a t => t.add a) {}

theorem aggOfTouches_counts {ts : List FdTouch} (h : ∀ t ∈ ts, ∀ op, t.signal = some op → isSignalOp op = true) :
    (aggOfTouches ts).waits = ts.countP FdTouch.isWait ∧
      (aggOfTouches ts).signalTotal = ts.countP fun t => !t.isWait := by
  induction ts using List.reverseRecOn with
  | nil => exact ⟨rfl, rfl⟩
  | append_singleton ts t ih =>
    obtain ⟨hwaits, hsignals⟩ := ih fun t ht => h t (List.mem_append_left _ ht)
    have hlast := h t (List.mem_append_right _ List.mem_cons_self)
    have hstep : aggOfTouches (ts ++ [t]) = t.add (aggOfTouches ts) := List.foldl_concat ..
    rw [hstep, FdTouch.add, List.countP_append, List.countP_append, List.countP_singleton, List.countP_singleton,
      ← hwaits, ← hsignals, FdTouch.isWait]
    cases hs : t.signal with
    | none => exact ⟨rfl, rfl⟩
    | some op => exact ⟨waits_signal op _, signalTotal_signal (hlast op hs) _⟩

theorem counts_at (trace : List TraceRecord) (fd : Int32) :
    (PairingReport.at (trace.foldl PairingReport.fold []) fd).waits = waitsOn fd (fdTouches trace) ∧
      (PairingReport.at (trace.foldl PairingReport.fold []) fd).signalTotal = signalsOn fd (fdTouches trace) := by
  have hat : PairingReport.at (trace.foldl PairingReport.fold []) fd =
      aggOfTouches ((fdTouches trace).filter fun t => t.fd = fd) := by
    rw [PairingReport.at, pairing_fold, getD_rowOf_foldl_adjust]
    rfl
  have hkinds : ∀ t ∈ (fdTouches trace).filter fun t => t.fd = fd,
      ∀ op, t.signal = some op → isSignalOp op = true := fun t ht op hop =>
    signal_of_mem (List.mem_filter.mp ht).1 hop
  obtain ⟨hwaits, hsignals⟩ := aggOfTouches_counts hkinds
  rw [hat, hwaits, hsignals, List.countP_filter, List.countP_filter, waitsOn, signalsOn]
  exact ⟨List.countP_congr fun t _ => by rw [Bool.and_comm], List.countP_congr fun t _ => by rw [Bool.and_comm]⟩

theorem mem_flaggedFds {trace : List TraceRecord} {fd : Int32} :
    fd ∈ (trace.foldl PairingReport.fold []).flaggedFds ↔
      kPairingMinWaits ≤ waitsOn fd (fdTouches trace) ∧
        signalsOn fd (fdTouches trace) * kPairingWaitSignalRatio < waitsOn fd (fdTouches trace) := by
  obtain ⟨hwaits, hsignals⟩ := counts_at trace fd
  have hflag : fd ∈ (trace.foldl PairingReport.fold []).flaggedFds ↔
      (PairingReport.at (trace.foldl PairingReport.fold []) fd).flagged = true := by
    rw [PairingReport.flaggedFds, PairingReport.byFd, PairingReport.at, pairing_fold, getD_rowOf_foldl_adjust,
      List.mem_map]
    constructor
    · rintro ⟨row, hrow, rfl⟩
      obtain ⟨hrow, hflagged⟩ := List.mem_filter.mp hrow
      rw [List.mem_mergeSort, mem_foldl_adjust] at hrow
      rw [← hrow.2]
      exact hflagged
    · intro hflagged
      refine ⟨(fd, ((fdTouches trace).filter fun t => t.fd = fd).foldl (fun a t => t.add a) {}), ?_, rfl⟩
      refine List.mem_filter.mpr ⟨?_, hflagged⟩
      rw [List.mem_mergeSort, mem_foldl_adjust]
      refine ⟨?_, rfl⟩
      by_contra hnone
      have hnil : ((fdTouches trace).filter fun t => t.fd = fd) = [] :=
        List.filter_eq_nil_iff.mpr fun t ht hfd => hnone ⟨t, ht, of_decide_eq_true hfd⟩
      rw [hnil] at hflagged
      exact absurd hflagged Bool.false_ne_true
  rw [hflag, PairAgg.flagged, hwaits, hsignals, Bool.and_eq_true, decide_eq_true_eq, decide_eq_true_eq]

/-! ## One process among others -/

def TraceRecord.ofProcess (pid : UInt32) (r : TraceRecord) : Bool := r.fdTouches.all fun t => t.pid = pid

/-- The stream without the events of the other processes. -/
def alone (pid : UInt32) (trace : List TraceRecord) : List TraceRecord :=
  trace.filter fun r => r.ofProcess pid

/-- The process waits on the number or signals it. -/
def UsesFd (trace : List TraceRecord) (pid : UInt32) (fd : Int32) : Prop :=
  ∃ t ∈ fdTouches trace, t.pid = pid ∧ t.fd = fd

/-- The objects of a process that are flagged. -/
def FlaggedFor (trace : List TraceRecord) (pid : UInt32) (fd : Int32) : Prop :=
  UsesFd trace pid fd ∧ fd ∈ (trace.foldl PairingReport.fold []).flaggedFds

/-- What is flagged for a process does not hang on the others. -/
def PairingSeparate (trace : List TraceRecord) : Prop :=
  ∀ pid fd, FlaggedFor trace pid fd ↔ FlaggedFor (alone pid trace) pid fd

/-- What a process does to descriptors, and what the others do. -/
def touchesOf (pid : UInt32) (ts : List FdTouch) : List FdTouch := ts.filter fun t => t.pid = pid
def touchesOfOthers (pid : UInt32) (ts : List FdTouch) : List FdTouch := ts.filter fun t => !decide (t.pid = pid)

/-- Waits and signals of others on a number leave the comparison as it is: a
starved object stays starved, any other has too few waits or signals enough. -/
abbrev Undisturbed (waits signals otherWaits otherSignals : Nat) : Prop :=
  if kPairingMinWaits ≤ waits ∧ signals * kPairingWaitSignalRatio < waits then
    (signals + otherSignals) * kPairingWaitSignalRatio < waits + otherWaits
  else
    waits + otherWaits < kPairingMinWaits ∨
      waits + otherWaits ≤ (signals + otherSignals) * kPairingWaitSignalRatio

/-- On each number that a process uses, the others do not disturb it. -/
def NumbersUndisturbed (trace : List TraceRecord) : Prop :=
  ∀ pid fd, UsesFd trace pid fd →
    Undisturbed (waitsOn fd (touchesOf pid (fdTouches trace))) (signalsOn fd (touchesOf pid (fdTouches trace)))
      (waitsOn fd (touchesOfOthers pid (fdTouches trace))) (signalsOn fd (touchesOfOthers pid (fdTouches trace)))

def Within (fds : UInt32 → Set Int32) (trace : List TraceRecord) : Prop :=
  ∀ t ∈ fdTouches trace, t.fd ∈ fds t.pid

theorem pid_eq_of_mem {r : TraceRecord} {t u : FdTouch} (ht : t ∈ r.fdTouches) (hu : u ∈ r.fdTouches) :
    t.pid = u.pid := by
  cases r with
  | sync e =>
    cases e with
    | io e => exact absurd ht List.not_mem_nil
    | ntsync e =>
      have hpid : ∀ v ∈ ntsyncTouches e, v.pid = e.pid := by
        intro v hv
        rw [ntsyncTouches] at hv
        split at hv
        · split at hv
          · exact absurd hv List.not_mem_nil
          · obtain ⟨fd, -, rfl⟩ := List.mem_map.mp hv
            rfl
        · split at hv
          · obtain rfl := List.mem_singleton.mp hv
            rfl
          · exact absurd hv List.not_mem_nil
      exact (hpid t ht).trans (hpid u hu).symm
  | _ => exact absurd ht List.not_mem_nil

theorem fdTouches_alone (pid : UInt32) (trace : List TraceRecord) :
    fdTouches (alone pid trace) = touchesOf pid (fdTouches trace) := by
  induction trace with
  | nil => rfl
  | cons r trace ih =>
    rw [alone] at ih
    have hsplit : touchesOf pid (fdTouches (r :: trace)) =
        touchesOf pid r.fdTouches ++ touchesOf pid (fdTouches trace) := List.filter_append ..
    rw [alone, hsplit]
    by_cases hall : r.ofProcess pid = true
    · have hkeep : touchesOf pid r.fdTouches = r.fdTouches :=
        List.filter_eq_self.mpr (List.all_eq_true.mp hall)
      rw [List.filter_cons_of_pos hall, hkeep, ← ih]
      rfl
    · have hdrop : touchesOf pid r.fdTouches = [] := by
        refine List.filter_eq_nil_iff.mpr fun t ht htp => hall (List.all_eq_true.mpr fun u hu => ?_)
        exact decide_eq_true ((pid_eq_of_mem hu ht).trans (of_decide_eq_true htp))
      rw [List.filter_cons_of_neg hall, hdrop, ih]
      rfl

/-- The counts of a number are those of the process and those of the others. -/
theorem waitsOn_eq (pid : UInt32) (fd : Int32) (ts : List FdTouch) :
    waitsOn fd ts = waitsOn fd (touchesOf pid ts) + waitsOn fd (touchesOfOthers pid ts) :=
  List.countP_eq_countP_filter_add ..

theorem signalsOn_eq (pid : UInt32) (fd : Int32) (ts : List FdTouch) :
    signalsOn fd ts = signalsOn fd (touchesOf pid ts) + signalsOn fd (touchesOfOthers pid ts) :=
  List.countP_eq_countP_filter_add ..

theorem usesFd_alone {trace : List TraceRecord} {pid : UInt32} {fd : Int32} :
    UsesFd (alone pid trace) pid fd ↔ UsesFd trace pid fd := by
  rw [UsesFd, fdTouches_alone]
  constructor
  · rintro ⟨t, ht, hpid, hfd⟩
    exact ⟨t, (List.mem_filter.mp ht).1, hpid, hfd⟩
  · rintro ⟨t, ht, hpid, hfd⟩
    exact ⟨t, List.mem_filter.mpr ⟨ht, decide_eq_true hpid⟩, hpid, hfd⟩

theorem undisturbed_iff {w s w' s' : Nat} : Undisturbed w s w' s' ↔
    ((kPairingMinWaits ≤ w + w' ∧ (s + s') * kPairingWaitSignalRatio < w + w') ↔
      (kPairingMinWaits ≤ w ∧ s * kPairingWaitSignalRatio < w)) := by
  rw [Undisturbed]
  split
  · rename_i h
    refine ⟨fun hlt => iff_of_true ⟨Nat.le_add_right_of_le h.1, hlt⟩ h, fun hiff => (hiff.mpr h).2⟩
  · rename_i h
    constructor
    · intro hor
      refine iff_of_false (fun hboth => ?_) h
      rcases hor with hfew | hmany
      · exact absurd hboth.1 (Nat.not_le.mpr hfew)
      · exact absurd hboth.2 (Nat.not_lt.mpr hmany)
    · intro hiff
      by_contra hor
      obtain ⟨hfew, hmany⟩ := not_or.mp hor
      exact h (hiff.mp ⟨Nat.not_lt.mp hfew, Nat.not_le.mp hmany⟩)

theorem pairingSeparate_iff_undisturbed (trace : List TraceRecord) :
    PairingSeparate trace ↔ NumbersUndisturbed trace := by
  refine forall_congr' fun pid => forall_congr' fun fd => ?_
  rw [FlaggedFor, FlaggedFor, usesFd_alone, mem_flaggedFds, mem_flaggedFds, fdTouches_alone, waitsOn_eq pid,
    signalsOn_eq pid fd (fdTouches trace), undisturbed_iff]
  exact and_congr_right_iff

/-! ## Numbers of their own -/

theorem undisturbed_of_own {fds : UInt32 → Set Int32} (hown : ∀ p q fd, fd ∈ fds p → fd ∈ fds q → p = q)
    {trace : List TraceRecord} (h : Within fds trace) : NumbersUndisturbed trace := by
  rintro pid fd ⟨t, ht, rfl, rfl⟩
  -- nobody else touches the number
  have hnone : ∀ u ∈ touchesOfOthers t.pid (fdTouches trace), u.fd ≠ t.fd := by
    intro u hu hfd
    obtain ⟨hu, hother⟩ := List.mem_filter.mp hu
    have hsame : u.pid = t.pid := hown u.pid t.pid t.fd (hfd ▸ h u hu) (h t ht)
    rw [hsame, decide_eq_true rfl] at hother
    exact absurd hother Bool.false_ne_true
  have hwaits : waitsOn t.fd (touchesOfOthers t.pid (fdTouches trace)) = 0 :=
    List.countP_eq_zero.mpr fun u hu htouch =>
      hnone u hu (of_decide_eq_true (Bool.and_eq_true_iff.mp htouch).1)
  have hsignals : signalsOn t.fd (touchesOfOthers t.pid (fdTouches trace)) = 0 :=
    List.countP_eq_zero.mpr fun u hu htouch =>
      hnone u hu (of_decide_eq_true (Bool.and_eq_true_iff.mp htouch).1)
  rw [hwaits, hsignals, undisturbed_iff, Nat.add_zero, Nat.add_zero]

/-- A completed wait on one descriptor, and a signal. -/
def waitOn (pid : UInt32) (fd : Int32) : TraceRecord :=
  .sync (.ntsync { pid, tid := pid, op := .waitAny, fd := 3, result := 0, timestampNs := 0, arg0 := 0, arg1 := 0,
                   timeoutNs := 0, waitCount := 1, waitIndex := 0, waitOwner := 0, waitAlert := 0,
                   waitFds := [fd.toUInt32], objPtr := 0, waitObjs := [] })
def setOn (pid : UInt32) (fd : Int32) : TraceRecord :=
  .sync (.ntsync { pid, tid := pid, op := .eventSet, fd, result := 0, timestampNs := 0, arg0 := 0, arg1 := 0,
                   timeoutNs := 0, waitCount := 0, waitIndex := 0, waitOwner := 0, waitAlert := 0,
                   waitFds := [], objPtr := 0, waitObjs := [] })

/-- One process waits in vain, and another one signals an object of its own
under the same number. -/
def sharedNumber (p q : UInt32) (fd : Int32) : List TraceRecord :=
  List.replicate 1000 (waitOn p fd) ++ List.replicate 10 (setOn q fd)

theorem fdTouches_sharedNumber (p q : UInt32) (fd : Int32) : fdTouches (sharedNumber p q fd) =
    List.replicate 1000 ⟨p, fd, none⟩ ++ List.replicate 10 ⟨q, fd, some .eventSet⟩ := by
  have hwait : (waitOn p fd).fdTouches = [⟨p, fd, none⟩] := by
    have hfd : fd.toUInt32.toInt32 = fd := fd.toInt32_toUInt32
    rw [waitOn, TraceRecord.fdTouches, ntsyncTouches]
    dsimp only
    rw [if_pos (by decide), if_neg (by decide)]
    exact congrArg (fun fd => [(⟨p, fd, none⟩ : FdTouch)]) hfd
  have hset : (setOn q fd).fdTouches = [⟨q, fd, some .eventSet⟩] := rfl
  rw [fdTouches, sharedNumber, List.flatMap_append, List.flatMap_replicate, List.flatMap_replicate, hwait, hset,
    List.flatten_replicate_singleton, List.flatten_replicate_singleton]

theorem counts_waits (pid : UInt32) (fd : Int32) (n : Nat) :
    waitsOn fd (List.replicate n ⟨pid, fd, none⟩) = n ∧ signalsOn fd (List.replicate n ⟨pid, fd, none⟩) = 0 := by
  simp [waitsOn, signalsOn, FdTouch.isWait, List.countP_replicate]

theorem counts_signals (pid : UInt32) (fd : Int32) (n : Nat) :
    waitsOn fd (List.replicate n ⟨pid, fd, some .eventSet⟩) = 0 ∧
      signalsOn fd (List.replicate n ⟨pid, fd, some .eventSet⟩) = n := by
  simp [waitsOn, signalsOn, FdTouch.isWait, List.countP_replicate]

theorem touches_two {p q : UInt32} (hpq : p ≠ q) (fd : Int32) (n m : Nat) :
    touchesOf p (List.replicate n ⟨p, fd, none⟩ ++ List.replicate m ⟨q, fd, some .eventSet⟩) =
        List.replicate n ⟨p, fd, none⟩ ∧
      touchesOfOthers p (List.replicate n ⟨p, fd, none⟩ ++ List.replicate m ⟨q, fd, some .eventSet⟩) =
        List.replicate m ⟨q, fd, some .eventSet⟩ := by
  simp [touchesOf, touchesOfOthers, List.filter_append, hpq.symm]

theorem not_undisturbed_sharedNumber {p q : UInt32} (hpq : p ≠ q) (fd : Int32) :
    ¬ NumbersUndisturbed (sharedNumber p q fd) := by
  intro h
  have huses : UsesFd (sharedNumber p q fd) p fd := by
    refine ⟨⟨p, fd, none⟩, ?_, rfl, rfl⟩
    rw [fdTouches_sharedNumber]
    exact List.mem_append_left _ (List.mem_replicate.mpr ⟨by decide, rfl⟩)
  have hundisturbed := h p fd huses
  obtain ⟨hown, hothers⟩ := touches_two hpq fd 1000 10
  obtain ⟨hwaits, hnoSignals⟩ := counts_waits p fd 1000
  obtain ⟨hnoWaits, hsignals⟩ := counts_signals q fd 10
  rw [fdTouches_sharedNumber, hown, hothers, hwaits, hnoSignals, hnoWaits, hsignals] at hundisturbed
  exact absurd hundisturbed (by decide)

/-- **`pairing` and the processes.** A stream is read the same for each process
with and without the others if and only if on no number that a process uses the
others disturb the comparison of its waits and signals; and processes that keep
to given numbers are apart in all their streams if and only if no number is
given to two of them. -/
theorem pairing_separate_iff (trace : List TraceRecord) (fds : UInt32 → Set Int32) :
    (PairingSeparate trace ↔ NumbersUndisturbed trace) ∧
      ((∀ trace', Within fds trace' → PairingSeparate trace') ↔
        ∀ p q fd, fd ∈ fds p → fd ∈ fds q → p = q) := by
  refine ⟨pairingSeparate_iff_undisturbed trace, fun hsep p q fd hp hq => ?_, fun hown trace' h => ?_⟩
  · by_contra hpq
    refine not_undisturbed_sharedNumber hpq fd ((pairingSeparate_iff_undisturbed _).mp (hsep _ ?_))
    intro t ht
    rw [fdTouches_sharedNumber] at ht
    rcases List.mem_append.mp ht with ht | ht
    · obtain rfl := (List.mem_replicate.mp ht).2
      exact hp
    · obtain rfl := (List.mem_replicate.mp ht).2
      exact hq
  · exact (pairingSeparate_iff_undisturbed trace').mpr (undisturbed_of_own hown h)

/-- Process 1000 waits a thousand times on descriptor 5, which nobody sets, and
process 2000 sets its descriptor 5 ten times. -/
theorem not_pairingSeparate_shared : ¬ ∀ trace, PairingSeparate trace := fun h =>
  not_undisturbed_sharedNumber (by decide) 5
    ((pairingSeparate_iff_undisturbed (sharedNumber 1000 2000 5)).mp (h _))

end Montauk.Tools
