import Montauk.Par.DequePool

/-!
# Parallel loops

What runs on the pool of `dfspool.c`. `Engine.traced` writes down which frames
were handed to the pool and which have been started: under every order of the
atomic operations these are the same ones in the end, each as often
(`dfsPool_once`). `sublimation_parallel_for` pushes one frame for each index,
and `sublimation_scan` falls back on a plain loop; either way a call that returns
has called the body once for each index, and one that is still at work has
called it no more than once (`sublimationScan_once`).
-/

namespace Montauk.Par

open Machine
open Montauk.Sort (blocks)

/-! ## One frame for each index -/

/-- Where a call of `sub_pfor_frame` is: in front of the push of index `i` of
`n`, or of the call of the body. -/
inductive PforCall (β : Type) where
  | push (base : β) (n i : Nat)
  | body (i : Nat)

section
variable {β : Type}

/-- `sub_pfor_frame`. The shared state is the list of the indices that the body
has been called with. -/
def pforEngine : Engine (List Nat) (DfsFrame β) (PforCall β) where
  start f := if f.depth = 0 then .push f.base f.n 0 else .body f.n
  step calls
    | .push base n i =>
        if i < n then some (calls, .push ⟨base, i, 1⟩ (.push base n (i + 1))) else some (calls, .done)
    | .body i => some (calls ++ [i], .done)

/-- The indices that a call has still to see to. -/
def PforCall.left : PforCall β → List Nat
  | .push _ n i => List.range' i (n - i)
  | .body i => [i]

/-- What the frames of a loop over `n` indices keep. -/
def EachOnce (n : Nat) (calls : List Nat) (pending : List (PforCall β)) : Prop :=
  (calls ++ pending.flatMap PforCall.left).Perm (List.range n)

theorem pforEngine_keeps (n : Nat) : (pforEngine (β := β)).Keeps (EachOnce n) where
  perm hperm h := ((hperm.flatMap_right _).symm.append_left _).trans h
  step := by
    intro calls w pending h
    rw [EachOnce, List.flatMap_cons] at h
    cases w with
    | push base m i =>
        by_cases hi : i < m
        · refine ⟨calls, .push ⟨base, i, 1⟩ (.push base m (i + 1)), if_pos hi, ?_⟩
          have hsplit : List.range' i (m - i) = i :: List.range' (i + 1) (m - (i + 1)) := by
            rw [show m - i = m - (i + 1) + 1 by omega, List.range'_succ]
          rw [PforCall.left, hsplit] at h
          exact h
        · refine ⟨calls, .done, if_neg hi, ?_⟩
          rw [PforCall.left, Nat.sub_eq_zero_of_le (not_lt.mp hi)] at h
          exact h
    | body i =>
        refine ⟨calls ++ [i], .done, rfl, ?_⟩
        rw [EachOnce, List.append_assoc]
        exact h

end

/-! ## Frames in and out -/

/-- A shared state, with the frames handed to the pool and those started. -/
structure Traced (S F : Type) where
  shared : S
  pushed : List F
  started : List F

section
variable {S F W : Type}

def Action.mapWork {V : Type} (g : W → V) : Action F W → Action F V
  | .done => .done
  | .cont w => .cont (g w)
  | .push f w => .push f (g w)

def Action.frame : Action F W → List F
  | .push f _ => [f]
  | _ => []

/-- A frame function that writes down its frames. A call that has not started
yet is its frame. -/
def Engine.traced (E : Engine S F W) : Engine (Traced S F) F (W ⊕ F) where
  start := .inr
  step t w :=
    let (x, started) := match w with
      | .inl x => (x, t.started)
      | .inr f => (E.start f, t.started ++ [f])
    (E.step t.shared x).map fun (s, act) => (⟨s, t.pushed ++ act.frame, started⟩, act.mapWork .inl)

def Engine.untraced (E : Engine S F W) : W ⊕ F → W := Sum.elim id E.start

/-- What the traced frame function keeps. -/
def Engine.Counted (E : Engine S F W) (I : S → List W → Prop) (t : Traced S F) (pending : List (W ⊕ F)) : Prop :=
  I t.shared (pending.map E.untraced) ∧ t.pushed.Perm (t.started ++ pending.filterMap Sum.getRight?)

variable {E : Engine S F W} {I : S → List W → Prop}

theorem Action.pending_mapWork (act : Action F W) :
    ((act.mapWork .inl).pending E.traced).map E.untraced = act.pending E ∧
      ((act.mapWork .inl).pending E.traced).filterMap Sum.getRight? = act.frame := by
  cases act <;> exact ⟨rfl, rfl⟩

/-- The frames that are started were pushed, whatever the frame function does. -/
theorem Engine.Keeps.traced (hE : E.Keeps I) : E.traced.Keeps (E.Counted I) where
  perm hperm h := ⟨hE.perm (hperm.map _) h.1, h.2.trans ((hperm.filterMap _).append_left _)⟩
  step := by
    rintro t w pending ⟨hI, hframes⟩
    obtain ⟨s', act, hstep, hkeeps⟩ := hE.step (show I t.shared (E.untraced w :: pending.map E.untraced) from hI)
    obtain ⟨hmap, hframe⟩ := act.pending_mapWork (E := E)
    have hcounted : ∀ {started : List F}, t.pushed.Perm (started ++ pending.filterMap Sum.getRight?) →
        E.Counted I ⟨s', t.pushed ++ act.frame, started⟩ ((act.mapWork .inl).pending E.traced ++ pending) := by
      intro started hperm
      refine ⟨?_, ?_⟩
      · rw [List.map_append, hmap]
        exact hkeeps
      · rw [List.filterMap_append, hframe]
        exact (hperm.append_right _).trans (by
          rw [List.append_assoc]
          exact List.perm_append_comm.append_left _)
    cases w with
    | inl x =>
        refine ⟨⟨s', t.pushed ++ act.frame, t.started⟩, act.mapWork .inl, ?_, hcounted hframes⟩
        exact congrArg (Option.map _) hstep
    | inr f =>
        refine ⟨⟨s', t.pushed ++ act.frame, t.started ++ [f]⟩, act.mapWork .inl, ?_, hcounted ?_⟩
        · exact congrArg (Option.map _) hstep
        · rw [List.append_assoc]
          exact hframes

end

section
variable {S β W : Type} {E : Engine S (DfsFrame β) W} {I : S → List W → Prop} {nd nw : Nat}

/-- The frames that have not been started: in a deque, or counted and not
pushed. -/
def DfsPool.waiting (E : Engine S (DfsFrame β) W) (nd nw : Nat)
    (p : DfsPool (Traced S (DfsFrame β)) β (W ⊕ DfsFrame β)) : List (DfsFrame β) :=
  (p.pending E.traced nd nw).filterMap Sum.getRight?

/-- **Every frame is executed once.** In every order of the atomic operations of
any number of workers, whatever allocations fail, the frames handed to the pool
are those started and those that wait; no worker leaves before all of them have
been started and all calls have returned; and every worker that has not left can
go on. -/
theorem dfsPool_once (hE : E.Keeps I) {s : S} {root : DfsFrame β} (hroot : I s [E.start root]) (hnw : 0 < nw)
    (hnd : nw ≤ nd) {buf : Nat → Nat → DfsFrame β} {moves : List (Fin nw × Luck β)}
    {p : DfsPool (Traced S (DfsFrame β)) β (W ⊕ DfsFrame β)}
    (hrun : run (fun p (m : Fin nw × Luck β) => DfsPool.step E.traced nd p m.1 m.2)
      (DfsPool.start buf ⟨s, [root], []⟩ root) moves = some p) :
    p.shared.pushed.Perm (p.shared.started ++ p.waiting E nd nw) ∧
      (∀ w < nw, (p.workers w).pc = .gone →
        p.shared.pushed.Perm p.shared.started ∧ (∀ u < nw, (p.workers u).stack = []) ∧ I p.shared.shared []) ∧
      ∀ w < nw, (p.workers w).pc ≠ .gone → ∀ luck, (p.step E.traced nd w luck).isSome := by
  obtain ⟨⟨hI, hperm⟩, hgone, hgo⟩ := dfsPool_safe hE.traced
    (I := E.Counted I) (s := ⟨s, [root], []⟩) ⟨hroot, .refl _⟩ hnw hnd hrun
  refine ⟨hperm, fun w hw hpc => ?_, hgo⟩
  obtain ⟨hframes, hstacks⟩ := hgone w hw hpc
  rw [DfsPool.pending_nil ⟨hframes, hstacks⟩] at hI hperm
  exact ⟨hperm.trans (.of_eq (List.append_nil _)), hstacks, hI⟩

end

/-- The steps of a pool whose one worker does everything, with no memory to grow. -/
def alone (k : Nat) : List (Fin 1 × Luck Unit) := List.replicate k (0, ⟨none, false⟩)

def WorkerPc.isGone {β : Type} : WorkerPc β → Bool
  | .gone => true
  | _ => false

theorem WorkerPc.eq_gone {β : Type} {pc : WorkerPc β} (h : pc.isGone = true) : pc = .gone := by
  cases pc <;> first | rfl | cases h

/-- A loop over one index, to its end. -/
theorem dfsPool_once_one : ∃ p,
    run (fun p (m : Fin 1 × Luck Unit) => DfsPool.step pforEngine.traced 1 p m.1 m.2)
      (DfsPool.start (fun _ _ => ⟨(), 0, 0⟩) ⟨[], [⟨(), 1, 0⟩], []⟩ ⟨(), 1, 0⟩) (alone 41) = some p ∧
    p.shared.pushed.Perm p.shared.started ∧ (∀ u < 1, (p.workers u).stack = []) ∧
    EachOnce 1 p.shared.shared ([] : List (PforCall Unit)) := by
  have hend : ((run (fun p (m : Fin 1 × Luck Unit) => DfsPool.step pforEngine.traced 1 p m.1 m.2)
      (DfsPool.start (fun _ _ => ⟨(), 0, 0⟩) ⟨[], [⟨(), 1, 0⟩], []⟩ ⟨(), 1, 0⟩) (alone 41)).map
        fun p => (p.workers 0).pc.isGone) = some true := by decide +kernel
  obtain ⟨p, hrun, hgone⟩ := Option.map_eq_some_iff.mp hend
  have hroot : EachOnce 1 [] [(pforEngine (β := Unit)).start ⟨(), 1, 0⟩] := by
    unfold EachOnce
    decide
  exact ⟨p, hrun, (dfsPool_once (pforEngine_keeps 1) hroot Nat.one_pos (le_refl _) hrun).2.1 0 Nat.one_pos
    (WorkerPc.eq_gone hgone)⟩

/-! ## `sub_dfs_run` and its callers -/

section
variable {β : Type} {base : β}

/-- How a call of `sub_dfs_run` can end, with `numWorkers` asked for: the deques
cannot be allocated, or the workers that could be started, the caller if none
could, have all left. -/
inductive SubDfsRun {S W : Type} (E : Engine S (DfsFrame β) W) (numWorkers : Nat) (s : S) (root : DfsFrame β) :
    Bool → S → Prop
  | failed : SubDfsRun E numWorkers s root false s
  | drained (nd nw started : Nat) (hnd : nd = min 64 (max 1 numWorkers)) (hnw : nw = max 1 (min started nd))
      (buf : Nat → Nat → DfsFrame β) (moves : List (Fin nw × Luck β)) (p : DfsPool S β W)
      (hrun : run (fun p (m : Fin nw × Luck β) => DfsPool.step E nd p m.1 m.2) (DfsPool.start buf s root) moves
        = some p)
      (hgone : ∀ w < nw, (p.workers w).pc = .gone) : SubDfsRun E numWorkers s root true p.shared

theorem SubDfsRun.keeps {S W : Type} {E : Engine S (DfsFrame β) W} {I : S → List W → Prop} (hE : E.Keeps I)
    {numWorkers : Nat} {s s' : S} {root : DfsFrame β} (hroot : I s [E.start root])
    (h : SubDfsRun E numWorkers s root true s') : I s' [] := by
  cases h with
  | drained nd nw started hnd hnw buf moves p hrun hgone =>
      have hpos : 0 < nw := by omega
      obtain ⟨hI, hleft, -⟩ := dfsPool_safe hE hroot hpos (by omega) hrun
      rw [DfsPool.pending_nil (hleft 0 hpos (hgone 0 hpos))] at hI
      exact hI

/-- How a call of `sublimation_parallel_for` can end: what it returns, and the
indices that the body was called with. `cpus` is what `sub_default_num_workers`
finds. -/
inductive SublimationParallelFor (cpus n numThreads : Nat) : Bool → List Nat → Prop
  | nothing (h : n = 0) : SublimationParallelFor cpus n numThreads true []
  | ran (h : n ≠ 0) (ok : Bool) (calls : List Nat)
      (hrun : SubDfsRun pforEngine (if numThreads ≠ 0 then numThreads else cpus) [] (⟨(), n, 0⟩ : DfsFrame Unit)
        ok calls) :
      SublimationParallelFor cpus n numThreads ok calls

/-- `SUB_SCAN_MIN_BYTES`. -/
def scanMinBytes : Nat := 2 * 1024 * 1024

/-- How a call of `sublimation_scan` can end: whether it ran on the pool, and
the indices that the body was called with. -/
inductive SublimationScan (cpus nrec totalBytes numThreads : Nat) : Bool → List Nat → Prop
  | nothing (h : nrec = 0) : SublimationScan cpus nrec totalBytes numThreads false []
  | parallel (h : nrec ≠ 0)
      (hgate : nrec ≥ 2 ∧ (if numThreads ≠ 0 then numThreads else cpus) ≥ 2 ∧ totalBytes ≥ scanMinBytes)
      (calls : List Nat)
      (hrun : SublimationParallelFor cpus nrec (if numThreads ≠ 0 then numThreads else cpus) true calls) :
      SublimationScan cpus nrec totalBytes numThreads true calls
  -- the pool could not start: the loop follows on the calls it made
  | fallback (h : nrec ≠ 0)
      (hgate : nrec ≥ 2 ∧ (if numThreads ≠ 0 then numThreads else cpus) ≥ 2 ∧ totalBytes ≥ scanMinBytes)
      (calls : List Nat)
      (hrun : SublimationParallelFor cpus nrec (if numThreads ≠ 0 then numThreads else cpus) false calls) :
      SublimationScan cpus nrec totalBytes numThreads false (calls ++ List.range nrec)
  | serial (h : nrec ≠ 0)
      (hgate : ¬ (nrec ≥ 2 ∧ (if numThreads ≠ 0 then numThreads else cpus) ≥ 2 ∧
        totalBytes ≥ scanMinBytes)) :
      SublimationScan cpus nrec totalBytes numThreads false (List.range nrec)

theorem eachOnce_start (n : Nat) : EachOnce n [] [(pforEngine (β := β)).start ⟨base, n, 0⟩] := by
  rw [EachOnce, List.range_eq_range']
  exact .of_eq (List.append_nil _)

/-- A loop at work has called its body at most once for each index, and goes on. -/
theorem pforPool_running {n nd nw : Nat} (hnw : 0 < nw) (hnd : nw ≤ nd) {buf : Nat → Nat → DfsFrame β}
    {moves : List (Fin nw × Luck β)} {p : DfsPool (List Nat) β (PforCall β)}
    (hrun : run (fun p (m : Fin nw × Luck β) => DfsPool.step pforEngine nd p m.1 m.2)
      (DfsPool.start buf [] ⟨base, n, 0⟩) moves = some p) :
    p.shared.Nodup ∧ (∀ i ∈ p.shared, i < n) ∧
      ∀ w < nw, (p.workers w).pc ≠ .gone → ∀ luck, (p.step pforEngine nd w luck).isSome := by
  obtain ⟨hcalls, -, hgo⟩ := dfsPool_safe (pforEngine_keeps n) (eachOnce_start n) hnw hnd hrun
  have hnodup := hcalls.nodup_iff.mpr List.nodup_range
  exact ⟨(List.nodup_append.mp hnodup).1,
    fun i hi => List.mem_range.mp (hcalls.subset (List.mem_append_left _ hi)), hgo⟩

theorem SublimationParallelFor.failed {cpus n numThreads : Nat} {calls : List Nat}
    (h : SublimationParallelFor cpus n numThreads false calls) : calls = [] := by
  cases h with
  | ran _ _ _ hrun =>
      cases hrun
      rfl

theorem SublimationParallelFor.once {cpus n numThreads : Nat} {calls : List Nat}
    (h : SublimationParallelFor cpus n numThreads true calls) : calls.Perm (List.range n) := by
  cases h with
  | nothing h =>
      subst h
      exact .refl _
  | ran _ _ _ hrun =>
      have hdone := hrun.keeps (pforEngine_keeps n) (eachOnce_start n)
      rw [EachOnce, List.flatMap_nil, List.append_nil] at hdone
      exact hdone

theorem SublimationScan.once {cpus nrec totalBytes numThreads : Nat} {parallel : Bool} {calls : List Nat}
    (h : SublimationScan cpus nrec totalBytes numThreads parallel calls) :
    calls.Perm (List.range nrec) ∧ (parallel = false → calls = List.range nrec) := by
  cases h with
  | nothing h =>
      subst h
      exact ⟨.refl _, fun _ => rfl⟩
  | parallel _ _ _ hrun => exact ⟨hrun.once, nofun⟩
  | fallback _ _ _ hrun =>
      rw [hrun.failed, List.nil_append]
      exact ⟨.refl _, fun _ => rfl⟩
  | serial _ _ => exact ⟨.refl _, fun _ => rfl⟩

/-- **`sublimation_scan`**: a call that returns has called its body once for each
index, on the pool under every order of its atomic operations and every outcome
of its allocations, and off it in the order of the indices. While the pool is at
work no index has been called twice, and no worker that has not left is stuck. -/
theorem sublimationScan_once (cpus nrec totalBytes numThreads : Nat) :
    (∀ parallel calls, SublimationScan cpus nrec totalBytes numThreads parallel calls →
      calls.Perm (List.range nrec) ∧ (parallel = false → calls = List.range nrec)) ∧
    ∀ (nd nw : Nat) (buf : Nat → Nat → DfsFrame Unit) (moves : List (Fin nw × Luck Unit))
      (p : DfsPool (List Nat) Unit (PforCall Unit)), 0 < nw → nw ≤ nd →
      run (fun p (m : Fin nw × Luck Unit) => DfsPool.step pforEngine nd p m.1 m.2)
        (DfsPool.start buf [] ⟨(), nrec, 0⟩) moves = some p →
      p.shared.Nodup ∧ (∀ i ∈ p.shared, i < nrec) ∧
        ∀ w < nw, (p.workers w).pc ≠ .gone → ∀ luck, (p.step pforEngine nd w luck).isSome :=
  ⟨fun _ _ h => h.once, fun _ _ _ _ _ hnw hnd hrun => pforPool_running hnw hnd hrun⟩

end

/-- Two indices on a pool of two deques, whose second worker could not be
started: to the end, and after 40 steps. -/
theorem sublimationScan_once_two :
    (∃ calls, SublimationScan 1 2 scanMinBytes 2 true calls ∧
      calls.Perm (List.range 2) ∧ (true = false → calls = List.range 2)) ∧
    ∃ p, run (fun p (m : Fin 1 × Luck Unit) => DfsPool.step pforEngine 2 p m.1 m.2)
        (DfsPool.start (fun _ _ => ⟨(), 0, 0⟩) [] ⟨(), 2, 0⟩) (alone 40) = some p ∧
      p.shared.Nodup ∧ (∀ i ∈ p.shared, i < 2) ∧
        ∀ w < 1, (p.workers w).pc ≠ .gone → ∀ luck, (p.step pforEngine 2 w luck).isSome := by
  constructor
  · have hend : ((run (fun p (m : Fin 1 × Luck Unit) => DfsPool.step pforEngine 2 p m.1 m.2)
        (DfsPool.start (fun _ _ => ⟨(), 0, 0⟩) [] ⟨(), 2, 0⟩) (alone 78)).map
          fun p => (p.workers 0).pc.isGone) = some true := by decide +kernel
    obtain ⟨p, hrun, hgone⟩ := Option.map_eq_some_iff.mp hend
    have hpool : SubDfsRun pforEngine 2 [] (⟨(), 2, 0⟩ : DfsFrame Unit) true p.shared := by
      refine .drained 2 1 1 (by decide) (by decide) (fun _ _ => ⟨(), 0, 0⟩) (alone 78) p hrun fun w hw => ?_
      obtain rfl : w = 0 := Nat.lt_one_iff.mp hw
      exact WorkerPc.eq_gone hgone
    have hscan : SublimationScan 1 2 scanMinBytes 2 true p.shared :=
      .parallel (by decide) (by decide) _ (.ran (by decide) _ _ hpool)
    exact ⟨_, hscan, (sublimationScan_once 1 2 scanMinBytes 2).1 _ _ hscan⟩
  · have hsome : (run (fun p (m : Fin 1 × Luck Unit) => DfsPool.step pforEngine 2 p m.1 m.2)
        (DfsPool.start (fun _ _ => ⟨(), 0, 0⟩) [] ⟨(), 2, 0⟩) (alone 40)).isSome = true := by decide +kernel
    obtain ⟨p, hrun⟩ := Option.isSome_iff_exists.mp hsome
    exact ⟨p, hrun, (sublimationScan_once 1 2 scanMinBytes 2).2 2 1 _ _ p Nat.one_pos (by decide) hrun⟩

end Montauk.Par
