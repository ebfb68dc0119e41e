import Montauk.Tools.Analysis

/-!
# What the wait reports make of a stream

`waits` and `spins` keep one entry for each key, and a key is a mixture of a
thread and an object. Where no two pairs of the stream share a key, the entry of
a pair is what the completed waits of that pair alone make of it, in their order
(`waitRows_exact`, `spins_runs`). `waits` gives exactly the rows of the pairs if
and only if the keys are apart (`waitRows_iff`); the runs of `spins` are then
the maximal streaks of close completions (`spinRuns_streaks`).
-/

namespace Montauk.Tools

open Timeline Trace

/-! ## Completed waits -/

def completedWaits (trace : List TraceRecord) : List SyncWait := trace.filterMap TraceRecord.syncWait?

def waitPair (w : SyncWait) : UInt32 × UInt64 := (w.tid, w.obj)

def pairKey (p : UInt32 × UInt64) : UInt64 := tidObjKey p.1 p.2

/-- The waits of a pair, in stream order. -/
def waitsOf (p : UInt32 × UInt64) (ws : List SyncWait) : List SyncWait := ws.filter fun w => waitPair w = p

/-- No two pairs of the stream share a key. -/
def KeysApart (ws : List SyncWait) : Prop :=
  ∀ v ∈ ws, ∀ w ∈ ws, pairKey (waitPair v) = pairKey (waitPair w) → waitPair v = waitPair w

variable {ws : List SyncWait} {w : SyncWait} {p : UInt32 × UInt64}

theorem waitsOf_concat_self (h : waitPair w = p) : waitsOf p (ws ++ [w]) = waitsOf p ws ++ [w] := by
  rw [waitsOf, List.filter_append, List.filter_cons_of_pos (by simpa using h)]
  rfl

theorem waitsOf_concat_of_ne (h : waitPair w ≠ p) : waitsOf p (ws ++ [w]) = waitsOf p ws := by
  rw [waitsOf, List.filter_append, List.filter_cons_of_neg (by simpa using h)]
  exact List.append_nil _

theorem KeysApart.init (h : KeysApart (ws ++ [w])) : KeysApart ws := fun _ hu _ hv =>
  h _ (List.mem_append_left _ hu) _ (List.mem_append_left _ hv)

theorem KeysApart.filter_key (h : KeysApart ws) (hw : w ∈ ws) :
    (ws.filter fun v => pairKey (waitPair v) = pairKey (waitPair w)) = waitsOf (waitPair w) ws := by
  refine List.filter_congr fun v hv => ?_
  refine decide_eq_decide.mpr ⟨h v hv w hw, fun heq => ?_⟩
  rw [heq]

/-! ## The rows of waits -/

variable {F : Type} (env : ReportEnv F)

/-- From each wait to the next, where the clock has moved on. -/
def gapsOf (ts : List UInt64) : List UInt64 :=
  ((neighbours ts).filter fun p => p.1 ≠ 0 ∧ p.1 < p.2).map fun p => p.2 - p.1

def gapStats (gaps : List UInt64) : List (String × F) :=
  if sorted gaps = [] then []
  else [("0.5", qMs env (sorted gaps) 0.50), ("0.99", qMs env (sorted gaps) 0.99)]

/-- What a row says of some waits. -/
structure WaitAgg.Sums (ws : List SyncWait) (a : WaitAgg) : Prop where
  count : a.count = ws.length
  results : a.results = (ws.map SyncWait.result).eraseDups.map
    fun r => (r, ws.countP fun w => w.result = r)
  gaps : a.gapsNs = gapsOf (ws.map SyncWait.ts)
  stats : (a.gapQuantiles env).map Prod.snd = gapStats env (gapsOf (ws.map SyncWait.ts))

/-- A row for each pair that completed a wait, which says what the waits of that
pair come to. -/
structure WaitsReport.Exact (ws : List SyncWait) (aggs : WaitsReport) : Prop where
  once : (aggs.map fun r => (r.2.tid, r.2.obj)).Nodup
  pairs : ∀ p, p ∈ aggs.map (fun r => (r.2.tid, r.2.obj)) ↔ ∃ w ∈ ws, waitPair w = p
  sums : ∀ r ∈ aggs, r.2.Sums env (waitsOf (r.2.tid, r.2.obj) ws)

theorem waits_fold (trace : List TraceRecord) : trace.foldl WaitsReport.fold [] =
    (completedWaits trace).foldl (fun aggs w => adjust (pairKey (waitPair w)) {} (WaitAgg.add w) aggs) [] := by
  rw [completedWaits, List.foldl_filterMap]
  congr 1
  funext aggs r
  rw [WaitsReport.fold]
  cases r.syncWait? <;> rfl

theorem gapsOf_concat (ts : List UInt64) (a b : UInt64) : gapsOf (ts ++ [a, b]) =
    gapsOf (ts ++ [a]) ++ if a ≠ 0 ∧ a < b then [b - a] else [] := by
  rw [gapsOf, gapsOf, neighbours_concat, List.filter_append, List.map_append]
  congr 1
  by_cases h : a ≠ 0 ∧ a < b
  · rw [if_pos h, List.filter_cons_of_pos (by simpa using h)]
    rfl
  · rw [if_neg h, List.filter_cons_of_neg (by simpa using h)]
    rfl

def aggOf (ws : List SyncWait) : WaitAgg := ws.foldl (fun a w => WaitAgg.add w a) {}

theorem aggOf_concat (ws : List SyncWait) (w : SyncWait) : aggOf (ws ++ [w]) = (aggOf ws).add w :=
  List.foldl_concat ..

theorem count_aggOf (ws : List SyncWait) : (aggOf ws).count = ws.length := by
  induction ws using List.reverseRecOn with
  | nil => rfl
  | append_singleton ws w ih =>
    rw [aggOf_concat, List.length_append, List.length_singleton, ← ih, WaitAgg.add]
    split <;> rfl

theorem results_aggOf (ws : List SyncWait) : (aggOf ws).results =
    (ws.map SyncWait.result).eraseDups.map fun r => (r, ws.countP fun w => w.result = r) := by
  have hfold : (aggOf ws).results = ws.foldl (fun t w => adjust w.result 0 (· + 1) t) [] := by
    induction ws using List.reverseRecOn with
    | nil => rfl
    | append_singleton ws w ih =>
      rw [aggOf_concat, List.foldl_concat, ← ih, WaitAgg.add]
      split <;> rfl
  have hcount : ∀ l : List SyncWait, l.foldl (fun n _ => n + 1) 0 = l.length := by
    intro l
    induction l using List.reverseRecOn with
    | nil => rfl
    | append_singleton l w ih => rw [List.foldl_concat, ih, List.length_append, List.length_singleton]
  rw [hfold, foldl_adjust]
  refine List.map_congr_left fun r _ => ?_
  rw [hcount, List.countP_eq_length_filter]

theorem lastTs_aggOf (ws : List SyncWait) (w : SyncWait) : (aggOf (ws ++ [w])).lastTs = w.ts := by
  rw [aggOf_concat, WaitAgg.add]

theorem gapsNs_aggOf (ws : List SyncWait) : (aggOf ws).gapsNs = gapsOf (ws.map SyncWait.ts) := by
  induction ws using List.reverseRecOn with
  | nil => rfl
  | append_singleton ws w ih =>
    have hgaps : (aggOf (ws ++ [w])).gapsNs =
        (aggOf ws).gapsNs ++ if (aggOf ws).lastTs ≠ 0 ∧ (aggOf ws).lastTs < w.ts then
          [w.ts - (aggOf ws).lastTs] else [] := by
      rw [aggOf_concat, WaitAgg.add]
      split <;> (dsimp only; split <;> simp)
    rw [hgaps, ih]
    cases ws using List.reverseRecOn with
    | nil => rfl
    | append_singleton ws v =>
      rw [lastTs_aggOf, List.map_append, List.map_append, List.map_append, List.append_assoc]
      exact (gapsOf_concat ..).symm

theorem pair_aggOf (w : SyncWait) (ws : List SyncWait) :
    ((aggOf (w :: ws)).tid, (aggOf (w :: ws)).obj) = waitPair w := by
  induction ws using List.reverseRecOn with
  | nil => rfl
  | append_singleton ws v ih =>
    have hcount := count_aggOf (w :: ws)
    rw [← ih, ← List.cons_append, aggOf_concat, WaitAgg.add, if_neg (by rw [hcount]; exact Nat.succ_ne_zero _)]

theorem sums_aggOf (ws : List SyncWait) : (aggOf ws).Sums env ws where
  count := count_aggOf ws
  results := results_aggOf ws
  gaps := gapsNs_aggOf ws
  stats := by
    rw [WaitAgg.gapQuantiles, gapStats, gapsNs_aggOf]
    split <;> rfl

theorem mem_waits_rows {trace : List TraceRecord} {r : UInt64 × WaitAgg} :
    r ∈ trace.foldl WaitsReport.fold [] ↔
      (∃ w ∈ completedWaits trace, pairKey (waitPair w) = r.1) ∧
        r.2 = aggOf ((completedWaits trace).filter fun w => pairKey (waitPair w) = r.1) := by
  rw [waits_fold]
  exact mem_foldl_adjust

theorem exists_wait_of_row {trace : List TraceRecord} {r : UInt64 × WaitAgg}
    (hr : r ∈ trace.foldl WaitsReport.fold []) :
    ∃ w ∈ completedWaits trace, pairKey (waitPair w) = r.1 ∧ (r.2.tid, r.2.obj) = waitPair w := by
  obtain ⟨⟨v, hv, hkey⟩, hagg⟩ := mem_waits_rows.mp hr
  have hmem : v ∈ (completedWaits trace).filter fun w => pairKey (waitPair w) = r.1 :=
    List.mem_filter.mpr ⟨hv, decide_eq_true hkey⟩
  obtain ⟨w, rest, hcons⟩ := List.exists_cons_of_ne_nil (List.ne_nil_of_mem hmem)
  have hw : w ∈ (completedWaits trace).filter fun w => pairKey (waitPair w) = r.1 := hcons ▸ List.mem_cons_self
  obtain ⟨hw, hwk⟩ := List.mem_filter.mp hw
  refine ⟨w, hw, of_decide_eq_true hwk, ?_⟩
  rw [hagg, hcons]
  exact pair_aggOf w rest

/-- Rows of one pair have one key, so two pairs of one key cannot both have
theirs. -/
theorem keysApart_of_exact {trace : List TraceRecord}
    (h : WaitsReport.Exact env (completedWaits trace) (trace.foldl WaitsReport.fold [])) :
    KeysApart (completedWaits trace) := by
  intro u hu v hv hkey
  obtain ⟨r, hr, hru⟩ := List.mem_map.mp ((h.pairs (waitPair u)).mpr ⟨u, hu, rfl⟩)
  obtain ⟨s, hs, hsv⟩ := List.mem_map.mp ((h.pairs (waitPair v)).mpr ⟨v, hv, rfl⟩)
  obtain ⟨w, -, hwk, hwr⟩ := exists_wait_of_row hr
  obtain ⟨x, -, hxk, hxs⟩ := exists_wait_of_row hs
  have hkeys : r.1 = s.1 := by
    rw [← hwk, ← hxk, ← hwr, ← hxs, hru, hsv, hkey]
  have hrows : r.2 = s.2 := by
    rw [(mem_waits_rows.mp hr).2, (mem_waits_rows.mp hs).2, hkeys]
  rw [← hru, ← hsv, hrows]

theorem waitRows_exact {trace : List TraceRecord} (h : KeysApart (completedWaits trace)) :
    WaitsReport.Exact env (completedWaits trace) (trace.foldl WaitsReport.fold []) := by
  -- the rows, one for each key, are those of the pairs
  have hrow : ∀ r ∈ trace.foldl WaitsReport.fold [], ∃ w ∈ completedWaits trace,
      r = (pairKey (waitPair w), aggOf (waitsOf (waitPair w) (completedWaits trace))) ∧
        (r.2.tid, r.2.obj) = waitPair w := by
    intro r hr
    obtain ⟨w, hw, hkey, hpair⟩ := exists_wait_of_row hr
    refine ⟨w, hw, Prod.ext hkey.symm ?_, hpair⟩
    rw [(mem_waits_rows.mp hr).2, ← hkey, h.filter_key hw]
  refine ⟨?_, fun p => ⟨fun hp => ?_, ?_⟩, fun r hr => ?_⟩
  · have hkeys : ((trace.foldl WaitsReport.fold []).map Prod.fst).Nodup := by
      rw [waits_fold]
      exact nodup_foldl_adjust ..
    refine hkeys.of_map.map_on fun r hr s hs heq => ?_
    obtain ⟨v, -, hv, hpv⟩ := hrow r hr
    obtain ⟨w, -, hw, hpw⟩ := hrow s hs
    rw [hv, hw, ← hpv, ← hpw, heq]
  · obtain ⟨r, hr, rfl⟩ := List.mem_map.mp hp
    obtain ⟨w, hw, -, hpair⟩ := hrow r hr
    exact ⟨w, hw, hpair.symm⟩
  · rintro ⟨w, hw, rfl⟩
    have hmem : (pairKey (waitPair w), aggOf ((completedWaits trace).filter
        fun v => pairKey (waitPair v) = pairKey (waitPair w))) ∈ trace.foldl WaitsReport.fold [] :=
      mem_waits_rows.mpr ⟨⟨w, hw, rfl⟩, rfl⟩
    obtain ⟨y, hy, hykey, hypair⟩ := exists_wait_of_row hmem
    exact List.mem_map.mpr ⟨_, hmem, hypair.trans (h y hy w hw hykey)⟩
  · obtain ⟨w, -, hr, hpair⟩ := hrow r hr
    rw [hpair, hr]
    exact sums_aggOf env _

/-- **`waits`** has a row for each pair of a thread and an object, of exactly the
waits of that pair, if and only if no two pairs of the stream share a key. -/
theorem waitRows_iff (trace : List TraceRecord) :
    WaitsReport.Exact env (completedWaits trace) (trace.foldl WaitsReport.fold []) ↔
      KeysApart (completedWaits trace) :=
  ⟨keysApart_of_exact env, waitRows_exact env⟩

/-- A wait on a futex, as the tracer records it. -/
def futexWait (tid : UInt32) (uaddr ts : UInt64) : TraceRecord :=
  .sync (.io { pid := tid, tid, syscallNr := 202, fd := 0, result := 0, count := uaddr, whence := 0,
               comm := [], timestampNs := ts, durationNs := 0 })

/-- The waits of two threads on two futexes come under one key. -/
theorem not_exact_mixed :
    ¬ ∀ (F : Type) (env : ReportEnv F) (trace : List TraceRecord),
      WaitsReport.Exact env (completedWaits trace) (trace.foldl WaitsReport.fold []) := by
  intro h
  have hapart := keysApart_of_exact unitEnv
    (h Unit unitEnv [futexWait 4018 0x7f3a00001000 1000, futexWait 396854 0x429ff78de014 2000])
  have hpair := hapart ⟨4018, 4018, 0x7f3a00001000, 1000, 0, true⟩ List.mem_cons_self
    ⟨396854, 396854, 0x429ff78de014, 2000, 0, true⟩ (List.mem_cons_of_mem _ List.mem_cons_self) rfl
  exact absurd (congrArg Prod.fst hpair) (by decide)

/-! ## The runs of spins -/

/-- The next completion comes later, by less than 1 ms. -/
def spinClose (v w : SyncWait) : Bool := v.ts < w.ts && w.ts - v.ts < kSpinGapNs

/-- What is counted of a streak. -/
structure StreakFigures where
  iters : Nat
  startTs : UInt64
  endTs : UInt64
  succ : Nat
  timeo : Nat
  other : Nat

/-- How many of some results are of each kind. -/
def succOf (ws : List SyncWait) : Nat := ws.countP fun w => 0 ≤ w.result
def timeoOf (ws : List SyncWait) : Nat := ws.countP fun w => w.result = -110
def otherOf (ws : List SyncWait) : Nat := ws.countP fun w => ¬ 0 ≤ w.result ∧ w.result ≠ -110

/-- The figures of some consecutive completions. -/
def figuresOf (ws : List SyncWait) : StreakFigures where
  iters := ws.length
  startTs := (ws.head?.map SyncWait.ts).getD 0
  endTs := (ws.getLast?.map SyncWait.ts).getD 0
  succ := succOf ws
  timeo := timeoOf ws
  other := otherOf ws

def SpinRun.figures (r : SpinRun) : StreakFigures where
  iters := r.iters
  startTs := r.startTs
  endTs := r.endTs
  succ := r.succ
  timeo := r.timeo
  other := r.other

/-- The maximal streaks that are long enough, the first of them first. -/
def longStreaks (ws : List SyncWait) : List (List SyncWait) :=
  (ws.splitBy spinClose).filter fun run => kSpinMinIters ≤ run.length

def runsOf (p : UInt32 × UInt64) (runs : List SpinRun) : List SpinRun :=
  runs.filter fun r => (r.tid, r.obj) = p

/-! ### One pair -/

/-- The state of a pair with the runs that have ended. -/
abbrev PairSpins := RunState × List SpinRun

/-- What a completed wait makes of its pair. -/
def PairSpins.step (s : PairSpins) (w : SyncWait) : PairSpins :=
  let st := { s.1 with tid := w.tid, pid := w.pid, isFutex := w.isFutex, obj := w.obj }
  let next := if st.goesOn w then st.iterate w else st.reset
  ({ next with lastTs := w.ts, lastResult := w.result },
    if st.goesOn w then s.2 else st.endRun st.lastTs s.2)

/-- The state that some waits of a pair leave. -/
def spinsOf (ws : List SyncWait) : PairSpins := ws.foldl PairSpins.step ({}, [])

theorem spinsOf_concat (ws : List SyncWait) (w : SyncWait) : spinsOf (ws ++ [w]) = (spinsOf ws).step w :=
  List.foldl_concat ..

/-- The tallies of a state are those of a streak. -/
structure RunState.Tallies (ws : List SyncWait) (s : RunState) : Prop where
  succ : s.succ = succOf ws
  timeo : s.timeo = timeoOf ws
  other : s.other = otherOf ws

/-- The state stands in a streak: a single completion is no active run. -/
structure RunState.InStreak (streak : List SyncWait) (last : SyncWait) (s : RunState) : Prop where
  pair : (s.tid, s.obj) = waitPair last
  lastTs : s.lastTs = last.ts
  lastResult : s.lastResult = last.result
  iters : s.iters = if streak = [] then 0 else streak.length + 1
  startTs : streak ≠ [] → s.startTs = (streak.head?.map SyncWait.ts).getD 0
  tallies : s.Tallies (if streak = [] then [] else streak ++ [last])

theorem RunState.Tallies.tally {ws : List SyncWait} {s : RunState} (h : s.Tallies ws) (w : SyncWait) :
    (s.tally w.result).Tallies (ws ++ [w]) := by
  have hhit : ∀ {q : SyncWait → Bool}, q w = true → ws.countP q + 1 = (ws ++ [w]).countP q := by
    intro q hq
    rw [List.countP_append, List.countP_singleton, if_pos hq]
  have hmiss : ∀ {q : SyncWait → Bool}, ¬ q w = true → ws.countP q = (ws ++ [w]).countP q := by
    intro q hq
    rw [List.countP_append, List.countP_singleton, if_neg hq, Nat.add_zero]
  rw [RunState.tally]
  by_cases hpos : 0 ≤ w.result
  · have htime : w.result ≠ -110 := by
      intro heq
      rw [heq] at hpos
      exact absurd hpos (by decide)
    rw [if_pos hpos]
    exact ⟨(congrArg (· + 1) h.succ).trans (hhit (decide_eq_true hpos)),
      h.timeo.trans (hmiss (by simpa using htime)), h.other.trans (hmiss (by simp [hpos]))⟩
  · rw [if_neg hpos]
    by_cases htime : w.result = -110
    · rw [if_pos htime]
      exact ⟨h.succ.trans (hmiss (by simpa using hpos)),
        (congrArg (· + 1) h.timeo).trans (hhit (decide_eq_true htime)), h.other.trans (hmiss (by simp [htime]))⟩
    · rw [if_neg htime]
      exact ⟨h.succ.trans (hmiss (by simpa using hpos)), h.timeo.trans (hmiss (by simpa using htime)),
        (congrArg (· + 1) h.other).trans (hhit (by simp [hpos, htime]))⟩

theorem RunState.tally_frame (s : RunState) (result : Int64) :
    s.tally result = { s with succ := (s.tally result).succ, timeo := (s.tally result).timeo,
                              other := (s.tally result).other } := by
  rw [RunState.tally]
  split
  · rfl
  · split <;> rfl

theorem RunState.InStreak.endRun {streak : List SyncWait} {last : SyncWait} {s : RunState}
    (h : s.InStreak streak last) (runs : List SpinRun) :
    (s.endRun s.lastTs runs).map SpinRun.figures = runs.map SpinRun.figures ++
      ([streak ++ [last]].filter fun run => kSpinMinIters ≤ run.length).map figuresOf := by
  have hlen : (streak ++ [last]).length = streak.length + 1 := List.length_append
  rw [RunState.endRun, h.iters]
  by_cases hne : streak = []
  · have hshort : ¬ kSpinMinIters ≤ (streak ++ [last]).length := by
      rw [hlen, hne, kSpinMinIters]
      exact Nat.not_succ_le_zero 998 ∘ Nat.le_of_succ_le_succ
    rw [if_pos hne, if_neg (by rw [kSpinMinIters]; omega), List.filter_cons_of_neg (by simpa using hshort)]
    exact (List.append_nil _).symm
  · rw [if_neg hne]
    by_cases hlong : kSpinMinIters ≤ streak.length + 1
    · have hlong' : kSpinMinIters ≤ (streak ++ [last]).length := hlen ▸ hlong
      have hsucc := h.tallies.succ
      have htimeo := h.tallies.timeo
      have hother := h.tallies.other
      rw [if_neg hne] at hsucc htimeo hother
      obtain ⟨first, rest, hcons⟩ := List.exists_cons_of_ne_nil hne
      rw [if_pos hlong, List.filter_cons_of_pos (by simpa using hlong'), List.map_append]
      congr 1
      rw [List.map_singleton, List.filter_nil, List.map_singleton]
      congr 1
      rw [SpinRun.figures, figuresOf, h.startTs hne, h.lastTs, hsucc, htimeo, hother, hlen, hcons,
        List.getLast?_concat]
      rfl
    · have hshort : ¬ kSpinMinIters ≤ (streak ++ [last]).length := hlen ▸ hlong
      rw [if_neg hlong, List.filter_cons_of_neg (by simpa using hshort)]
      exact (List.append_nil _).symm

theorem RunState.InStreak.named {streak : List SyncWait} {last w : SyncWait} {s : RunState}
    (h : s.InStreak streak last) (hw : waitPair w = waitPair last) :
    ({ s with tid := w.tid, pid := w.pid, isFutex := w.isFutex, obj := w.obj } : RunState).InStreak streak last :=
  ⟨hw, h.lastTs, h.lastResult, h.iters, h.startTs, h.tallies.1, h.tallies.2, h.tallies.3⟩

theorem RunState.InStreak.iterate {streak : List SyncWait} {last w : SyncWait} {s : RunState}
    (h : s.InStreak streak last) (hw : waitPair w = waitPair last) :
    ({ s.iterate w with lastTs := w.ts, lastResult := w.result } : RunState).InStreak (streak ++ [last]) w := by
  have hne : streak ++ [last] ≠ [] := List.append_ne_nil_of_right_ne_nil _ (List.cons_ne_nil _ _)
  have hlen : (streak ++ [last]).length = streak.length + 1 := List.length_append
  -- the run is open behind the completion before
  obtain ⟨o, ho, hopen⟩ : ∃ o : RunState, s.iterate w = ({ o with iters := o.iters + 1 }).tally w.result ∧
      ((o.tid, o.obj) = waitPair last ∧ o.iters = streak.length + 1 ∧
        o.startTs = ((streak ++ [last]).head?.map SyncWait.ts).getD 0 ∧ o.Tallies (streak ++ [last])) := by
    refine ⟨_, rfl, ?_⟩
    by_cases hnil : streak = []
    · have hiters : s.iters = 0 := by rw [h.iters, if_pos hnil]
      have htallies : s.Tallies [] := by
        have := h.tallies
        rwa [if_pos hnil] at this
      have htally := RunState.Tallies.tally
        (s := { s with iters := 1, startTs := s.lastTs, lastResult := last.result }) ⟨htallies.1, htallies.2, htallies.3⟩ last
      rw [if_pos hiters, h.lastResult]
      refine ⟨?_, ?_, ?_, ?_⟩
      · rw [RunState.tally_frame]
        exact h.pair
      · rw [RunState.tally_frame, hnil]
        rfl
      · rw [RunState.tally_frame, hnil]
        exact h.lastTs
      · rw [hnil]
        exact htally
    · have hiters : s.iters ≠ 0 := by
        rw [h.iters, if_neg hnil]
        exact Nat.succ_ne_zero _
      have htallies := h.tallies
      rw [if_neg hnil] at htallies
      obtain ⟨first, rest, hcons⟩ := List.exists_cons_of_ne_nil hnil
      rw [if_neg hiters]
      refine ⟨h.pair, ?_, ?_, htallies⟩
      · rw [h.iters, if_neg hnil]
      · rw [h.startTs hnil, hcons]
        rfl
  obtain ⟨hpair, hiters, hstart, htallies⟩ := hopen
  have htally := RunState.Tallies.tally (s := { o with iters := o.iters + 1 })
    ⟨htallies.1, htallies.2, htallies.3⟩ w
  rw [ho, RunState.tally_frame]
  refine ⟨hpair.trans hw.symm, rfl, rfl, ?_, fun _ => hstart, ?_⟩
  · rw [if_neg hne, hlen, ← hiters]
  · rw [if_neg hne]
    exact ⟨htally.1, htally.2, htally.3⟩

/-- What the waits of a pair leave: its last streak is open, the long ones
before it have become runs. -/
theorem spinsOf_spec {ws : List SyncWait} {last : SyncWait} {p : UInt32 × UInt64}
    (hpair : ∀ w ∈ ws ++ [last], waitPair w = p) (hts : ∀ w ∈ ws ++ [last], w.ts ≠ 0) :
    ∃ runs streak, (ws ++ [last]).splitBy spinClose = runs ++ [streak ++ [last]] ∧
      (spinsOf (ws ++ [last])).1.InStreak streak last ∧
      (spinsOf (ws ++ [last])).2.map SpinRun.figures =
        (runs.filter fun run => kSpinMinIters ≤ run.length).map figuresOf := by
  induction ws using List.reverseRecOn generalizing last with
  | nil =>
    refine ⟨[], [], rfl, ⟨rfl, rfl, rfl, rfl, fun h => absurd rfl h, rfl, rfl, rfl⟩, rfl⟩
  | append_singleton ws prev ih =>
    have hprev : ∀ w ∈ ws ++ [prev], w ∈ ws ++ [prev] ++ [last] := fun w => List.mem_append_left [last]
    obtain ⟨runs, streak, hsplit, hin, hruns⟩ :=
      ih (fun w hw => hpair w (hprev w hw)) fun w hw => hts w (hprev w hw)
    have hsame : waitPair last = waitPair prev := by
      rw [hpair last (List.mem_append_right _ List.mem_cons_self),
        hpair prev (hprev prev (List.mem_append_right _ List.mem_cons_self))]
    have hnz : prev.ts ≠ 0 := hts prev (hprev prev (List.mem_append_right _ List.mem_cons_self))
    have hnamed := hin.named hsame
    have hgoes : ∀ s : RunState, s.lastTs = prev.ts → s.goesOn last = spinClose prev last := by
      intro s hs
      rw [RunState.goesOn, spinClose, hs, decide_eq_true hnz, Bool.true_and]
    have hclose := hgoes _ hnamed.lastTs
    rw [splitBy_concat hsplit, spinsOf_concat, PairSpins.step]
    dsimp only
    by_cases hc : spinClose prev last = true
    · rw [if_pos hc, hclose, if_pos hc, if_pos hc]
      refine ⟨runs, streak ++ [prev], ?_, hnamed.iterate hsame, hruns⟩
      rw [List.append_assoc]
      rfl
    · rw [if_neg hc, hclose, if_neg hc, if_neg hc]
      refine ⟨runs ++ [streak ++ [prev]], [], ?_, ?_, ?_⟩
      · rw [List.append_assoc]
        rfl
      · exact ⟨rfl, rfl, rfl, rfl, fun h => absurd rfl h, rfl, rfl, rfl⟩
      · rw [hnamed.endRun, hruns, List.filter_append, List.map_append]

/-! ### The report -/

/-- The runs before a wait stay, and its state does not hang on them. -/
theorem PairSpins.step_append (a : RunState) (runs : List SpinRun) (w : SyncWait) :
    PairSpins.step (a, runs) w = ((PairSpins.step (a, []) w).1, runs ++ (PairSpins.step (a, []) w).2) := by
  refine Prod.ext rfl ?_
  rw [PairSpins.step, PairSpins.step]
  dsimp only
  split
  · exact (List.append_nil runs).symm
  · rw [RunState.endRun, RunState.endRun]
    split
    · rfl
    · exact (List.append_nil runs).symm

theorem pair_of_mem_endRun {s : RunState} {endTs : UInt64} {r : SpinRun} (hr : r ∈ s.endRun endTs []) :
    (r.tid, r.obj) = (s.tid, s.obj) := by
  rw [RunState.endRun] at hr
  split at hr
  · obtain rfl := List.mem_singleton.mp hr
    rfl
  · exact absurd hr List.not_mem_nil

theorem PairSpins.step_pair {a : RunState} {w : SyncWait} {r : SpinRun}
    (hr : r ∈ (PairSpins.step (a, []) w).2) : (r.tid, r.obj) = waitPair w := by
  rw [PairSpins.step] at hr
  dsimp only at hr
  split at hr
  · exact absurd hr List.not_mem_nil
  · exact pair_of_mem_endRun hr

/-- The states and the runs behind a completed wait. -/
def spinWait (t : List (UInt64 × RunState) × List SpinRun) (w : SyncWait) :
    List (UInt64 × RunState) × List SpinRun :=
  let next := PairSpins.step ((rowOf (pairKey (waitPair w)) t.1).getD {}, t.2) w
  (assign (pairKey (waitPair w)) next.1 t.1, next.2)

theorem syncWait?_eq_none {r : TraceRecord} {sig : SyncSignal} (h : r.syncSignal? = some sig) :
    r.syncWait? = none := by
  cases r with
  | sync e =>
    cases e with
    | ntsync e =>
      rw [TraceRecord.syncSignal?] at h
      rw [TraceRecord.syncWait?, syncWait]
      cases hop : e.op <;> rw [hop] at h <;> first | rfl | (cases h)
    | io e =>
      rw [TraceRecord.syncSignal?] at h
      rw [TraceRecord.syncWait?, syncWait]
      by_cases hnr : (e.syscallNr != 202) = true
      · rw [if_pos hnr]
      · rw [if_neg hnr] at h ⊢
        by_cases hwake : (!futexIsWake (e.fd.toUInt32 &&& 0x7f)) = true
        · rw [if_pos hwake] at h
          cases h
        · refine if_pos ?_
          rw [Bool.not_eq_true, Bool.not_eq_false', futexIsWake] at hwake
          simp only [Bool.or_eq_true, beq_iff_eq] at hwake
          rw [futexIsWait]
          rcases hwake with (hop | hop) | hop <;> rw [hop] <;> decide
  | _ => rfl

theorem spins_waits (trace : List TraceRecord) :
    ((trace.foldl SpinsReport.fold {}).state, (trace.foldl SpinsReport.fold {}).runs) =
      (completedWaits trace).foldl spinWait ([], []) := by
  have hstep : ∀ (s : SpinsReport) (r : TraceRecord), ((s.fold r).state, (s.fold r).runs) =
      r.syncWait?.elim (s.state, s.runs) (spinWait (s.state, s.runs)) := by
    intro s r
    rw [SpinsReport.fold]
    cases hsig : r.syncSignal? with
    | some sig =>
      rw [syncWait?_eq_none hsig]
      rfl
    | none => cases r.syncWait? <;> rfl
  rw [completedWaits, List.foldl_filterMap]
  refine (List.foldl_hom (fun s : SpinsReport => (s.state, s.runs)) fun s r => ?_).symm
  rw [hstep]
  cases r.syncWait? <;> rfl

/-- The state that some waits leave, whatever their pairs. -/
def spinState (ws : List SyncWait) : RunState :=
  ws.foldl (fun s w => (PairSpins.step (s, []) w).1) {}

theorem spinState_eq (ws : List SyncWait) : spinState ws = (spinsOf ws).1 := by
  induction ws using List.reverseRecOn with
  | nil => rfl
  | append_singleton ws w ih =>
    rw [spinState, List.foldl_concat, ← spinState, ih, spinsOf_concat]
    rfl

theorem spins_state (ws : List SyncWait) : (ws.foldl spinWait ([], [])).1 = ws.foldl (fun t w =>
    adjust (pairKey (waitPair w)) {} (fun s => (PairSpins.step (s, []) w).1) t) [] := by
  refine (List.foldl_hom Prod.fst fun t w => ?_).symm
  rw [spinWait, PairSpins.step_append]
  exact (assign_rowOf _ _ _ _).symm

theorem spins_runs {ws : List SyncWait} (h : KeysApart ws) (p : UInt32 × UInt64) :
    runsOf p (ws.foldl spinWait ([], [])).2 = (spinsOf (waitsOf p ws)).2 := by
  induction ws using List.reverseRecOn with
  | nil => rfl
  | append_singleton ws w ih =>
    have hrow : (rowOf (pairKey (waitPair w)) (ws.foldl spinWait ([], [])).1).getD {} =
        (spinsOf (waitsOf (waitPair w) ws)).1 := by
      have hkey : (ws.filter fun v => pairKey (waitPair v) = pairKey (waitPair w)) = waitsOf (waitPair w) ws := by
        refine List.filter_congr fun v hv => decide_eq_decide.mpr ⟨fun hkey => ?_, fun heq => by rw [heq]⟩
        exact h v (List.mem_append_left _ hv) w (List.mem_append_right _ List.mem_cons_self) hkey
      rw [spins_state, getD_rowOf_foldl_adjust, hkey]
      exact spinState_eq _
    have hnew : (List.foldl spinWait ([], []) (ws ++ [w])).2 = (ws.foldl spinWait ([], [])).2 ++
        (PairSpins.step ((spinsOf (waitsOf (waitPair w) ws)).1, []) w).2 := by
      rw [List.foldl_concat, spinWait, hrow, PairSpins.step_append]
    have hsplit : runsOf p (List.foldl spinWait ([], []) (ws ++ [w])).2 = (spinsOf (waitsOf p ws)).2 ++
        runsOf p (PairSpins.step ((spinsOf (waitsOf (waitPair w) ws)).1, []) w).2 := by
      rw [hnew, runsOf, List.filter_append, ← runsOf, ← runsOf, ih h.init]
    rw [hsplit]
    by_cases hw : waitPair w = p
    · subst hw
      have hall : runsOf (waitPair w) (PairSpins.step ((spinsOf (waitsOf (waitPair w) ws)).1, []) w).2 =
          (PairSpins.step ((spinsOf (waitsOf (waitPair w) ws)).1, []) w).2 :=
        List.filter_eq_self.mpr fun r hr => decide_eq_true (PairSpins.step_pair hr)
      rw [hall, waitsOf_concat_self rfl, spinsOf_concat]
      exact (congrArg Prod.snd (PairSpins.step_append _ _ w)).symm
    · have hnone : runsOf p (PairSpins.step ((spinsOf (waitsOf (waitPair w) ws)).1, []) w).2 = [] :=
        List.filter_eq_nil_iff.mpr fun r hr heq => hw ((PairSpins.step_pair hr).symm.trans (of_decide_eq_true heq))
      rw [hnone, waitsOf_concat_of_ne hw, List.append_nil]

def openRuns (s : RunState) : List SpinRun := s.endRun s.lastTs []

theorem allRuns_eq (s : SpinsReport) : s.allRuns = s.runs ++ s.state.flatMap fun r => openRuns r.2 := by
  have hfold : ∀ (t : List (UInt64 × RunState)) (runs : List SpinRun),
      t.foldl (fun runs r => r.2.endRun r.2.lastTs runs) runs = runs ++ t.flatMap fun r => openRuns r.2 := by
    intro t
    induction t with
    | nil => exact fun runs => (List.append_nil runs).symm
    | cons r t ih =>
      intro runs
      have hrun : r.2.endRun r.2.lastTs runs = runs ++ openRuns r.2 := by
        rw [openRuns, RunState.endRun, RunState.endRun]
        split
        · rfl
        · exact (List.append_nil runs).symm
      rw [List.foldl_cons, ih, hrun, List.flatMap_cons, List.append_assoc]
  exact hfold s.state s.runs

theorem spinsOf_waitsOf {last : SyncWait} {ws' : List SyncWait} (hts : ∀ w ∈ ws, w.ts ≠ 0)
    (hlast : waitsOf p ws = ws' ++ [last]) :
    ∃ runs streak, (waitsOf p ws).splitBy spinClose = runs ++ [streak ++ [last]] ∧
      (spinsOf (waitsOf p ws)).1.InStreak streak last ∧
      (spinsOf (waitsOf p ws)).2.map SpinRun.figures =
        (runs.filter fun run => kSpinMinIters ≤ run.length).map figuresOf := by
  rw [hlast]
  refine spinsOf_spec (p := p) (fun w hw => ?_) fun w hw => ?_
  · rw [← hlast] at hw
    exact of_decide_eq_true (List.mem_filter.mp hw).2
  · rw [← hlast] at hw
    exact hts w (List.mem_filter.mp hw).1

theorem runsOf_open (hts : ∀ w ∈ ws, w.ts ≠ 0) (h : KeysApart ws) (p : UInt32 × UInt64) :
    runsOf p ((ws.foldl spinWait ([], [])).1.flatMap fun r => openRuns r.2) =
      if waitsOf p ws = [] then [] else openRuns (spinsOf (waitsOf p ws)).1 := by
  have hstates : (ws.foldl spinWait ([], [])).1 =
      (ws.map fun w => pairKey (waitPair w)).eraseDups.map fun k =>
        (k, spinState (ws.filter fun w => pairKey (waitPair w) = k)) := by
    rw [spins_state, foldl_adjust]
    rfl
  -- what is open under the key of a wait is a run of its pair
  have hopen : ∀ w ∈ ws, ∀ r ∈ openRuns (spinState (ws.filter fun v => pairKey (waitPair v) = pairKey (waitPair w))),
      (r.tid, r.obj) = waitPair w := by
    intro w hw r hr
    rw [h.filter_key hw, spinState_eq] at hr
    have hne : waitsOf (waitPair w) ws ≠ [] :=
      List.ne_nil_of_mem (List.mem_filter.mpr ⟨hw, decide_eq_true rfl⟩)
    obtain ⟨ws', last, hlast⟩ := (List.eq_nil_or_concat' _).resolve_left hne
    obtain ⟨runs, streak, -, hin, -⟩ := spinsOf_waitsOf hts hlast
    have hmem : last ∈ waitsOf (waitPair w) ws := hlast ▸ List.mem_append_right _ List.mem_cons_self
    rw [pair_of_mem_endRun hr, hin.pair]
    exact of_decide_eq_true (List.mem_filter.mp hmem).2
  rw [hstates, List.flatMap_map, runsOf, List.filter_flatMap]
  by_cases hnil : waitsOf p ws = []
  · rw [if_pos hnil]
    refine List.flatMap_eq_nil_iff.mpr fun k hk => List.filter_eq_nil_iff.mpr fun r hr hrp => ?_
    obtain ⟨w, hw, rfl⟩ := List.mem_map.mp (List.mem_eraseDups.mp hk)
    have hwp : waitPair w = p := (hopen w hw r hr).symm.trans (of_decide_eq_true hrp)
    exact absurd hnil (List.ne_nil_of_mem (List.mem_filter.mpr ⟨hw, decide_eq_true hwp⟩))
  · rw [if_neg hnil]
    obtain ⟨w, rest, hcons⟩ := List.exists_cons_of_ne_nil hnil
    obtain ⟨hw, hwp⟩ := List.mem_filter.mp (hcons ▸ List.mem_cons_self : w ∈ waitsOf p ws)
    obtain rfl : waitPair w = p := of_decide_eq_true hwp
    have hkey : pairKey (waitPair w) ∈ (ws.map fun w => pairKey (waitPair w)).eraseDups :=
      List.mem_eraseDups.mpr (List.mem_map_of_mem hw)
    rw [flatMap_single (nodup_eraseDups _) hkey fun k hk hne => ?_]
    · rw [List.filter_eq_self.mpr fun r hr => decide_eq_true (hopen w hw r hr), h.filter_key hw, spinState_eq]
    · refine List.filter_eq_nil_iff.mpr fun r hr hrp => ?_
      obtain ⟨v, hv, rfl⟩ := List.mem_map.mp (List.mem_eraseDups.mp hk)
      exact hne (congrArg pairKey ((hopen v hv r hr).symm.trans (of_decide_eq_true hrp)))

/-- **The runs of `spins`**, where the keys are apart: those of a pair are the
maximal streaks of its close completions that are long enough, also those that
are open when the stream ends. -/
theorem spinRuns_streaks (trace : List TraceRecord) (hts : ∀ w ∈ completedWaits trace, w.ts ≠ 0)
    (hkeys : KeysApart (completedWaits trace)) (p : UInt32 × UInt64) :
    (runsOf p (trace.foldl SpinsReport.fold {}).allRuns).map SpinRun.figures =
      (longStreaks (waitsOf p (completedWaits trace))).map figuresOf := by
  have hstate : (trace.foldl SpinsReport.fold {}).state = ((completedWaits trace).foldl spinWait ([], [])).1 :=
    congrArg Prod.fst (spins_waits trace)
  have hruns : (trace.foldl SpinsReport.fold {}).runs = ((completedWaits trace).foldl spinWait ([], [])).2 :=
    congrArg Prod.snd (spins_waits trace)
  have hparts : runsOf p (trace.foldl SpinsReport.fold {}).allRuns =
      (spinsOf (waitsOf p (completedWaits trace))).2 ++
        if waitsOf p (completedWaits trace) = [] then []
        else openRuns (spinsOf (waitsOf p (completedWaits trace))).1 := by
    rw [allRuns_eq, runsOf, List.filter_append, ← runsOf, ← runsOf, hstate, hruns, spins_runs hkeys,
      runsOf_open hts hkeys]
  rw [hparts, longStreaks]
  by_cases hnil : waitsOf p (completedWaits trace) = []
  · rw [if_pos hnil, hnil]
    rfl
  · obtain ⟨ws', last, hlast⟩ := (List.eq_nil_or_concat' _).resolve_left hnil
    obtain ⟨runs, streak, hsplit, hin, hclosed⟩ := spinsOf_waitsOf hts hlast
    rw [if_neg hnil, hsplit, List.map_append, hclosed, openRuns, hin.endRun, List.filter_append, List.map_append]
    rfl

/-- A thread that comes back from the same futex every microsecond. -/
def spinTrace : List TraceRecord :=
  (List.range 1000).map fun i => futexWait 4018 0x7f3a00001000 (UInt64.ofNat (1000 * (i + 1)))

theorem completedWaits_spinTrace : completedWaits spinTrace =
    (List.range 1000).map fun i => ⟨4018, 4018, 0x7f3a00001000, UInt64.ofNat (1000 * (i + 1)), 0, true⟩ := by
  have hwait : ∀ ts, (futexWait 4018 0x7f3a00001000 ts).syncWait? =
      some ⟨4018, 4018, 0x7f3a00001000, ts, 0, true⟩ := by
    intro ts
    rw [futexWait, TraceRecord.syncWait?, syncWait]
    dsimp only
    rw [if_neg (by decide), if_neg (by decide)]
  simp only [completedWaits, spinTrace, List.filterMap_map, Function.comp_def, hwait, List.filterMap_eq_map']

theorem spinRuns_streaks_spin :
    (runsOf (4018, 0x7f3a00001000) (spinTrace.foldl SpinsReport.fold {}).allRuns).map SpinRun.figures =
      (longStreaks (waitsOf (4018, 0x7f3a00001000) (completedWaits spinTrace))).map figuresOf := by
  refine spinRuns_streaks spinTrace (fun w hw hts => ?_) (fun v hv w hw _ => ?_) _
  · rw [completedWaits_spinTrace] at hw
    obtain ⟨i, hi, rfl⟩ := List.mem_map.mp hw
    have hi : i < 1000 := List.mem_range.mp hi
    have hnat := congrArg UInt64.toNat hts
    rw [UInt64.toNat_ofNat', Nat.mod_eq_of_lt (by omega)] at hnat
    exact absurd hnat (Nat.mul_ne_zero (by decide) (Nat.succ_ne_zero i))
  · rw [completedWaits_spinTrace] at hv hw
    obtain ⟨i, -, rfl⟩ := List.mem_map.mp hv
    obtain ⟨j, -, rfl⟩ := List.mem_map.mp hw
    exact (rfl : ((4018 : UInt32), (0x7f3a00001000 : UInt64)) = (4018, 0x7f3a00001000))

end Montauk.Tools
