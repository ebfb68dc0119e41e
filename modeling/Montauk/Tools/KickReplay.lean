import Montauk.Tools.Analysis

/-!
# Which kicks are answered

`kick-latency` sorts the kicks and the reschedules of each CPU and gives every
kick the time until the next one. Where no two of them come at the same time,
the outcome of a kick is read off the events of its CPU, in whatever order the
stream has them (`KickOutcome.Of`): it is answered by the first reschedule
between it and the next kick, if there is one (`kickLatency_exact`).
-/

namespace Montauk.Tools

open Timeline Trace

/-! ## Kicks and reschedules -/

def opEvents (op : SchedOp) (trace : List TraceRecord) : List SchedEvent :=
  (schedEvents trace).filter fun e => e.op = op

def opTimes (op : SchedOp) (cpu : UInt32) (trace : List TraceRecord) : List UInt64 :=
  ((opEvents op trace).filter fun e => e.cpu = cpu).map SchedEvent.timestampNs

/-- The CPU of a kick, and when it comes. -/
abbrev Kick := UInt32 × UInt64

def kicks (trace : List TraceRecord) : List Kick :=
  (opEvents .kickIssue trace).map fun e => (e.cpu, e.timestampNs)

/-- A reschedule of the CPU between the kick and the next one. -/
structure Answers (trace : List TraceRecord) (k : Kick) (r : UInt64) : Prop where
  mem : r ∈ opTimes .resched k.1 trace
  after : k.2 < r
  before : ∀ k' ∈ opTimes .kickIssue k.1 trace, k.2 < k' → r < k'

/-- The outcome is that of the kick: unanswered without a reschedule, else
answered by the first. -/
structure KickOutcome.Of (trace : List TraceRecord) (k : Kick) (o : KickOutcome) : Prop where
  unanswered : o.latency? = none ↔ ∀ r, ¬ Answers trace k r
  answered : ∀ d, o.latency? = some d → ∃ r, Answers trace k r ∧ (∀ r', Answers trace k r' → r ≤ r') ∧ d = r - k.2

/-- No two kicks or reschedules of a CPU come at the same time. -/
def KicksDistinct (trace : List TraceRecord) : Prop :=
  ∀ cpu, (opTimes .kickIssue cpu trace ++ opTimes .resched cpu trace).Nodup

/-- What the report is to make of the stream. -/
structure KickExact (trace : List TraceRecord) (s : KickLatencyReport) : Prop where
  outcomes : ∃ tagged : List (Kick × KickOutcome), tagged.map Prod.snd = s.outcomes ∧
    (tagged.map Prod.fst).Perm (kicks trace) ∧ ∀ p ∈ tagged, p.2.Of trace p.1
  once : ∀ k ∈ kicks trace, ∀ k' ∈ kicks trace, ∀ r, k.1 = k'.1 → Answers trace k r → Answers trace k' r → k = k'
  total : s.outcomes.length =
    (s.outcomes.filterMap KickOutcome.latency?).length + s.outcomes.countP fun o => o.latency?.isNone
  tickless : s.outcomes.countP KickOutcome.isTickless ≤ s.outcomes.countP fun o => o.latency?.isNone

theorem latency_unique {trace : List TraceRecord} {k : Kick} {o o' : KickOutcome} (h : o.Of trace k)
    (h' : o'.Of trace k) : o.latency? = o'.latency? := by
  cases ho : o.latency? with
  | none => exact (h'.unanswered.mpr (h.unanswered.mp ho)).symm
  | some d =>
    obtain ⟨r, hr, hfirst, rfl⟩ := h.answered d ho
    cases ho' : o'.latency? with
    | none => exact absurd hr (h'.unanswered.mp ho' r)
    | some d' =>
      obtain ⟨r', hr', hfirst', rfl⟩ := h'.answered d' ho'
      rw [UInt64.le_antisymm (hfirst r' hr') (hfirst' r hr)]

/-! ## One CPU -/

theorem mem_zip_next {ks : List UInt64} (hks : ks.Pairwise (· < ·)) {last : UInt64} {p : UInt64 × UInt64}
    (hp : p ∈ ks.zip (ks.tail ++ [last])) :
    p.1 ∈ ks ∧ ((p.2 ∈ ks ∧ p.1 < p.2 ∧ ∀ k ∈ ks, p.1 < k → p.2 ≤ k) ∨ (p.2 = last ∧ ∀ k ∈ ks, k ≤ p.1)) := by
  induction ks with
  | nil => exact absurd hp List.not_mem_nil
  | cons k ks ih =>
    obtain ⟨hk, hks⟩ := List.pairwise_cons.mp hks
    cases ks with
    | nil =>
      obtain rfl := List.mem_singleton.mp hp
      refine ⟨List.mem_cons_self, .inr ⟨rfl, fun k' hk' => ?_⟩⟩
      rw [List.mem_singleton.mp hk']
      exact UInt64.le_refl k
    | cons next ks =>
      rcases List.mem_cons.mp hp with rfl | hp
      · refine ⟨List.mem_cons_self, .inl ⟨List.mem_cons_of_mem _ List.mem_cons_self, hk next List.mem_cons_self, ?_⟩⟩
        intro k' hk' hlt
        rcases List.mem_cons.mp hk' with rfl | hk'
        · exact absurd hlt (UInt64.lt_irrefl _)
        · rcases List.mem_cons.mp hk' with rfl | hk'
          · exact UInt64.le_refl _
          · exact UInt64.le_of_lt ((List.pairwise_cons.mp hks).1 k' hk')
      · obtain ⟨hmem, hnext⟩ := ih hks hp
        have hfirst : k < p.1 := hk p.1 hmem
        refine ⟨List.mem_cons_of_mem _ hmem, ?_⟩
        rcases hnext with ⟨hmem', hlt, hle⟩ | ⟨hlast, hle⟩
        · refine .inl ⟨List.mem_cons_of_mem _ hmem', hlt, fun k' hk' hlt' => ?_⟩
          rcases List.mem_cons.mp hk' with rfl | hk'
          · exact absurd hlt' (UInt64.not_lt.mpr (UInt64.le_of_lt hfirst))
          · exact hle k' hk' hlt'
        · refine .inr ⟨hlast, fun k' hk' => ?_⟩
          rcases List.mem_cons.mp hk' with rfl | hk'
          · exact UInt64.le_of_lt hfirst
          · exact hle k' hk'

section

variable {trace : List TraceRecord} {cpu : UInt32} {ks rs : List UInt64} {last : UInt64}

theorem resched_found (hrs : rs.Pairwise (· ≤ ·)) (kick : UInt64) :
    rs[lowerBound (fun t : UInt64 => t < kick) rs]? = rs.find? fun t => !decide (t < kick) := by
  refine getElem?_lowerBound (hrs.imp fun {a b} hab hb => ?_)
  exact decide_eq_true (UInt64.lt_of_le_of_lt hab (of_decide_eq_true hb))

theorem kickOutcome_of (hks : ks.Pairwise (· < ·)) (hrs : rs.Pairwise (· ≤ ·))
    (hkmem : ∀ t, t ∈ ks ↔ t ∈ opTimes .kickIssue cpu trace)
    (hrmem : ∀ t, t ∈ rs ↔ t ∈ opTimes .resched cpu trace) (hapart : ∀ t ∈ ks, t ∉ rs)
    (hlast : ∀ t ∈ rs, t ≤ last) (tstop : List KickEv) {p : UInt64 × UInt64}
    (hp : p ∈ ks.zip (ks.tail ++ [last])) : (kickOutcome rs tstop p.1 p.2).Of trace (cpu, p.1) := by
  obtain ⟨hmem, hnext⟩ := mem_zip_next hks hp
  rw [kickOutcome, resched_found hrs]
  cases hfind : rs.find? fun t => !decide (t < p.1) with
  | none =>
    have hnone : ∀ r, ¬ Answers trace (cpu, p.1) r := by
      intro r hr
      have hlt := List.find?_eq_none.mp hfind r ((hrmem r).mpr hr.mem)
      simp only [Bool.not_eq_true', decide_eq_false_iff_not, not_not] at hlt
      exact absurd hlt (UInt64.not_lt.mpr (UInt64.le_of_lt hr.after))
    exact ⟨iff_of_true rfl hnone, fun d hd => by cases hd⟩
  | some t =>
    obtain ⟨ht, before, after, hsplit, hbefore⟩ := List.find?_eq_some_iff_append.mp hfind
    have htmem : t ∈ rs := hsplit ▸ List.mem_append_right _ List.mem_cons_self
    have hle : p.1 ≤ t := by simpa using ht
    have hlt : p.1 < t := UInt64.lt_of_le_of_ne hle fun heq => hapart p.1 hmem (heq ▸ htmem)
    -- no other reschedule behind the kick comes earlier
    have hfirst : ∀ r ∈ rs, p.1 < r → t ≤ r := by
      intro r hr hpr
      rw [hsplit] at hr hrs
      rcases List.mem_append.mp hr with hr | hr
      · have hno := hbefore r hr
        simp only [Bool.not_not, decide_eq_true_eq] at hno
        exact absurd hno (UInt64.not_lt.mpr (UInt64.le_of_lt hpr))
      · rcases List.mem_cons.mp hr with rfl | hr
        · exact UInt64.le_refl _
        · exact (List.pairwise_cons.mp (List.pairwise_append.mp hrs).2.1).1 r hr
    dsimp only
    by_cases hbound : t ≤ p.2
    · have hanswers : Answers trace (cpu, p.1) t := by
        refine ⟨(hrmem t).mp htmem, hlt, fun k' hk' hlt' => ?_⟩
        have hk' : k' ∈ ks := (hkmem k').mpr hk'
        rcases hnext with ⟨-, -, hnext⟩ | ⟨-, hend⟩
        · exact UInt64.lt_of_le_of_ne (UInt64.le_trans hbound (hnext k' hk' hlt')) fun heq =>
            hapart k' hk' (heq ▸ htmem)
        · exact absurd hlt' (UInt64.not_lt.mpr (hend k' hk'))
      rw [if_pos hbound]
      refine ⟨iff_of_false (fun h => by cases h) fun hnone => hnone t hanswers, fun d hd => ?_⟩
      obtain rfl := Option.some_inj.mp hd
      exact ⟨t, hanswers, fun r hr => hfirst r ((hrmem r).mpr hr.mem) hr.after, rfl⟩
    · rw [if_neg hbound]
      have hnone : ∀ r, ¬ Answers trace (cpu, p.1) r := by
        intro r hr
        rcases hnext with ⟨hmem', hlt', -⟩ | ⟨rfl, -⟩
        · have hrb := hr.before p.2 ((hkmem p.2).mp hmem') hlt'
          have htr := hfirst r ((hrmem r).mpr hr.mem) hr.after
          exact hbound (UInt64.le_of_lt (UInt64.lt_of_le_of_lt htr hrb))
        · exact hbound (hlast t htmem)
      exact ⟨iff_of_true rfl hnone, fun d hd => by cases hd⟩

end

/-! ## The report -/

namespace KickLatencyReport

theorem fold_kicks (s : KickLatencyReport) (r : TraceRecord) : (s.fold r).kicks =
    recordRow .kickIssue (fun e => ⟨e.timestampNs, e.lastCpu.toUInt32, e.score⟩) r s.kicks := by
  cases r with
  | sched e =>
    rw [fold, recordRow]
    cases e.op <;> rfl
  | _ => rfl

theorem fold_resched (s : KickLatencyReport) (r : TraceRecord) :
    (s.fold r).resched = recordRow .resched SchedEvent.timestampNs r s.resched := by
  cases r with
  | sched e =>
    rw [fold, recordRow]
    cases e.op <;> rfl
  | _ => rfl

theorem fold_lastTs (s : KickLatencyReport) (e : SchedEvent) :
    (s.fold (.sched e)).lastTs = if s.lastTs < e.timestampNs then e.timestampNs else s.lastTs := by
  rw [fold]
  cases e.op <;> rfl

theorem le_lastTs {trace : List TraceRecord} :
    ∀ e ∈ schedEvents trace, e.timestampNs ≤ (trace.foldl fold {}).lastTs := by
  induction trace using List.reverseRecOn with
  | nil => exact fun e he => absurd he List.not_mem_nil
  | append_singleton trace r ih =>
    intro e he
    rw [schedEvents_concat] at he
    rw [List.foldl_concat]
    cases r with
    | sched e' =>
      rw [fold_lastTs]
      rcases List.mem_append.mp he with he | he
      · have hle := ih e he
        split
        · rename_i hlt
          exact UInt64.le_of_lt (UInt64.lt_of_le_of_lt hle hlt)
        · exact hle
      · obtain rfl := List.mem_singleton.mp he
        split
        · exact UInt64.le_refl _
        · rename_i hge
          exact UInt64.not_lt.mp hge
    | _ => exact ih e (by simpa [TraceRecord.schedEvent?] using he)

/-- The outcomes of a row with their kicks. -/
def tagged (s : KickLatencyReport) (row : UInt32 × List KickEv) : List (Kick × KickOutcome) :=
  let ks := (orderBy KickEv.ts row.2).map KickEv.ts
  (ks.zip (ks.tail ++ [s.lastTs])).map fun p =>
    ((row.1, p.1), kickOutcome (sorted ((rowOf row.1 s.resched).getD []))
      (orderBy KickEv.ts ((rowOf row.1 s.tickStop).getD [])) p.1 p.2)

theorem tagged_outcomes (s : KickLatencyReport) (row : UInt32 × List KickEv) :
    (s.tagged row).map Prod.snd = s.cpuOutcomes row := by
  rw [tagged, List.map_map]
  rfl

theorem tagged_kicks (s : KickLatencyReport) (row : UInt32 × List KickEv) :
    (s.tagged row).map Prod.fst = (orderBy KickEv.ts row.2).map fun e => (row.1, e.ts) := by
  rw [tagged, List.map_map]
  generalize hks : (orderBy KickEv.ts row.2).map KickEv.ts = ks
  have hlen : ks.length ≤ (ks.tail ++ [s.lastTs]).length := by
    rw [List.length_append, List.length_tail, List.length_singleton]
    omega
  have hzip : ((ks.zip (ks.tail ++ [s.lastTs])).map Prod.fst).map (Prod.mk row.1) = ks.map (Prod.mk row.1) := by
    rw [List.map_fst_zip hlen]
  rw [← hks, List.map_map] at hzip
  rw [← hks]
  exact hzip.trans (List.map_map ..)

end KickLatencyReport

section

variable (trace : List TraceRecord)

/-- The kicks of a CPU as the report keeps them. -/
def kickRow (cpu : UInt32) : List KickEv :=
  ((opEvents .kickIssue trace).filter fun e => e.cpu = cpu).map fun e =>
    ⟨e.timestampNs, e.lastCpu.toUInt32, e.score⟩

def kickCpus : List UInt32 := ((opEvents .kickIssue trace).map SchedEvent.cpu).eraseDups

theorem kicks_rows : (trace.foldl KickLatencyReport.fold {}).kicks =
    (kickCpus trace).map fun cpu => (cpu, kickRow trace cpu) := by
  rw [foldl_rows _ KickLatencyReport.kicks .kickIssue _ rfl KickLatencyReport.fold_kicks, cpuRows, foldl_push]
  rfl

theorem mem_resched_row (cpu : UInt32) (t : UInt64) :
    t ∈ sorted ((rowOf cpu (trace.foldl KickLatencyReport.fold {}).resched).getD []) ↔
      t ∈ opTimes .resched cpu trace := by
  have hrow : (rowOf cpu (trace.foldl KickLatencyReport.fold {}).resched).getD [] = opTimes .resched cpu trace := by
    rw [foldl_rows _ KickLatencyReport.resched .resched _ rfl KickLatencyReport.fold_resched, cpuRows,
      getD_rowOf_foldl_push]
    rfl
  rw [hrow, sorted, List.mem_mergeSort]

theorem kickRow_perm (cpu : UInt32) :
    ((orderBy KickEv.ts (kickRow trace cpu)).map KickEv.ts).Perm (opTimes .kickIssue cpu trace) := by
  have hperm := (List.mergeSort_perm (kickRow trace cpu) fun a b => decide (a.ts ≤ b.ts)).map KickEv.ts
  refine hperm.trans (List.Perm.of_eq ?_)
  rw [kickRow, List.map_map]
  rfl

theorem tagged_perm : ((((trace.foldl KickLatencyReport.fold {}).kicks.flatMap
    (trace.foldl KickLatencyReport.fold {}).tagged)).map Prod.fst).Perm (kicks trace) := by
  have hrows : ((trace.foldl KickLatencyReport.fold {}).kicks.flatMap
      (trace.foldl KickLatencyReport.fold {}).tagged).map Prod.fst =
      (kickCpus trace).flatMap fun cpu => (orderBy KickEv.ts (kickRow trace cpu)).map fun e => (cpu, e.ts) := by
    rw [kicks_rows, List.flatMap_map, List.map_flatMap]
    exact List.flatMap_congr fun cpu _ => KickLatencyReport.tagged_kicks _ (cpu, kickRow trace cpu)
  have hsorted : ∀ cpu ∈ kickCpus trace, ((orderBy KickEv.ts (kickRow trace cpu)).map fun e => (cpu, e.ts)).Perm
      (((opEvents .kickIssue trace).filter fun e => e.cpu = cpu).map fun e => (e.cpu, e.timestampNs)) := by
    intro cpu _
    have hperm := (kickRow_perm trace cpu).map (Prod.mk cpu)
    rw [List.map_map] at hperm
    refine hperm.trans (List.Perm.of_eq ?_)
    rw [opTimes, List.map_map]
    refine List.map_congr_left fun e he => ?_
    rw [of_decide_eq_true (List.mem_filter.mp he).2]
    rfl
  have hall := flatMap_filter_perm SchedEvent.cpu (opEvents .kickIssue trace) (nodup_eraseDups _)
    fun e he => List.mem_eraseDups.mpr (List.mem_map_of_mem he)
  have hkicks := hall.map fun e => (e.cpu, e.timestampNs)
  rw [List.map_flatMap] at hkicks
  rw [hrows]
  exact (List.Perm.flatMap_left _ hsorted).trans hkicks

variable {trace}

theorem tagged_of (hdistinct : KicksDistinct trace) :
    ∀ p ∈ (trace.foldl KickLatencyReport.fold {}).kicks.flatMap (trace.foldl KickLatencyReport.fold {}).tagged,
      p.2.Of trace p.1 := by
  intro p hp
  obtain ⟨row, hrow, hp⟩ := List.mem_flatMap.mp hp
  rw [kicks_rows] at hrow
  obtain ⟨cpu, -, rfl⟩ := List.mem_map.mp hrow
  rw [KickLatencyReport.tagged] at hp
  obtain ⟨q, hq, rfl⟩ := List.mem_map.mp hp
  obtain ⟨hnodup, -, hdisjoint⟩ := List.nodup_append.mp (hdistinct cpu)
  have hperm := kickRow_perm trace cpu
  have hsorted : ((orderBy KickEv.ts (kickRow trace cpu)).map KickEv.ts).Pairwise (· ≤ ·) :=
    List.pairwise_map.mpr (pairwise_orderBy KickEv.ts _)
  have hstrict : ((orderBy KickEv.ts (kickRow trace cpu)).map KickEv.ts).Pairwise (· < ·) :=
    (hsorted.and (hperm.nodup_iff.mpr hnodup)).imp fun {a b} hab => UInt64.lt_of_le_of_ne hab.1 hab.2
  refine kickOutcome_of hstrict ?_ (fun t => hperm.mem_iff) (mem_resched_row trace cpu) (fun t ht hr => ?_)
    (fun t ht => ?_) _ hq
  · exact pairwise_sorted _
  · exact hdisjoint t (hperm.mem_iff.mp ht) t ((mem_resched_row trace cpu t).mp hr) rfl
  · obtain ⟨e, he, rfl⟩ := List.mem_map.mp ((mem_resched_row trace cpu t).mp ht)
    exact KickLatencyReport.le_lastTs e (List.mem_filter.mp (List.mem_filter.mp he).1).1

theorem kickExact (hdistinct : KicksDistinct trace) : KickExact trace (trace.foldl KickLatencyReport.fold {}) := by
  refine ⟨⟨_, ?_, tagged_perm trace, tagged_of hdistinct⟩, ?_, ?_, ?_⟩
  · rw [List.map_flatMap, KickLatencyReport.outcomes]
    exact List.flatMap_congr fun row _ => KickLatencyReport.tagged_outcomes _ row
  · rintro ⟨cpu, t⟩ hk ⟨cpu', t'⟩ hk' r rfl ha ha'
    have hmem : ∀ {t}, (cpu, t) ∈ kicks trace → t ∈ opTimes .kickIssue cpu trace := by
      intro t ht
      obtain ⟨e, he, heq⟩ := List.mem_map.mp ht
      obtain ⟨rfl, rfl⟩ := Prod.mk.injEq .. ▸ heq
      exact List.mem_map.mpr ⟨e, List.mem_filter.mpr ⟨he, decide_eq_true rfl⟩, rfl⟩
    -- the later of two kicks comes behind what answers the earlier one
    by_contra hne
    have hne : t ≠ t' := fun heq => hne (Prod.ext rfl heq)
    rcases UInt64.lt_or_lt_of_ne hne with hlt | hlt
    · exact UInt64.lt_asymm ha'.after (ha.before t' (hmem hk') hlt)
    · exact UInt64.lt_asymm ha.after (ha'.before t (hmem hk) hlt)
  · rw [List.length_filterMap_eq_countP, List.length_eq_countP_add_countP fun o : KickOutcome => o.latency?.isSome]
    congr 1
    refine List.countP_congr fun o _ => ?_
    cases o.latency? <;> simp
  · refine List.countP_mono_left fun o _ ho => ?_
    cases o with
    | answered d => cases ho
    | unanswered tickless => rfl

theorem Answers.perm {trace' : List TraceRecord} (hperm : trace'.Perm trace) {k : Kick} {r : UInt64} :
    Answers trace' k r ↔ Answers trace k r := by
  have htimes : ∀ op cpu, (opTimes op cpu trace').Perm (opTimes op cpu trace) := fun op cpu =>
    (((hperm.filterMap _).filter _).filter _).map _
  constructor
  · intro h
    exact ⟨(htimes _ _).mem_iff.mp h.mem, h.after, fun k' hk' => h.before k' ((htimes _ _).mem_iff.mpr hk')⟩
  · intro h
    exact ⟨(htimes _ _).mem_iff.mpr h.mem, h.after, fun k' hk' => h.before k' ((htimes _ _).mem_iff.mp hk')⟩

theorem KickOutcome.Of.perm {trace' : List TraceRecord} (hperm : trace'.Perm trace) {k : Kick} {o : KickOutcome}
    (h : o.Of trace' k) : o.Of trace k := by
  refine ⟨h.unanswered.trans (forall_congr' fun r => not_congr (Answers.perm hperm)), fun d hd => ?_⟩
  obtain ⟨r, hr, hfirst, hd⟩ := h.answered d hd
  exact ⟨r, (Answers.perm hperm).mp hr, fun r' hr' => hfirst r' ((Answers.perm hperm).mpr hr'), hd⟩

theorem KicksDistinct.perm {trace' : List TraceRecord} (hperm : trace'.Perm trace) (h : KicksDistinct trace) :
    KicksDistinct trace' := by
  intro cpu
  have htimes : ∀ op, (opTimes op cpu trace').Perm (opTimes op cpu trace) := fun op =>
    (((hperm.filterMap _).filter _).filter _).map _
  exact (((htimes _).append (htimes _)).nodup_iff).mpr (h cpu)

/-- The latencies of two streams with the same events are the same. -/
theorem latencies_perm {trace' : List TraceRecord} (hperm : trace'.Perm trace) (hdistinct : KicksDistinct trace) :
    ((trace'.foldl KickLatencyReport.fold {}).outcomes.map KickOutcome.latency?).Perm
      ((trace.foldl KickLatencyReport.fold {}).outcomes.map KickOutcome.latency?) := by
  obtain ⟨tagged, houtcomes, hkicks, hof⟩ := (kickExact hdistinct).outcomes
  obtain ⟨tagged', houtcomes', hkicks', hof'⟩ := (kickExact (hdistinct.perm hperm)).outcomes
  -- the latency of a kick hangs on the kick alone
  have hone : ∀ k, ∃ l, ∀ o, KickOutcome.Of trace k o → o.latency? = l := by
    intro k
    by_cases h : ∃ o, KickOutcome.Of trace k o
    · obtain ⟨o, ho⟩ := h
      exact ⟨o.latency?, fun o' ho' => latency_unique ho' ho⟩
    · exact ⟨none, fun o ho => absurd ⟨o, ho⟩ h⟩
  choose latency hlatency using hone
  have hleft : tagged.map (fun p => p.2.latency?) = (tagged.map Prod.fst).map latency := by
    rw [List.map_map]
    exact List.map_congr_left fun p hp => hlatency p.1 p.2 (hof p hp)
  have hright : tagged'.map (fun p => p.2.latency?) = (tagged'.map Prod.fst).map latency := by
    rw [List.map_map]
    exact List.map_congr_left fun p hp => hlatency p.1 p.2 ((hof' p hp).perm hperm)
  have hsame : (kicks trace').Perm (kicks trace) := ((hperm.filterMap _).filter _).map _
  rw [← houtcomes, ← houtcomes', List.map_map, List.map_map]
  have hboth := ((hkicks'.trans hsame).trans hkicks.symm).map latency
  rw [← hleft, ← hright] at hboth
  exact hboth

end

/-- **`kick-latency`.** Where no two kicks or reschedules of a CPU come at the
same time, each kick is answered by the first reschedule before the next kick,
and the order in which the events arrive does not matter. -/
theorem kickLatency_exact (trace : List TraceRecord) (hdistinct : KicksDistinct trace) :
    KickExact trace (trace.foldl KickLatencyReport.fold {}) ∧
      ∀ trace' : List TraceRecord, trace'.Perm trace →
        ((trace'.foldl KickLatencyReport.fold {}).outcomes.map KickOutcome.latency?).Perm
          ((trace.foldl KickLatencyReport.fold {}).outcomes.map KickOutcome.latency?) :=
  ⟨kickExact hdistinct, fun _ hperm => latencies_perm hperm hdistinct⟩

/-- Two kicks of a CPU, the first of them answered, out of order. -/
def twoKicks : List TraceRecord :=
  [schedAt .kickIssue 5000 0 0, schedAt .resched 3000 0 0, schedAt .kickIssue 2000 0 0]

theorem kickLatency_exact_two : KickExact twoKicks (twoKicks.foldl KickLatencyReport.fold {}) ∧
    ∀ trace' : List TraceRecord, trace'.Perm twoKicks →
      ((trace'.foldl KickLatencyReport.fold {}).outcomes.map KickOutcome.latency?).Perm
        ((twoKicks.foldl KickLatencyReport.fold {}).outcomes.map KickOutcome.latency?) := by
  refine kickLatency_exact twoKicks fun cpu => ?_
  have hsub : (opTimes .kickIssue cpu twoKicks ++ opTimes .resched cpu twoKicks).Sublist [5000, 2000, 3000] :=
    (List.filter_sublist.map _).append (List.filter_sublist.map _)
  exact hsub.nodup (by decide)

end Montauk.Tools
