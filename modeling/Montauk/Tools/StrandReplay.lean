import Montauk.Tools.HolderLedger

/-!
# What the strand report says of a thread

`kstrand` keeps one row for each thread name. How many of its strands were held
and how many dark, and the longest latency, are always right. The row has the
CPU of its last strand but the time of its longest, and the longest over both
kinds: so the holder and the offender it names are those of the longest strand
and of the longest held one if and only if these are no others
(`kstrand_exact_iff`).
-/

namespace Montauk.Tools

open Scan Timeline Trace
open App (spelling)

variable {F : Type} (env : ReportEnv F)

/-! ## The faces of a row -/

/-- `struct Offender`. -/
structure Offender (F : Type) where
  kind : List UInt8
  id : List UInt8
  obj : List UInt8
  metric : List UInt8
  value : F
  sev : Nat

/-- From 100 ms on a strand is of the highest severity. -/
def strandSev (ns : UInt64) : Nat := if 100000000 ≤ ns then 2 else 1

/-- When the thread of a strand became runnable. -/
def KstrandEvent.waitStart (e : KstrandEvent) : UInt64 :=
  if e.latencyNs < e.timestampNs then e.timestampNs - e.latencyNs else 0

/-- Who may be named as the holder of a row, in `emit` and `json`: `dominant`
goes through a map that has no order. -/
def StrandAgg.HeldBy (holder : CpuHolderLedger) (a : StrandAgg) (h : Holder) : Prop :=
  a.held ≠ 0 ∧ a.worstRunTs ≠ 0 ∧
    holder.Answers a.cpu (if a.maxNs < a.worstRunTs then a.worstRunTs - a.maxNs else 0) a.worstRunTs h ∧
    h.windowNs ≠ 0

/-- The offender that a strand of `ns` makes of its thread. -/
def strandOffender (name : List UInt8) (ns : UInt64) : Offender F where
  kind := spelling "kthread-strand"
  id := redactComm env name
  obj := []
  metric := spelling "max_strand_ms"
  value := ms env ns
  sev := strandSev ns

def KStrandReport.offenders (s : KStrandReport) (idle : CpuIdleIntervals) : List (Offender F) :=
  ((s.byComm idle).filter fun r => r.2.held ≠ 0).map fun r => strandOffender env r.1 r.2.maxNs

/-! ## Strands -/

def TraceRecord.kstrand? : TraceRecord → Option KstrandEvent
  | .kstrand e => some e
  | _ => none

def KstrandEvent.name (e : KstrandEvent) : List UInt8 := cstr (e.comm.take 16)

def strandsOf (name : List UInt8) (trace : List TraceRecord) : List KstrandEvent :=
  (trace.filterMap TraceRecord.kstrand?).filter fun e => e.name = name

def IsWorst (es : List KstrandEvent) (e : KstrandEvent) : Prop :=
  ∃ before after, es = before ++ e :: after ∧ (∀ a ∈ before, a.latencyNs < e.latencyNs) ∧
    ∀ b ∈ after, b.latencyNs ≤ e.latencyNs

theorem exists_worst {es : List KstrandEvent} (h : es ≠ []) : ∃ e, IsWorst es e := by
  induction es using List.reverseRecOn with
  | nil => exact absurd rfl h
  | append_singleton es x ih =>
    by_cases hnil : es = []
    · exact ⟨x, es, [], rfl, by simp [hnil], by simp⟩
    · obtain ⟨e, before, after, rfl, hbefore, hafter⟩ := ih hnil
      rcases UInt64.lt_or_le e.latencyNs x.latencyNs with hlt | hle
      · refine ⟨x, before ++ e :: after, [], rfl, fun a ha => ?_, by simp⟩
        rcases List.mem_append.mp ha with ha | ha
        · exact UInt64.lt_trans (hbefore a ha) hlt
        · rcases List.mem_cons.mp ha with rfl | ha
          · exact hlt
          · exact UInt64.lt_of_le_of_lt (hafter a ha) hlt
      · refine ⟨e, before, after ++ [x], by simp, hbefore, fun b hb => ?_⟩
        rcases List.mem_append.mp hb with hb | hb
        · exact hafter b hb
        · rw [List.mem_singleton.mp hb]
          exact hle

theorem IsWorst.mem {es : List KstrandEvent} {e : KstrandEvent} (h : IsWorst es e) : e ∈ es := by
  obtain ⟨before, after, rfl, -, -⟩ := h
  exact List.mem_append_right _ List.mem_cons_self

theorem IsWorst.le {es : List KstrandEvent} {e : KstrandEvent} (h : IsWorst es e) :
    ∀ x ∈ es, x.latencyNs ≤ e.latencyNs := by
  obtain ⟨before, after, rfl, hbefore, hafter⟩ := h
  intro x hx
  rcases List.mem_append.mp hx with hx | hx
  · exact UInt64.le_of_lt (hbefore x hx)
  · rcases List.mem_cons.mp hx with rfl | hx
    · exact UInt64.le_refl _
    · exact hafter x hx

/-! ## The row of a name -/

section

variable {idle : CpuIdleIntervals} {es : List KstrandEvent} {e : KstrandEvent}

def strandAgg (idle : CpuIdleIntervals) (es : List KstrandEvent) : StrandAgg :=
  es.foldl (fun a e => StrandAgg.add idle e a) {}

theorem strandAgg_concat (idle : CpuIdleIntervals) (es : List KstrandEvent) (e : KstrandEvent) :
    strandAgg idle (es ++ [e]) = (strandAgg idle es).add idle e :=
  List.foldl_concat ..

theorem cpu_strandAgg (h : es.getLast? = some e) : (strandAgg idle es).cpu = e.cpu := by
  obtain ⟨es, rfl⟩ := List.getLast?_eq_some_iff.mp h
  rw [strandAgg_concat, StrandAgg.add]

theorem counts_strandAgg (idle : CpuIdleIntervals) (es : List KstrandEvent) :
    (strandAgg idle es).held = es.countP (fun e => !e.isDark idle) ∧
      (strandAgg idle es).dark = es.countP fun e => e.isDark idle := by
  induction es using List.reverseRecOn with
  | nil => exact ⟨rfl, rfl⟩
  | append_singleton es e ih =>
    rw [strandAgg_concat, StrandAgg.add, List.countP_append, List.countP_append, List.countP_singleton,
      List.countP_singleton, ih.1, ih.2]
    cases e.isDark idle <;> exact ⟨rfl, rfl⟩

theorem maxNs_strandAgg (idle : CpuIdleIntervals) (es : List KstrandEvent) :
    (∀ e ∈ es, e.latencyNs ≤ (strandAgg idle es).maxNs) ∧
      (0 < (strandAgg idle es).maxNs → ∃ e ∈ es, e.latencyNs = (strandAgg idle es).maxNs) := by
  induction es using List.reverseRecOn with
  | nil => exact ⟨fun e he => absurd he List.not_mem_nil, fun h => absurd h (UInt64.lt_irrefl _)⟩
  | append_singleton es e ih =>
    obtain ⟨hle, hmem⟩ := ih
    rw [strandAgg_concat, StrandAgg.add]
    dsimp only
    split
    · rename_i hlt
      refine ⟨fun x hx => ?_, fun _ => ⟨e, List.mem_append_right _ List.mem_cons_self, rfl⟩⟩
      rcases List.mem_append.mp hx with hx | hx
      · exact UInt64.le_of_lt (UInt64.lt_of_le_of_lt (hle x hx) hlt)
      · rw [List.mem_singleton.mp hx]
        exact UInt64.le_refl _
    · rename_i hge
      refine ⟨fun x hx => ?_, fun hpos => ?_⟩
      · rcases List.mem_append.mp hx with hx | hx
        · exact hle x hx
        · rw [List.mem_singleton.mp hx]
          exact UInt64.not_lt.mp hge
      · obtain ⟨x, hx, heq⟩ := hmem hpos
        exact ⟨x, List.mem_append_left _ hx, heq⟩

theorem maxNs_of_worst (h : IsWorst es e) : (strandAgg idle es).maxNs = e.latencyNs := by
  obtain ⟨hle, hmem⟩ := maxNs_strandAgg idle es
  refine UInt64.le_antisymm ?_ (hle e h.mem)
  by_cases hzero : (strandAgg idle es).maxNs = 0
  · rw [hzero]
    exact UInt64.zero_le
  · obtain ⟨x, hx, heq⟩ := hmem (UInt64.pos_iff_ne_zero.mpr hzero)
    rw [← heq]
    exact h.le x hx

theorem worstRunTs_of_worst (h : IsWorst es e) (hpos : 0 < e.latencyNs) :
    (strandAgg idle es).worstRunTs = e.timestampNs := by
  obtain ⟨before, after, rfl, hbefore, hafter⟩ := h
  have hless : (strandAgg idle before).maxNs < e.latencyNs := by
    by_cases hzero : (strandAgg idle before).maxNs = 0
    · rw [hzero]
      exact hpos
    · obtain ⟨x, hx, heq⟩ := (maxNs_strandAgg idle before).2 (UInt64.pos_iff_ne_zero.mpr hzero)
      rw [← heq]
      exact hbefore x hx
  induction after using List.reverseRecOn with
  | nil =>
    rw [strandAgg_concat, StrandAgg.add]
    exact if_pos hless
  | append_singleton after x ih =>
    have hafter' : ∀ b ∈ after, b.latencyNs ≤ e.latencyNs := fun b hb => hafter b (List.mem_append_left _ hb)
    have hmax : (strandAgg idle (before ++ e :: after)).maxNs = e.latencyNs :=
      maxNs_of_worst ⟨before, after, rfl, hbefore, hafter'⟩
    have hx := hafter x (List.mem_append_right _ List.mem_cons_self)
    rw [← List.cons_append, ← List.append_assoc, strandAgg_concat, StrandAgg.add]
    refine (if_neg ?_).trans (ih hafter')
    rw [hmax]
    exact UInt64.not_lt.mpr hx

end

theorem windowNs_mostOf (windowNs : UInt64) (rows : List (UInt32 × UInt64)) :
    (mostOf windowNs rows).windowNs = windowNs := by
  rw [mostOf]
  induction rows using List.reverseRecOn with
  | nil => rfl
  | append_singleton rows r ih =>
    rw [List.foldl_concat]
    split
    · exact ih
    · exact ih

theorem CpuHolderLedger.Answers.windowNs {holder : CpuHolderLedger} {cpu : UInt32} {a b : UInt64} {h : Holder}
    (hans : holder.Answers cpu a b h) (hab : a < b) : h.windowNs = b - a := by
  rw [CpuHolderLedger.Answers, if_neg (UInt64.not_le.mpr hab)] at hans
  obtain ⟨rows, -, rfl⟩ := hans
  exact windowNs_mostOf _ _

/-! ## The report -/

/-- The strands of a name that were held. -/
def heldStrandsOf (name : List UInt8) (idle : CpuIdleIntervals) (trace : List TraceRecord) : List KstrandEvent :=
  (strandsOf name trace).filter fun e => !e.isDark idle

/-- Who may be told to have held a CPU over the wait of a strand. -/
def StrandHolder (holder : CpuHolderLedger) (cpu : UInt32) (e : KstrandEvent) (h : Holder) : Prop :=
  holder.Answers cpu e.waitStart e.timestampNs h

/-- What the rows are to say of the strands of each name. -/
structure KStrandExact (trace : List TraceRecord) (s : KStrandReport) (sub : SchedSubstrate) : Prop where
  once : ((s.byComm sub.idle).map Prod.fst).Nodup
  names : ∀ name, name ∈ (s.byComm sub.idle).map Prod.fst ↔ strandsOf name trace ≠ []
  counts : ∀ r ∈ s.byComm sub.idle, r.2.held + r.2.dark = (strandsOf r.1 trace).length
  longest : ∀ r ∈ s.byComm sub.idle, (∀ e ∈ strandsOf r.1 trace, e.latencyNs ≤ r.2.maxNs) ∧
    ∃ e ∈ strandsOf r.1 trace, e.latencyNs = r.2.maxNs
  /-- Who is named as the holder held the longest strand's own CPU. -/
  holder : ∀ r ∈ s.byComm sub.idle, ∀ e h, IsWorst (strandsOf r.1 trace) e → r.2.HeldBy sub.holder h →
    ∃ h', StrandHolder sub.holder e.cpu e h' ∧ h'.tid = h.tid
  /-- The offenders published are those of the longest held strands. -/
  offender : List.Forall₂ (fun name o => ∃ e, IsWorst (heldStrandsOf name sub.idle trace) e ∧
      o = strandOffender env name e.latencyNs)
    (((s.byComm sub.idle).map Prod.fst).filter fun name => !(heldStrandsOf name sub.idle trace).isEmpty)
    (s.offenders env sub.idle)

/-- Of a thread with a held strand: who may be told for the longest wait on the
CPU of its last strand may be told on that of its longest; and its longest
strand is published as its longest held one would be. -/
def StrandsAgree (trace : List TraceRecord) (sub : SchedSubstrate) : Prop :=
  ∀ name e last held, IsWorst (strandsOf name trace) e → (strandsOf name trace).getLast? = some last →
    IsWorst (heldStrandsOf name sub.idle trace) held →
      (e.timestampNs ≠ 0 → ∀ h, StrandHolder sub.holder last.cpu e h →
        ∃ h', StrandHolder sub.holder e.cpu e h' ∧ h'.tid = h.tid) ∧
      ms env e.latencyNs = ms env held.latencyNs ∧ strandSev e.latencyNs = strandSev held.latencyNs

theorem kstrand_evs (trace : List TraceRecord) :
    (trace.foldl KStrandReport.fold {}).evs = trace.filterMap TraceRecord.kstrand? := by
  induction trace using List.reverseRecOn with
  | nil => rfl
  | append_singleton trace r ih =>
    rw [List.foldl_concat, List.filterMap_append, ← ih]
    cases r with
    | kstrand e => rfl
    | _ => exact (List.append_nil _).symm

section

variable {env} {trace : List TraceRecord} {idle : CpuIdleIntervals}

theorem byComm_fold (trace : List TraceRecord) (idle : CpuIdleIntervals) :
    (trace.foldl KStrandReport.fold {}).byComm idle = (trace.filterMap TraceRecord.kstrand?).foldl
      (fun t e => adjust e.name {} (StrandAgg.add idle e) t) [] := by
  rw [KStrandReport.byComm, kstrand_evs]
  rfl

theorem mem_byComm {r : List UInt8 × StrandAgg} :
    r ∈ (trace.foldl KStrandReport.fold {}).byComm idle ↔
      strandsOf r.1 trace ≠ [] ∧ r.2 = strandAgg idle (strandsOf r.1 trace) := by
  have hname : strandsOf r.1 trace ≠ [] ↔ ∃ e ∈ trace.filterMap TraceRecord.kstrand?, e.name = r.1 := by
    rw [strandsOf, Ne, List.filter_eq_nil_iff]
    simp only [decide_eq_true_eq, not_forall, not_not, exists_prop]
  rw [byComm_fold, mem_foldl_adjust, hname]
  rfl

theorem latency_pos_of_held {e : KstrandEvent} (h : e.isDark idle = false) : 0 < e.latencyNs := by
  refine UInt64.pos_iff_ne_zero.mpr fun hzero => ?_
  rw [KstrandEvent.isDark, hzero] at h
  exact of_decide_eq_false h UInt64.zero_le

theorem waitStart_lt {e : KstrandEvent} (hpos : 0 < e.latencyNs) (hts : e.timestampNs ≠ 0) :
    e.waitStart < e.timestampNs := by
  rw [KstrandEvent.waitStart]
  split
  · rename_i hlt
    have hlat : 0 < e.latencyNs.toNat := UInt64.lt_iff_toNat_lt.mp hpos
    have hle : e.latencyNs.toNat < e.timestampNs.toNat := UInt64.lt_iff_toNat_lt.mp hlt
    rw [UInt64.lt_iff_toNat_lt, UInt64.toNat_sub_of_le _ _ (UInt64.le_of_lt hlt)]
    omega
  · exact UInt64.pos_iff_ne_zero.mpr hts

theorem StrandHolder.window {holder : CpuHolderLedger} {cpu : UInt32} {e : KstrandEvent} {h : Holder}
    (hans : StrandHolder holder cpu e h) (hpos : 0 < e.latencyNs) (hts : e.timestampNs ≠ 0) : h.windowNs ≠ 0 := by
  have hstart : e.waitStart < e.timestampNs := waitStart_lt hpos hts
  intro hzero
  have hnat := congrArg UInt64.toNat ((CpuHolderLedger.Answers.windowNs hans hstart).symm.trans hzero)
  rw [UInt64.toNat_sub_of_le _ _ (UInt64.le_of_lt hstart), UInt64.toNat_zero] at hnat
  have hlt : e.waitStart.toNat < e.timestampNs.toNat := UInt64.lt_iff_toNat_lt.mp hstart
  omega

/-- A row counts a held strand exactly if there is one. -/
theorem held_strandAgg_ne_zero {es : List KstrandEvent} :
    (strandAgg idle es).held ≠ 0 ↔ es.filter (fun e => !e.isDark idle) ≠ [] := by
  rw [(counts_strandAgg idle es).1, List.countP_eq_length_filter, Ne, List.length_eq_zero_iff]

/-- Who is named for a row with a held strand, on which CPU and over which
wait. -/
theorem heldBy_strandAgg {holder : CpuHolderLedger} {es : List KstrandEvent} {e last held : KstrandEvent} {h : Holder}
    (hworst : IsWorst es e) (hlast : es.getLast? = some last) (hheld : held ∈ es.filter fun e => !e.isDark idle) :
    (strandAgg idle es).HeldBy holder h ↔ e.timestampNs ≠ 0 ∧ StrandHolder holder last.cpu e h := by
  obtain ⟨hmem, hnotDark⟩ := List.mem_filter.mp hheld
  have hpos : 0 < e.latencyNs :=
    UInt64.lt_of_lt_of_le (latency_pos_of_held (by simpa using hnotDark)) (hworst.le held hmem)
  have hcount : (strandAgg idle es).held ≠ 0 := held_strandAgg_ne_zero.mpr (List.ne_nil_of_mem hheld)
  rw [StrandAgg.HeldBy, maxNs_of_worst hworst, worstRunTs_of_worst hworst hpos, cpu_strandAgg hlast]
  constructor
  · rintro ⟨-, hts, hans, -⟩
    exact ⟨hts, hans⟩
  · rintro ⟨hts, hans⟩
    exact ⟨hcount, hts, hans, StrandHolder.window hans hpos hts⟩

/-- The offenders published, name by name, under a condition on each. -/
theorem forall_offenders {R : List UInt8 → Offender F → Prop} :
    List.Forall₂ R ((((trace.foldl KStrandReport.fold {}).byComm idle).map Prod.fst).filter fun name =>
        !(heldStrandsOf name idle trace).isEmpty) ((trace.foldl KStrandReport.fold {}).offenders env idle) ↔
      ∀ name, heldStrandsOf name idle trace ≠ [] →
        R name (strandOffender env name (strandAgg idle (strandsOf name trace)).maxNs) := by
  have hsame : ((trace.foldl KStrandReport.fold {}).byComm idle).filter
        ((fun name => !(heldStrandsOf name idle trace).isEmpty) ∘ Prod.fst) =
      ((trace.foldl KStrandReport.fold {}).byComm idle).filter fun r => r.2.held ≠ 0 := by
    refine List.filter_congr fun r hr => ?_
    rw [Function.comp_apply, (mem_byComm.mp hr).2, Bool.eq_iff_iff, decide_eq_true_eq, held_strandAgg_ne_zero,
      Bool.not_eq_true', List.isEmpty_eq_false_iff]
    rfl
  rw [List.filter_map, hsame, KStrandReport.offenders, List.forall₂_map_left_iff, List.forall₂_map_right_iff,
    List.forall₂_same]
  constructor
  · intro h name hne
    have hstrands : strandsOf name trace ≠ [] := fun hnil => hne (by rw [heldStrandsOf, hnil]; rfl)
    refine h (name, strandAgg idle (strandsOf name trace)) (List.mem_filter.mpr ⟨mem_byComm.mpr ⟨hstrands, rfl⟩, ?_⟩)
    exact decide_eq_true (held_strandAgg_ne_zero.mpr hne)
  · intro h r hr
    obtain ⟨hrow, hheld⟩ := List.mem_filter.mp hr
    rw [(mem_byComm.mp hrow).2] at hheld ⊢
    exact h r.1 (held_strandAgg_ne_zero.mp (of_decide_eq_true hheld))

theorem kstrandExact_iff_agree (sub : SchedSubstrate) :
    KStrandExact env trace (trace.foldl KStrandReport.fold {}) sub ↔ StrandsAgree env trace sub := by
  constructor
  · intro h name e last held hworst hlast hheld
    have hrow : (name, strandAgg sub.idle (strandsOf name trace)) ∈
        (trace.foldl KStrandReport.fold {}).byComm sub.idle :=
      mem_byComm.mpr ⟨List.ne_nil_of_mem hworst.mem, rfl⟩
    obtain ⟨held', hheld', hsame⟩ := forall_offenders.mp h.offender name (List.ne_nil_of_mem hheld.mem)
    have hlat : held'.latencyNs = held.latencyNs :=
      UInt64.le_antisymm (hheld.le held' hheld'.mem) (hheld'.le held hheld.mem)
    rw [maxNs_of_worst hworst, hlat] at hsame
    refine ⟨fun hts d hd => ?_, congrArg Offender.value hsame, congrArg Offender.sev hsame⟩
    exact h.holder _ hrow e d hworst ((heldBy_strandAgg hworst hlast hheld.mem).mpr ⟨hts, hd⟩)
  · intro h
    refine ⟨byComm_fold trace sub.idle ▸ nodup_foldl_adjust .., fun name => ?_, fun r hr => ?_, fun r hr => ?_,
      fun r hr => ?_, forall_offenders.mpr fun name hne => ?_⟩
    · constructor
      · intro hname
        obtain ⟨r, hr, rfl⟩ := List.mem_map.mp hname
        exact (mem_byComm.mp hr).1
      · intro hne
        exact List.mem_map.mpr ⟨(name, strandAgg sub.idle (strandsOf name trace)), mem_byComm.mpr ⟨hne, rfl⟩, rfl⟩
    · obtain ⟨hheld, hdark⟩ := counts_strandAgg sub.idle (strandsOf r.1 trace)
      rw [(mem_byComm.mp hr).2, hheld, hdark, Nat.add_comm,
        List.length_eq_countP_add_countP fun e : KstrandEvent => e.isDark sub.idle]
      congr 1
      refine List.countP_congr fun e _ => ?_
      cases e.isDark sub.idle <;> decide
    · obtain ⟨hne, hrow⟩ := mem_byComm.mp hr
      obtain ⟨e, he⟩ := exists_worst hne
      rw [hrow, maxNs_of_worst he]
      exact ⟨he.le, e, he.mem, rfl⟩
    · intro e d hworst hnamed
      obtain ⟨hne, hrow⟩ := mem_byComm.mp hr
      obtain ⟨front, last, hlast⟩ := (List.eq_nil_or_concat' _).resolve_left hne
      have hlast : (strandsOf r.1 trace).getLast? = some last := hlast ▸ List.getLast?_concat
      rw [hrow] at hnamed
      -- a holder is only named for a row with a held strand
      obtain ⟨held, hheld⟩ := exists_worst (held_strandAgg_ne_zero.mp hnamed.1)
      obtain ⟨hts, hd⟩ := (heldBy_strandAgg hworst hlast hheld.mem).mp hnamed
      exact (h r.1 e last held hworst hlast hheld).1 hts d hd
    · obtain ⟨held, hheld⟩ := exists_worst hne
      have hstrands : strandsOf name trace ≠ [] := List.ne_nil_of_mem (List.mem_of_mem_filter hheld.mem)
      obtain ⟨e, hworst⟩ := exists_worst hstrands
      obtain ⟨front, last, hlast⟩ := (List.eq_nil_or_concat' _).resolve_left hstrands
      have hlast : (strandsOf name trace).getLast? = some last := hlast ▸ List.getLast?_concat
      obtain ⟨-, hvalue, hsev⟩ := h name e last held hworst hlast hheld
      refine ⟨held, hheld, ?_⟩
      rw [maxNs_of_worst hworst, strandOffender, strandOffender, hvalue, hsev]

end

/-- **The rows of `kstrand`** are exact if and only if for each thread with a
held strand the CPU of its last strand makes no difference to the holder of its
longest, and its longest strand is published as its longest held one. -/
theorem kstrand_exact_iff (trace : List TraceRecord) :
    KStrandExact env trace (trace.foldl KStrandReport.fold {}) (substrate env trace) ↔
      StrandsAgree env trace (substrate env trace) :=
  kstrandExact_iff_agree _

/-- A strand of a worker of the first CPU. -/
def workerStrand (ts latencyNs : UInt64) : KstrandEvent :=
  { tid := 61, cpu := 0, nrCpusAllowed := 1, latencyNs, timestampNs := ts, comm := spelling "kworker/0:1" }

/-- A dark strand of 200 ms and a held one of 6 ms. -/
def darkThenHeld : List TraceRecord :=
  [schedAt .cpuIdle 10000000 1 0, schedAt .cpuIdle 310000000 0 0, .kstrand (workerStrand 300000000 200000000),
    .kstrand (workerStrand 400000000 6000000)]

/-- The offender has the value and the severity of the dark strand. -/
theorem not_kstrandExact_dark :
    ¬ ∀ (F : Type) (env : ReportEnv F) (trace : List TraceRecord),
      KStrandExact env trace (trace.foldl KStrandReport.fold {}) (substrate env trace) := by
  intro h
  have hstrands : strandsOf (spelling "kworker/0:1") darkThenHeld =
      [workerStrand 300000000 200000000, workerStrand 400000000 6000000] := rfl
  have hfolded : (analyze exactEnv darkThenHeld).sub.idle =
      { iv := [(0, [(10000000, 310000000)])], opened := [] } := rfl
  have hidle : (substrate exactEnv darkThenHeld).idle = { iv := [(0, [(10000000, 310000000)])], opened := [] } := by
    rw [substrate, SchedSubstrate.finalize, CpuIdleIntervals.finalize, hfolded]
    simp [orderBy]
  have hheld : heldStrandsOf (spelling "kworker/0:1") (substrate exactEnv darkThenHeld).idle darkThenHeld =
      [workerStrand 400000000 6000000] := by
    rw [hidle]
    rfl
  have hagree := (kstrandExact_iff_agree (substrate exactEnv darkThenHeld)).mp (h Rat exactEnv darkThenHeld)
  have hboth := hagree (spelling "kworker/0:1") (workerStrand 300000000 200000000) (workerStrand 400000000 6000000)
    (workerStrand 400000000 6000000)
    ⟨[], [workerStrand 400000000 6000000], hstrands, by simp, fun b hb => by
      obtain rfl := List.mem_singleton.mp hb
      decide⟩
    (congrArg List.getLast? hstrands) ⟨[], [], hheld, by simp, by simp⟩
  exact absurd hboth.2.2 (by decide)

end Montauk.Tools
