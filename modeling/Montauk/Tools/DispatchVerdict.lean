import Mathlib.Algebra.Order.Field.Rat
import Mathlib.Tactic.NormNum
import Montauk.Tools.Analysis

/-!
# The conclusion of the dispatch report

`dispatch-stall` composes its conclusion twice. The first time it compares the
shares with the threshold and names the dark and the censored strands; the
second time, when any wake was floored, it puts a class and a text in its place
that do neither. Without a floored wake it returns before the gauges. So the
conclusion says what its numbers say if and only if no strand is censored and,
where wakes were floored, none of them was dark and one share reaches the
threshold (`dispatchConsistent_iff`).
-/

namespace Montauk.Tools

open Timeline Trace
open App (spelling)
open Emit (decimal)

variable {F : Type} (env : ReportEnv F)

/-! ## What the stream holds -/

def flooredWakes (trace : List TraceRecord) : List FlooredWake :=
  ((schedEvents trace).filter fun e =>
    e.op = .wake2run && kTickFloorNs ≤ e.runtimeNs && env.qual.matchesPid e).map fun e =>
      ⟨e.wakeTs, e.timestampNs, e.cpu, e.pid⟩

/-- What the picks tell about the floored wakes. -/
def stalls (trace : List TraceRecord) : List WakeStall :=
  (flooredWakes env trace).map (stallOf (substrate env trace).picks.active)

/-- How long each CPU that is idle at the end for long has been so. -/
def censoredStrands (trace : List TraceRecord) : List UInt64 :=
  (analyze env trace).dispatchStall.censored (substrate env trace).idle

/-- The wake had no pick before it, and its CPU was idle for most of the
wait. -/
def WakeStall.strandedDark (idle : CpuIdleIntervals) (w : WakeStall) : Bool := w.preempt && w.dark idle

/-- The shares of the wakes before which the CPU picked nobody, and of the
others. -/
def preemptShare (ws : List WakeStall) : F := percent env (ws.countP WakeStall.preempt) ws.length
def orderShare (ws : List WakeStall) : F := percent env (ws.countP fun w => !w.preempt) ws.length

def reaches (share : F) : Bool := env.le (env.ofNat 66) share

def shareClass (ws : List WakeStall) : String :=
  if reaches env (preemptShare env ws) then "PREEMPT-STARVED"
  else if reaches env (orderShare env ws) then "ORDER-STARVED"
  else "MIXED"

def Mentions (text : List UInt8) (word : String) : Prop := spelling word <:+: text

/-- What is published agrees with the numbers behind it. -/
structure DispatchConsistent (trace : List TraceRecord) (res : ReportResult F) : Prop where
  klass : flooredWakes env trace ≠ [] → res.klass = spelling (shareClass env (stalls env trace))
  dark : (∃ w ∈ stalls env trace, w.strandedDark (substrate env trace).idle) → Mentions res.verdict "DARK"
  censored : censoredStrands env trace ≠ [] → Mentions res.verdict "CENSORED"
  gauge : censoredStrands env trace ≠ [] →
    res.value? "montauk_analysis_dispatch_censored_strands" =
      some (env.ofNat (censoredStrands env trace).length)

theorem analyze_floored (trace : List TraceRecord) :
    (analyze env trace).dispatchStall.floored = flooredWakes env trace := by
  induction trace using List.reverseRecOn with
  | nil => rfl
  | append_singleton trace r ih =>
    have hstep : (analyze env (trace ++ [r])).dispatchStall = (analyze env trace).dispatchStall.fold env r := by
      rw [analyze_concat]
      rfl
    rw [hstep, flooredWakes, schedEvents_concat, List.filter_append, List.map_append, ← flooredWakes, ← ih]
    cases r with
    | sched e =>
      rw [DispatchStallReport.fold]
      simp only [TraceRecord.schedEvent?, Option.toList_some, List.filter_cons, List.filter_nil]
      by_cases hop : e.op = .wake2run
      · by_cases hfloor : kTickFloorNs ≤ e.runtimeNs
        · cases hq : env.qual.matchesPid e <;> simp [hop, hfloor, UInt64.not_lt.mpr hfloor]
        · simp [hop, hfloor, UInt64.not_le.mp hfloor]
      · simp [hop]
    | _ => exact (List.append_nil _).symm

/-! ## What is assumed of doubles -/

/-- The comparison of shares: it is transitive, more wakes of as many are no
smaller a share, and half of them are below the threshold. -/
structure SharesOrdered : Prop where
  trans : ∀ a b c, env.le a b = true → env.le b c = true → env.le a c = true
  mono : ∀ m n whole, m ≤ n → env.le (percent env m whole) (percent env n whole) = true
  half : ∀ m whole, 2 * m ≤ whole → reaches env (percent env m whole) = false

def NoCapitals (text : List UInt8) : Prop := ∀ b ∈ text, b < 0x41 ∨ 0x5a < b

/-- Digits are printed, a sign and a point, or the words for what is no
number. -/
def PrintsNoCapitals : Prop := ∀ digits x, NoCapitals (env.fixed digits x)

/-! ## The text -/

/-- Neither letter is in it: `DARK` has a K and `CENSORED` an N. -/
def lacks (text : List UInt8) : Bool := text.all fun b => b != 0x4b && b != 0x4e

theorem lacks_iff {text : List UInt8} : lacks text = true ↔ ∀ b ∈ text, b ≠ 0x4b ∧ b ≠ 0x4e := by
  simp [lacks]

theorem lacks_append {a b : List UInt8} : lacks (a ++ b) = (lacks a && lacks b) := List.all_append

theorem lacks_flatten {parts : List (List UInt8)} : lacks parts.flatten = parts.all lacks := List.all_flatten

theorem lacks_take {text : List UInt8} {n : Nat} (h : lacks text = true) : lacks (text.take n) = true :=
  lacks_iff.mpr fun b hb => lacks_iff.mp h b (List.mem_of_mem_take hb)

theorem NoCapitals.lacks {text : List UInt8} (h : NoCapitals text) : lacks text = true := by
  refine lacks_iff.mpr fun b hb => ⟨?_, ?_⟩
  all_goals
    rintro rfl
    exact absurd (h _ hb) (by decide)

theorem noCapitals_num (n : Nat) : NoCapitals (num n) := Emit.forall_mem_decimal (by decide) (by decide) n

theorem lacks_num (n : Nat) : lacks (num n) = true := (noCapitals_num n).lacks

theorem not_mentions_of_lacks {text : List UInt8} (h : lacks text = true) :
    ¬ Mentions text "DARK" ∧ ¬ Mentions text "CENSORED" := by
  refine ⟨fun hm => ?_, fun hm => ?_⟩
  · have hk : (0x4b : UInt8) ∈ spelling "DARK" := List.contains_iff_mem.mp (by decide)
    exact (lacks_iff.mp h _ (hm.subset hk)).1 rfl
  · have hn : (0x4e : UInt8) ∈ spelling "CENSORED" := List.contains_iff_mem.mp (by decide)
    exact (lacks_iff.mp h _ (hm.subset hn)).2 rfl

variable {env}

theorem lacks_fmtCount (hprint : PrintsNoCapitals env) (n : F) : lacks (fmtCount env n) = true := by
  have hunits : ∀ units n, (units.all fun u => lacks (spelling u)) = true →
      lacks (spelling (scaleCount env units n).2) = true := by
    intro units
    induction units with
    | nil => exact fun n _ => rfl
    | cons unit units ih =>
      intro n hall
      obtain ⟨hunit, hrest⟩ := Bool.and_eq_true_iff.mp hall
      cases units with
      | nil => exact hunit
      | cons next units =>
        rw [scaleCount]
        split
        · exact ih _ hrest
        · exact hunit
        · exact fun h => absurd h (List.cons_ne_nil _ _)
  have hsuffix := hunits ["", "k", "M", "G", "T"] n (by decide)
  rw [fmtCount]
  split
  · rw [lacks_append, (hprint _ _).lacks, hsuffix, Bool.and_self]
  · rw [lacks_append, (hprint _ _).lacks, hsuffix, Bool.and_self]

/-! ## What is published -/

section

variable {s : DispatchStallReport} {sub : SchedSubstrate}

theorem compute_gauges_of_none (h : s.floored = []) : (s.compute env sub).gauges = [] := by
  rw [DispatchStallReport.compute, if_pos h]
  rfl

/-- The counts of the wakes: with and without a pick before them. -/
theorem counts_eq (s : DispatchStallReport) (sub : SchedSubstrate) :
    (s.counts sub).n = (s.floored.map (stallOf sub.picks.active)).length ∧
      (s.counts sub).preempt = (s.floored.map (stallOf sub.picks.active)).countP WakeStall.preempt ∧
      (s.counts sub).order = (s.floored.map (stallOf sub.picks.active)).countP fun w => !w.preempt := by
  refine ⟨?_, ?_, ?_⟩
  · rw [List.length_eq_length_filter_add WakeStall.preempt]
    rfl
  · exact List.countP_eq_length_filter.symm
  · exact List.countP_eq_length_filter.symm

/-- With one, the second conclusion stands: the class of the larger share, and
a text with neither of the words. -/
theorem compute_of_floored (hprint : PrintsNoCapitals env) (h : s.floored ≠ []) :
    (s.compute env sub).klass = spelling
        (if env.le (orderShare env (s.floored.map (stallOf sub.picks.active)))
          (preemptShare env (s.floored.map (stallOf sub.picks.active))) then "PREEMPT-STARVED" else "ORDER-STARVED") ∧
      lacks (s.compute env sub).verdict = true := by
  obtain ⟨hn, hpreempt, horder⟩ := counts_eq s sub
  have hn0 : (s.counts sub).n ≠ 0 := by
    rw [hn, List.length_map]
    exact fun h0 => h (List.length_eq_zero_iff.mp h0)
  rw [DispatchStallReport.compute, if_neg h]
  dsimp only
  rw [if_neg hn0]
  refine ⟨?_, ?_⟩
  · rw [preemptShare, orderShare, ← hn, ← hpreempt, ← horder]
    rfl
  · have hfixed : ∀ digits x, lacks (env.fixed digits x) = true := fun digits x => (hprint digits x).lacks
    rw [ReportResult.setVerdict]
    refine lacks_take ?_
    rw [lacks_flatten]
    simp only [List.all_cons, List.all_nil, lacks_fmtCount hprint, hfixed, lacks_num, Bool.true_and, Bool.and_true]
    rfl

/-- The larger share has the class of the threshold if one of them reaches
it. -/
theorem larger_eq_shareClass (hshare : SharesOrdered env) (ws : List WakeStall) :
    spelling (if env.le (orderShare env ws) (preemptShare env ws) then "PREEMPT-STARVED" else "ORDER-STARVED") =
        spelling (shareClass env ws) ↔
      reaches env (preemptShare env ws) = true ∨ reaches env (orderShare env ws) = true := by
  have hlen : ws.countP WakeStall.preempt + ws.countP (fun w => !w.preempt) = ws.length := by
    rw [List.countP_eq_length_filter, List.countP_eq_length_filter]
    exact (List.length_eq_length_filter_add WakeStall.preempt).symm
  rw [shareClass]
  by_cases hp : reaches env (preemptShare env ws) = true
  · have hmost : ¬ 2 * ws.countP WakeStall.preempt ≤ ws.length := by
      intro hhalf
      rw [preemptShare, hshare.half _ _ hhalf] at hp
      exact absurd hp Bool.false_ne_true
    have hle : env.le (orderShare env ws) (preemptShare env ws) = true := hshare.mono _ _ _ (by omega)
    rw [if_pos hp, if_pos hle]
    exact iff_of_true rfl (.inl hp)
  · rw [if_neg hp]
    by_cases ho : reaches env (orderShare env ws) = true
    · have hle : ¬ env.le (orderShare env ws) (preemptShare env ws) = true := fun hle =>
        hp (hshare.trans _ _ _ ho hle)
      rw [if_pos ho, if_neg hle]
      exact iff_of_true rfl (.inr ho)
    · rw [if_neg ho]
      refine iff_of_false ?_ (not_or.mpr ⟨hp, ho⟩)
      split <;> decide

end

/-! ## The conclusion -/

/-- What the conclusion is published as. -/
def dispatchResult (env : ReportEnv F) (trace : List TraceRecord) : ReportResult F :=
  (analyze env trace).dispatchStall.compute env (substrate env trace)

theorem censoredStrands_of_consistent (hprint : PrintsNoCapitals env) {trace : List TraceRecord}
    (h : DispatchConsistent env trace (dispatchResult env trace)) : censoredStrands env trace = [] := by
  by_contra hcensored
  by_cases hfloored : (analyze env trace).dispatchStall.floored = []
  · have hgauge := h.gauge hcensored
    rw [ReportResult.value?, dispatchResult, compute_gauges_of_none hfloored] at hgauge
    cases hgauge
  · have hlacks : lacks (dispatchResult env trace).verdict = true := (compute_of_floored hprint hfloored).2
    exact (not_mentions_of_lacks hlacks).2 (h.censored hcensored)

/-- **The conclusion of `dispatch-stall`** agrees with its numbers if and only
if no strand is censored and, where wakes were floored, no strand was dark and
one of the shares reaches the threshold. -/
theorem dispatchConsistent_iff (hshare : SharesOrdered env) (hprint : PrintsNoCapitals env)
    (trace : List TraceRecord) :
    DispatchConsistent env trace (dispatchResult env trace) ↔
      censoredStrands env trace = [] ∧ (flooredWakes env trace ≠ [] →
        (∀ w ∈ stalls env trace, ¬ w.strandedDark (substrate env trace).idle = true) ∧
          (reaches env (preemptShare env (stalls env trace)) = true ∨
            reaches env (orderShare env (stalls env trace)) = true)) := by
  have hpublished : flooredWakes env trace ≠ [] →
      (dispatchResult env trace).klass = spelling
          (if env.le (orderShare env (stalls env trace)) (preemptShare env (stalls env trace)) then
            "PREEMPT-STARVED" else "ORDER-STARVED") ∧
        lacks (dispatchResult env trace).verdict = true := by
    rw [stalls, ← analyze_floored]
    exact fun hfloored => compute_of_floored hprint hfloored
  constructor
  · intro h
    refine ⟨censoredStrands_of_consistent hprint h, fun hfloored => ?_⟩
    obtain ⟨hklass, hlacks⟩ := hpublished hfloored
    refine ⟨fun w hw hdark => (not_mentions_of_lacks hlacks).1 (h.dark ⟨w, hw, hdark⟩), ?_⟩
    exact (larger_eq_shareClass hshare _).mp (hklass.symm.trans (h.klass hfloored))
  · rintro ⟨hcensored, hfloored⟩
    refine ⟨fun hne => ?_, ?_, fun hne => absurd hcensored hne, fun hne => absurd hcensored hne⟩
    · exact (hpublished hne).1.trans ((larger_eq_shareClass hshare _).mpr (hfloored hne).2)
    · rintro ⟨w, hw, hdark⟩
      have hne : flooredWakes env trace ≠ [] := by
        intro hnil
        rw [stalls, hnil] at hw
        exact absurd hw List.not_mem_nil
      exact absurd hdark ((hfloored hne).1 w hw)

theorem sharesOrdered_exact : SharesOrdered exactEnv where
  trans a b c hab hbc := by
    have hab : a ≤ b := of_decide_eq_true hab
    have hbc : b ≤ c := of_decide_eq_true hbc
    exact decide_eq_true (hab.trans hbc)
  mono m n whole hmn := by
    rw [percent, percent]
    split
    · have hle : (100 : Rat) * m ≤ 100 * n := by exact_mod_cast Nat.mul_le_mul_left 100 hmn
      exact decide_eq_true (div_le_div_of_nonneg_right hle (Nat.cast_nonneg whole))
    · exact decide_eq_true (le_refl ((0 : Nat) : Rat))
  half m whole hhalf := by
    rw [percent, reaches]
    split
    · rename_i hne
      have hpos : (0 : Rat) < whole := Nat.cast_pos.mpr (Nat.pos_of_ne_zero hne)
      have hle : (100 : Rat) * m ≤ 50 * whole := by exact_mod_cast (by omega : 100 * m ≤ 50 * whole)
      have hshare : (100 : Rat) * m / whole ≤ 50 := (div_le_iff₀ hpos).mpr hle
      have hfifty : (50 : Rat) < ((66 : Nat) : Rat) := by norm_num
      exact decide_eq_false (not_le.mpr (lt_of_le_of_lt hshare hfifty))
    · have hzero : ((0 : Nat) : Rat) < ((66 : Nat) : Rat) := by norm_num
      exact decide_eq_false (not_le.mpr hzero)

theorem printsNoCapitals_exact : PrintsNoCapitals exactEnv := by
  have happend : ∀ {a b : List UInt8}, NoCapitals a → NoCapitals b → NoCapitals (a ++ b) := by
    intro a b ha hb c hc
    rcases List.mem_append.mp hc with hc | hc
    · exact ha c hc
    · exact hb c hc
  have hnil : NoCapitals [] := fun b hb => absurd hb List.not_mem_nil
  have hbyte : ∀ b : UInt8, b < 0x41 → NoCapitals [b] := by
    intro b hb c hc
    obtain rfl := List.mem_singleton.mp hc
    exact .inl hb
  have hpad : ∀ n, NoCapitals (List.replicate n 0x30) := by
    intro n c hc
    obtain rfl := (List.mem_replicate.mp hc).2
    exact .inl (by decide)
  have hfixed : ∀ digits q, NoCapitals (fixedRat digits q) := by
    intro digits q
    rw [fixedRat]
    refine happend (noCapitals_num _) ?_
    split
    · exact hnil
    · exact happend (happend (hbyte 0x2e (by decide)) (hpad _)) (noCapitals_num _)
  intro digits q
  refine happend ?_ (hfixed digits _)
  split
  · exact hbyte 0x2d (by decide)
  · exact hnil

/-- The CPU is idle for a while, two tasks come on it, and a wake passes the
floor. -/
def wakeBehindPicks : List TraceRecord :=
  [schedAt .cpuIdle 200000 1 0, schedAt .cpuIdle 900000 0 0, schedAt .switchIn 1000000 0 0,
    schedAt .pick 4000000 0 0, schedAt .wake2run 9000000 0 7000000]

theorem dispatchConsistent_iff_one :
    DispatchConsistent exactEnv wakeBehindPicks (dispatchResult exactEnv wakeBehindPicks) ↔
      censoredStrands exactEnv wakeBehindPicks = [] ∧
        (flooredWakes exactEnv wakeBehindPicks ≠ [] →
          (∀ w ∈ stalls exactEnv wakeBehindPicks,
              ¬ w.strandedDark (substrate exactEnv wakeBehindPicks).idle = true) ∧
            (reaches exactEnv (preemptShare exactEnv (stalls exactEnv wakeBehindPicks)) = true ∨
              reaches exactEnv (orderShare exactEnv (stalls exactEnv wakeBehindPicks)) = true)) :=
  dispatchConsistent_iff sharesOrdered_exact printsNoCapitals_exact _

/-- A CPU goes idle and is so at the end 60 ms later; no wake is floored, and
no gauge tells of the strand. -/
theorem not_dispatchConsistent_wedged :
    ¬ ∀ (F : Type) (env : ReportEnv F), SharesOrdered env → PrintsNoCapitals env → ∀ trace,
      DispatchConsistent env trace (dispatchResult env trace) := by
  intro h
  have hnone := censoredStrands_of_consistent printsNoCapitals_exact
    (h Rat exactEnv sharesOrdered_exact printsNoCapitals_exact
      [schedAt .cpuIdle 1000000 1 0, schedAt .wakeup 61000000 0 0])
  have hone : censoredStrands exactEnv [schedAt .cpuIdle 1000000 1 0, schedAt .wakeup 61000000 0 0] =
      [60000000] := rfl
  exact absurd (hone.symm.trans hnone) (List.cons_ne_nil _ _)

end Montauk.Tools
