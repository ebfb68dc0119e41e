import Montauk.Machine.Intervals
import Montauk.Tools.Analysis

/-!
# The idle intervals of a CPU

`CpuIdleIntervals` keeps when each CPU went idle and makes an interval of that
and the first later exit. So an interval runs from an enter to the exit that
ends it (`IsIdle`), the intervals of a CPU lie one after the other, and the
search and the bounded walk of `overlap` add up all of the window that lies in
one of them (`idleLedger_exact`).
-/

namespace Montauk.Tools

open Intervals Timeline Trace

/-! ## What a row of boundaries holds -/

def SchedEvent.enters (e : SchedEvent) : Prop := e.subIdx = 1

instance (e : SchedEvent) : Decidable e.enters := inferInstanceAs (Decidable (_ = _))

/-- The CPU is idle at the end, and has been since `a`: what came after it
are exits that are no later. -/
def IdleSince (es : List SchedEvent) (a : SchedEvent) : Prop :=
  ∃ pre mid, es = pre ++ a :: mid ∧ a.enters ∧ ∀ e ∈ mid, ¬ e.enters ∧ e.timestampNs ≤ a.timestampNs

/-- An interval from an enter to a later exit. -/
def IsIdle (es : List SchedEvent) (iv : UInt64 × UInt64) : Prop :=
  ∃ pre b post, es = pre ++ b :: post ∧ ¬ b.enters ∧
    ∃ a, IdleSince pre a ∧ a.timestampNs < b.timestampNs ∧ iv = (a.timestampNs, b.timestampNs)

theorem idleSince_concat {es : List SchedEvent} {b a : SchedEvent} :
    IdleSince (es ++ [b]) a ↔
      b.enters ∧ a = b ∨ ¬ b.enters ∧ b.timestampNs ≤ a.timestampNs ∧ IdleSince es a := by
  constructor
  · rintro ⟨pre, mid, hes, ha, hmid⟩
    rcases List.eq_nil_or_concat' mid with rfl | ⟨mid, e, rfl⟩
    · obtain ⟨-, hb⟩ := List.append_inj' hes rfl
      obtain rfl := (List.cons.inj hb).1
      exact .inl ⟨ha, rfl⟩
    · rw [← List.cons_append, ← List.append_assoc] at hes
      obtain ⟨rfl, hb⟩ := List.append_inj' hes rfl
      obtain rfl := (List.cons.inj hb).1
      obtain ⟨hexit, hle⟩ := hmid b (List.mem_append_right _ List.mem_cons_self)
      exact .inr ⟨hexit, hle, pre, mid, rfl, ha, fun e he => hmid e (List.mem_append_left _ he)⟩
  · rintro (⟨hb, rfl⟩ | ⟨hexit, hle, pre, mid, rfl, ha, hmid⟩)
    · exact ⟨es, [], rfl, hb, fun e he => absurd he List.not_mem_nil⟩
    · refine ⟨pre, mid ++ [b], by rw [List.append_assoc, List.cons_append], ha, fun e he => ?_⟩
      rcases List.mem_append.mp he with he | he
      · exact hmid e he
      · obtain rfl := List.mem_singleton.mp he
        exact ⟨hexit, hle⟩

theorem isIdle_concat {es : List SchedEvent} {b : SchedEvent} {iv : UInt64 × UInt64} :
    IsIdle (es ++ [b]) iv ↔ IsIdle es iv ∨ ¬ b.enters ∧
      ∃ a, IdleSince es a ∧ a.timestampNs < b.timestampNs ∧ iv = (a.timestampNs, b.timestampNs) := by
  constructor
  · rintro ⟨pre, e, post, hes, hexit, hsince⟩
    rcases List.eq_nil_or_concat' post with rfl | ⟨post, e', rfl⟩
    · obtain ⟨rfl, hb⟩ := List.append_inj' hes rfl
      obtain rfl := (List.cons.inj hb).1
      exact .inr ⟨hexit, hsince⟩
    · rw [← List.cons_append, ← List.append_assoc] at hes
      obtain ⟨rfl, -⟩ := List.append_inj' hes rfl
      exact .inl ⟨pre, e, post, rfl, hexit, hsince⟩
  · rintro (⟨pre, e, post, rfl, hexit, hsince⟩ | ⟨hexit, hsince⟩)
    · exact ⟨pre, e, post ++ [b], by rw [List.append_assoc, List.cons_append], hexit, hsince⟩
    · exact ⟨es, b, [], rfl, hexit, hsince⟩

/-! ## One CPU -/

/-- What the ledger keeps of a CPU. -/
structure IdleCpu where
  ivs : List (UInt64 × UInt64) := []
  opened : Option UInt64 := none

/-- What a boundary of the CPU does to it. -/
def IdleCpu.step (s : IdleCpu) (e : SchedEvent) : IdleCpu :=
  if e.subIdx = 1 then { s with opened := some e.timestampNs }
  else
    match s.opened with
    | none => s
    | some enter =>
        if enter < e.timestampNs then { ivs := s.ivs ++ [(enter, e.timestampNs)], opened := none } else s

/-- The part of the ledger that is about a CPU. -/
def CpuIdleIntervals.onCpu (cpu : UInt32) (s : CpuIdleIntervals) : IdleCpu where
  ivs := (rowOf cpu s.iv).getD []
  opened := rowOf cpu s.opened

/-- The ledger after some boundaries, put in order. -/
def idleFold (es : List SchedEvent) : CpuIdleIntervals :=
  es.foldl (fun s e => s.fold e.cpu e.subIdx e.timestampNs) {}

def idleLedger (es : List SchedEvent) : CpuIdleIntervals := (idleFold es).finalize

def boundariesOn (cpu : UInt32) (es : List SchedEvent) : List SchedEvent := es.filter fun e => e.cpu = cpu

theorem onCpu_fold (cpu : UInt32) (s : CpuIdleIntervals) (e : SchedEvent) :
    (s.fold e.cpu e.subIdx e.timestampNs).onCpu cpu = if e.cpu = cpu then (s.onCpu cpu).step e else s.onCpu cpu := by
  rw [CpuIdleIntervals.fold]
  by_cases hcpu : e.cpu = cpu
  · subst hcpu
    rw [if_pos rfl, IdleCpu.step]
    by_cases henter : e.subIdx = 1
    · rw [if_pos henter, if_pos henter]
      exact congrArg (IdleCpu.mk _) ((rowOf_assign _ _ _ _).trans (if_pos rfl))
    · rw [if_neg henter, if_neg henter]
      dsimp only [CpuIdleIntervals.onCpu]
      cases hopen : rowOf e.cpu s.opened with
      | none => simp [hopen]
      | some enter =>
        by_cases hlt : enter < e.timestampNs
        · simp only [hlt, if_true, push, rowOf_adjust, rowOf_erase, Option.getD_some]
        · simp only [hlt, if_false, hopen]
  · rw [if_neg hcpu]
    have hne : cpu ≠ e.cpu := fun h => hcpu h.symm
    split
    · exact congrArg (IdleCpu.mk _) ((rowOf_assign _ _ _ _).trans (if_neg hne))
    · split
      · rfl
      · split
        · simp only [CpuIdleIntervals.onCpu, push, rowOf_adjust, rowOf_erase, if_neg hne]
        · rfl

theorem onCpu_idleFold (cpu : UInt32) (es : List SchedEvent) :
    (idleFold es).onCpu cpu = (boundariesOn cpu es).foldl IdleCpu.step {} := by
  induction es using List.reverseRecOn with
  | nil => rfl
  | append_singleton es e ih =>
    rw [idleFold, List.foldl_append, boundariesOn, List.filter_append]
    refine (onCpu_fold cpu (idleFold es) e).trans ?_
    rw [ih]
    by_cases hcpu : e.cpu = cpu
    · rw [if_pos hcpu, List.filter_cons_of_pos (by simpa using hcpu), List.foldl_append]
      rfl
    · rw [if_neg hcpu, List.filter_cons_of_neg (by simpa using hcpu), List.filter_nil, List.append_nil]
      rfl

/-! ## The intervals -/

/-- What the ledger knows of a CPU after its boundaries. -/
structure IdleCpu.Knows (es : List SchedEvent) (s : IdleCpu) : Prop where
  mem : ∀ iv, iv ∈ s.ivs ↔ IsIdle es iv
  opened : ∀ t, s.opened = some t ↔ ∃ a, IdleSince es a ∧ a.timestampNs = t
  apart : s.ivs.Pairwise fun p q => p.2 ≤ q.1

theorem isIdle_le {es : List SchedEvent} {iv : UInt64 × UInt64} (h : IsIdle es iv) {b : SchedEvent}
    (hb : ∀ e ∈ es, e.timestampNs ≤ b.timestampNs) : iv.2 ≤ b.timestampNs := by
  obtain ⟨pre, e, post, rfl, -, a, -, -, rfl⟩ := h
  exact hb e (List.mem_append_right _ List.mem_cons_self)

theorem isIdle_le_since {es : List SchedEvent} (hes : es.Pairwise fun a b => a.timestampNs ≤ b.timestampNs)
    {iv : UInt64 × UInt64} (h : IsIdle es iv) {a : SchedEvent} (ha : IdleSince es a) : iv.2 ≤ a.timestampNs := by
  obtain ⟨pre, mid, rfl, -, hmid⟩ := ha
  obtain ⟨-, -, hbefore⟩ := List.pairwise_append.mp hes
  refine isIdle_le h fun e he => ?_
  rcases List.mem_append.mp he with he | he
  · exact hbefore e he a List.mem_cons_self
  · rcases List.mem_cons.mp he with rfl | he
    · exact UInt64.le_refl _
    · exact (hmid e he).2

theorem IdleCpu.Knows.step {es : List SchedEvent} {s : IdleCpu} (h : s.Knows es) {b : SchedEvent}
    (hes : es.Pairwise fun a b => a.timestampNs ≤ b.timestampNs) : (s.step b).Knows (es ++ [b]) := by
  rw [IdleCpu.step]
  by_cases henter : b.enters
  · have hsub : b.subIdx = 1 := henter
    rw [if_pos hsub]
    refine ⟨fun iv => ?_, fun t => ?_, h.apart⟩
    · rw [isIdle_concat, ← h.mem]
      exact ⟨.inl, fun hor => hor.resolve_right fun hexit => hexit.1 henter⟩
    · simp only [idleSince_concat, henter, not_true_eq_false, false_and, or_false, true_and, exists_eq_left,
        Option.some.injEq]
  · have hsub : ¬ b.subIdx = 1 := henter
    rw [if_neg hsub]
    cases hopen : s.opened with
    | none =>
      have hnone : ∀ a, ¬ IdleSince es a := fun a ha => by
        have hsome := (h.opened a.timestampNs).mpr ⟨a, ha, rfl⟩
        rw [hopen] at hsome
        cases hsome
      refine ⟨fun iv => ?_, fun t => ?_, h.apart⟩
      · simp only [isIdle_concat, hnone, false_and, exists_false, and_false, or_false]
        exact h.mem iv
      · simp only [hopen, idleSince_concat, henter, hnone, and_false, false_and, or_false, exists_false, reduceCtorEq]
    | some enter =>
      obtain ⟨a, ha, hts⟩ := (h.opened enter).mp hopen
      have hsame : ∀ a', IdleSince es a' → a'.timestampNs = enter := fun a' ha' => by
        have hsome := (h.opened a'.timestampNs).mpr ⟨a', ha', rfl⟩
        exact (Option.some_inj.mp (hopen.symm.trans hsome)).symm
      dsimp only
      by_cases hlt : enter < b.timestampNs
      · rw [if_pos hlt]
        refine ⟨fun iv => ?_, fun t => ?_, ?_⟩
        · rw [List.mem_append, List.mem_singleton, isIdle_concat, h.mem]
          refine or_congr_right ⟨?_, ?_⟩
          · rintro rfl
            exact ⟨henter, a, ha, hts.symm ▸ hlt, by rw [hts]⟩
          · rintro ⟨-, a', ha', -, rfl⟩
            rw [hsame a' ha']
        · refine ⟨(fun hsome => by cases hsome), ?_⟩
          rintro ⟨a', ha', rfl⟩
          rcases idleSince_concat.mp ha' with ⟨hb, -⟩ | ⟨-, hle, hsince⟩
          · exact absurd hb henter
          · rw [hsame a' hsince] at hle
            exact absurd hlt (UInt64.not_lt.mpr hle)
        · refine List.pairwise_append.mpr ⟨h.apart, List.pairwise_singleton _ _, fun p hp q hq => ?_⟩
          obtain rfl := List.mem_singleton.mp hq
          exact hts ▸ isIdle_le_since hes ((h.mem p).mp hp) ha
      · rw [if_neg hlt]
        refine ⟨fun iv => ?_, fun t => ?_, h.apart⟩
        · rw [isIdle_concat, ← h.mem]
          refine ⟨.inl, fun hor => hor.resolve_right ?_⟩
          rintro ⟨-, a', ha', hlt', -⟩
          exact hlt (hsame a' ha' ▸ hlt')
        · rw [h.opened]
          refine exists_congr fun a' => and_congr_left fun _ => ?_
          rw [idleSince_concat]
          refine ⟨fun ha' => .inr ⟨henter, ?_, ha'⟩, ?_⟩
          · rw [hsame a' ha']
            exact UInt64.not_lt.mp hlt
          · rintro (⟨hb, -⟩ | ⟨-, -, ha'⟩)
            · exact absurd hb henter
            · exact ha'

theorem knows_foldl {es : List SchedEvent} (hes : es.Pairwise fun a b => a.timestampNs ≤ b.timestampNs) :
    (es.foldl IdleCpu.step {}).Knows es := by
  induction es using List.reverseRecOn with
  | nil =>
    refine ⟨fun iv => ?_, fun t => ?_, List.Pairwise.nil⟩
    · refine ⟨fun h => absurd h List.not_mem_nil, ?_⟩
      rintro ⟨pre, b, post, hes, -⟩
      exact absurd hes.symm (by simp)
    · refine ⟨(fun h => by cases h), ?_⟩
      rintro ⟨a, ⟨pre, mid, hes, -⟩, -⟩
      exact absurd hes.symm (by simp)
  | append_singleton es b ih =>
    rw [List.foldl_append]
    exact (ih (List.pairwise_append.mp hes).1).step (List.pairwise_append.mp hes).1

/-! ## The overlap -/

def instants (iv : UInt64 × UInt64) : Nat × Nat := (iv.1.toNat, iv.2.toNat)

/-- The length of the part of an interval that lies in the window, as the loops
clip it. -/
theorem toNat_clip {a b lo hi fst snd : UInt64} (hlo : lo = if a < fst then fst else a)
    (hhi : hi = if snd < b then snd else b) :
    clipLen a.toNat b.toNat (fst.toNat, snd.toNat) = if lo < hi then (hi - lo).toNat else 0 := by
  have hmax : lo.toNat = max fst.toNat a.toNat := by
    rw [hlo]
    split
    · rename_i h
      exact (Nat.max_eq_left (UInt64.lt_iff_toNat_lt.mp h).le).symm
    · rename_i h
      exact (Nat.max_eq_right (UInt64.le_iff_toNat_le.mp (UInt64.not_lt.mp h))).symm
  have hmin : hi.toNat = min snd.toNat b.toNat := by
    rw [hhi]
    split
    · rename_i h
      exact (Nat.min_eq_left (UInt64.lt_iff_toNat_lt.mp h).le).symm
    · rename_i h
      exact (Nat.min_eq_right (UInt64.le_iff_toNat_le.mp (UInt64.not_lt.mp h))).symm
  rw [clipLen]
  dsimp only
  rw [← hmax, ← hmin]
  split
  · rename_i h
    exact (UInt64.toNat_sub_of_le _ _ (UInt64.le_of_lt h)).symm
  · rename_i h
    exact Nat.sub_eq_zero_of_le (UInt64.le_iff_toNat_le.mp (UInt64.not_lt.mp h))

theorem foldl_overlap (a b : UInt64) (ivs : List (UInt64 × UInt64)) (acc : UInt64) :
    (ivs.foldl (fun acc iv =>
        let lo := if a < iv.1 then iv.1 else a
        let hi := if iv.2 < b then iv.2 else b
        if lo < hi then acc + (hi - lo) else acc) acc).toNat =
      (acc.toNat + ((ivs.map instants).map (clipLen a.toNat b.toNat)).sum) % 2 ^ 64 := by
  induction ivs generalizing acc with
  | nil => exact (Nat.mod_eq_of_lt acc.toNat_lt).symm
  | cons iv ivs ih =>
    have hclip : clipLen a.toNat b.toNat (instants iv) = _ := @toNat_clip a b _ _ iv.1 iv.2 rfl rfl
    rw [List.foldl_cons, ih, List.map_cons, List.map_cons, List.sum_cons, ← Nat.add_assoc]
    generalize ((ivs.map instants).map (clipLen a.toNat b.toNat)).sum = rest
    dsimp only
    generalize (if a < iv.1 then iv.1 else a) = lo at hclip ⊢
    generalize (if iv.2 < b then iv.2 else b) = hi at hclip ⊢
    rw [hclip]
    by_cases hlt : lo < hi
    · rw [if_pos hlt, if_pos hlt, UInt64.toNat_add, Nat.mod_add_mod]
    · rw [if_neg hlt, if_neg hlt, Nat.add_zero]

/-- Where a row in order is cut at the first entry that is not before something,
no later entry is. -/
theorem not_of_mem_dropWhile {α : Type} {p : α → Bool} {l : List α}
    (hl : l.Pairwise fun a b => p b = true → p a = true) {a : α} (ha : a ∈ l.dropWhile p) : p a = false := by
  induction l with
  | nil => exact absurd ha List.not_mem_nil
  | cons c l ih =>
    obtain ⟨hc, hrest⟩ := List.pairwise_cons.mp hl
    rw [List.dropWhile_cons] at ha
    split at ha
    · exact ih hrest ha
    · rename_i hfirst
      rcases List.mem_cons.mp ha with rfl | ha
      · exact Bool.eq_false_iff.mpr hfirst
      · exact Bool.eq_false_iff.mpr fun hp => hfirst (hc a ha hp)

theorem apart_instants {ivs : List (UInt64 × UInt64)} (h : ivs.Pairwise fun p q => p.2 ≤ q.1) :
    Apart (ivs.map instants) :=
  List.pairwise_map.mpr (h.imp fun hpq => UInt64.le_iff_toNat_le.mp hpq)

/-- The walk from the place that halving finds adds up what a scan of the whole
row does. -/
theorem walk_eq {ivs : List (UInt64 × UInt64)} (hapart : ivs.Pairwise fun p q => p.2 ≤ q.1)
    (hlt : ∀ iv ∈ ivs, iv.1 < iv.2) (a b : UInt64) :
    ((((ivs.drop (lowerBound (fun iv : UInt64 × UInt64 => iv.2 ≤ a) ivs)).takeWhile fun iv => iv.1 < b).map
        instants).map (clipLen a.toNat b.toNat)).sum =
      ((ivs.map instants).map (clipLen a.toNat b.toNat)).sum := by
  have hends : ivs.Pairwise fun p q => decide (q.2 ≤ a) = true → decide (p.2 ≤ a) = true := by
    refine List.Pairwise.imp_of_mem ?_ hapart
    intro p q _ hq hpq hqa
    exact decide_eq_true (UInt64.le_trans hpq (UInt64.le_trans (UInt64.le_of_lt (hlt q hq)) (of_decide_eq_true hqa)))
  have hstarts : ivs.Pairwise fun p q => decide (q.1 < b) = true → decide (p.1 < b) = true := by
    refine List.Pairwise.imp_of_mem ?_ hapart
    intro p q hp _ hpq hqb
    exact decide_eq_true (UInt64.lt_of_lt_of_le (hlt p hp)
      (UInt64.le_trans hpq (UInt64.le_of_lt (of_decide_eq_true hqb))))
  have hsplit := lowerBound_splits hends
  generalize lowerBound (fun iv : UInt64 × UInt64 => iv.2 ≤ a) ivs = first at hsplit ⊢
  have hbefore : ∀ iv ∈ (ivs.take first).map instants, iv.2 ≤ a.toNat := by
    intro iv hiv
    obtain ⟨iv, hmem, rfl⟩ := List.mem_map.mp hiv
    obtain ⟨i, hi, rfl⟩ := List.mem_take_iff_getElem.mp hmem
    exact UInt64.le_iff_toNat_le.mp (of_decide_eq_true (hsplit.left i (by omega) (by omega)))
  have hafter : ∀ iv ∈ ((ivs.drop first).dropWhile fun iv => iv.1 < b).map instants, b.toNat ≤ iv.1 := by
    intro iv hiv
    obtain ⟨iv, hmem, rfl⟩ := List.mem_map.mp hiv
    have hnot := not_of_mem_dropWhile (hstarts.sublist (List.drop_sublist _ _)) hmem
    exact UInt64.le_iff_toNat_le.mp (UInt64.not_lt.mp (of_decide_eq_false hnot))
  rw [← sum_clipLen_middle hbefore hafter, ← List.map_append, ← List.map_append, List.append_assoc,
    List.takeWhile_append_dropWhile, List.take_append_drop]

/-! ## The ledger -/

/-- The intervals that a ledger holds for a CPU. -/
def CpuIdleIntervals.intervalsOn (cpu : UInt32) (s : CpuIdleIntervals) : List (UInt64 × UInt64) :=
  (rowOf cpu s.iv).getD []

/-- What a ledger is to say of the boundaries of a CPU: the intervals are those
that run from an enter to a later exit, one after the other, and the overlap
with a window is what of the window lies in them. -/
structure CpuIdleIntervals.Exact (cpu : UInt32) (es : List SchedEvent) (s : CpuIdleIntervals) : Prop where
  mem : ∀ iv, iv ∈ s.intervalsOn cpu ↔ IsIdle es iv
  apart : (s.intervalsOn cpu).Pairwise fun p q => p.2 ≤ q.1
  later : ∀ iv ∈ s.intervalsOn cpu, iv.1 < iv.2
  sorted : (s.intervalsOn cpu).Pairwise fun p q => p.1 < q.1
  scan : ∀ a b, (s.overlap cpu a b).toNat =
    (((s.intervalsOn cpu).map instants).map (clipLen a.toNat b.toNat)).sum
  overlap : ∀ a b, (s.overlap cpu a b).toNat =
    (covered a.toNat b.toNat ((s.intervalsOn cpu).map instants)).card

theorem overlap_eq (s : CpuIdleIntervals) (cpu : UInt32) (a b : UInt64) :
    s.overlap cpu a b =
      if b ≤ a then 0
      else (((s.intervalsOn cpu).drop
          (lowerBound (fun iv : UInt64 × UInt64 => iv.2 ≤ a) (s.intervalsOn cpu))).takeWhile
            fun iv => iv.1 < b).foldl (fun acc iv =>
              let lo := if a < iv.1 then iv.1 else a
              let hi := if iv.2 < b then iv.2 else b
              if lo < hi then acc + (hi - lo) else acc) 0 := by
  rw [CpuIdleIntervals.overlap, CpuIdleIntervals.intervalsOn]
  cases rowOf cpu s.iv with
  | none =>
    by_cases hba : b ≤ a
    · exact (if_pos hba).symm
    · exact (if_neg hba).symm
  | some ivs => rfl

theorem intervalsOn_idleLedger (cpu : UInt32) (es : List SchedEvent) :
    (idleLedger es).intervalsOn cpu = orderBy Prod.fst ((boundariesOn cpu es).foldl IdleCpu.step {}).ivs := by
  rw [← onCpu_idleFold, CpuIdleIntervals.intervalsOn, idleLedger, CpuIdleIntervals.finalize, rowOf_mapRows]
  dsimp only [CpuIdleIntervals.onCpu]
  cases rowOf cpu (idleFold es).iv with
  | none => exact List.mergeSort_nil.symm
  | some ivs => rfl

theorem orderBy_of_pairwise {β : Type} {key : β → UInt64} {row : List β}
    (h : row.Pairwise fun a b => key a ≤ key b) : orderBy key row = row :=
  List.mergeSort_of_pairwise (h.imp decide_eq_true)

/-- **The idle intervals** of a CPU whose boundaries come in order of time. -/
theorem idleLedger_exact {es : List SchedEvent} {cpu : UInt32}
    (hes : (boundariesOn cpu es).Pairwise fun a b => a.timestampNs ≤ b.timestampNs) :
    (idleLedger es).Exact cpu (boundariesOn cpu es) := by
  have hknows := knows_foldl hes
  have hlater : ∀ iv ∈ ((boundariesOn cpu es).foldl IdleCpu.step {}).ivs, iv.1 < iv.2 := by
    intro iv hiv
    obtain ⟨_, _, _, _, _, _, _, hlt, rfl⟩ := (hknows.mem iv).mp hiv
    exact hlt
  have hstarts : ((boundariesOn cpu es).foldl IdleCpu.step {}).ivs.Pairwise fun p q => p.1 < q.1 := by
    refine List.Pairwise.imp_of_mem ?_ hknows.apart
    intro p q hp _ hpq
    exact UInt64.lt_of_lt_of_le (hlater p hp) hpq
  have hrow : (idleLedger es).intervalsOn cpu = ((boundariesOn cpu es).foldl IdleCpu.step {}).ivs := by
    rw [intervalsOn_idleLedger]
    exact orderBy_of_pairwise (hstarts.imp UInt64.le_of_lt)
  have hscan : ∀ a b, ((idleLedger es).overlap cpu a b).toNat =
      ((((boundariesOn cpu es).foldl IdleCpu.step {}).ivs.map instants).map (clipLen a.toNat b.toNat)).sum := by
    intro a b
    have hle := sum_clipLen_le (apart_instants hknows.apart) a.toNat b.toNat
    rw [overlap_eq, hrow]
    split
    · rename_i hba
      have hnone : b.toNat - a.toNat = 0 := Nat.sub_eq_zero_of_le (UInt64.le_iff_toNat_le.mp hba)
      rw [hnone] at hle
      exact (Nat.le_zero.mp hle).symm
    · have hfit : b.toNat < 2 ^ 64 := b.toNat_lt
      rw [foldl_overlap, walk_eq hknows.apart hlater, UInt64.toNat_zero, Nat.zero_add]
      exact Nat.mod_eq_of_lt (by omega)
  refine ⟨fun iv => ?_, ?_, ?_, ?_, fun a b => ?_, fun a b => ?_⟩
  · rw [hrow]
    exact hknows.mem iv
  · rw [hrow]
    exact hknows.apart
  · rw [hrow]
    exact hlater
  · rw [hrow]
    exact hstarts
  · rw [hrow]
    exact hscan a b
  · rw [hrow, card_covered (apart_instants hknows.apart)]
    exact hscan a b

/-- A CPU that goes idle twice and comes back three times, the first of them at
once. -/
theorem idleLedger_exact_repeated :
    (idleLedger (schedEvents [schedAt .cpuIdle 1000 1 0, schedAt .cpuIdle 2000 1 0, schedAt .cpuIdle 2000 0 0,
      schedAt .cpuIdle 5000 0 0, schedAt .cpuIdle 6000 0 0])).Exact 0
      (boundariesOn 0 (schedEvents [schedAt .cpuIdle 1000 1 0, schedAt .cpuIdle 2000 1 0, schedAt .cpuIdle 2000 0 0,
        schedAt .cpuIdle 5000 0 0, schedAt .cpuIdle 6000 0 0])) :=
  idleLedger_exact (by decide)

/-- The reports read the ledger of the idle boundaries of the trace. -/
theorem substrate_idle {F : Type} (env : ReportEnv F) (trace : List TraceRecord) :
    (substrate env trace).idle = idleLedger ((schedEvents trace).filter fun e => e.op = .cpuIdle) := by
  have hfold : (analyze env trace).sub.idle = idleFold ((schedEvents trace).filter fun e => e.op = .cpuIdle) := by
    induction trace using List.reverseRecOn with
    | nil => rfl
    | append_singleton trace r ih =>
      rw [analyze_concat, schedEvents_concat, List.filter_append, idleFold, List.foldl_append, ← idleFold, ← ih]
      cases r with
      | sched e =>
        by_cases hop : e.op = .cpuIdle
        · rw [TraceRecord.schedEvent?, Option.toList_some, List.filter_cons_of_pos (by simpa using hop)]
          exact if_pos hop
        · rw [TraceRecord.schedEvent?, Option.toList_some, List.filter_cons_of_neg (by simpa using hop)]
          exact if_neg hop
      | _ => rfl
  exact congrArg CpuIdleIntervals.finalize hfold

end Montauk.Tools
