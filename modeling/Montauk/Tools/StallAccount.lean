import Mathlib.Data.List.GetD
import Montauk.Machine.OrderStatistics
import Montauk.Tools.DispatchVerdict

/-!
# The account of the dispatch report

`dispatch-stall` goes through the floored wakes with one loop that keeps all its
counters: an inner loop over the picks that passed the wake over, the split of
the wakes by whether there were any, and the split of those without by what the
CPU did. After any of the wakes the counters are the totals over them
(`matches_account`), which is what the report composes its conclusion from
(`counts_eq_account`). The totals then close: each wake and each ranked
pass-over is in one class (`dispatchClosed`).
-/

namespace Montauk.Tools

open Timeline Trace
open App (spelling)

variable {F : Type} (env : ReportEnv F)

/-! ## The loop -/

/-- The counters of the pass-overs, and what is counted anew for each wake. -/
structure PassOvers where
  poTotal : Nat := 0
  poMirror : Nat := 0
  clsTotal : Nat := 0
  clsHigher : Nat := 0
  clsSame : Nat := 0
  clsLower : Nat := 0
  sameNewer : Nat := 0
  sameOlder : Nat := 0
  inter : Nat := 0
  legit : Nat := 0
  poPids : List Int32 := []

def PassOvers.pass (pid : Int32) (served : Option Pk) (s : PassOvers) (p : Pk) : PassOvers :=
  if p.pid = pid then s
  else
    let s :=
      { s with
        inter := s.inter + 1
        poTotal := s.poTotal + 1
        poMirror := if p.lane = 0 then s.poMirror + 1 else s.poMirror
        poPids := if p.pid ∈ s.poPids then s.poPids else s.poPids ++ [p.pid] }
    match served with
    | none => { s with legit := s.legit + 1 }
    | some q =>
        let s := { s with clsTotal := s.clsTotal + 1 }
        if clsOf q.score < clsOf p.score then
          { s with clsHigher := s.clsHigher + 1, legit := s.legit + 1 }
        else if clsOf p.score < clsOf q.score then { s with clsLower := s.clsLower + 1 }
        else
          let s := { s with clsSame := s.clsSame + 1 }
          if p.score < q.score then { s with sameNewer := s.sameNewer + 1 }
          else { s with sameOlder := s.sameOlder + 1, legit := s.legit + 1 }

/-- What the loop over the floored wakes counts. -/
structure StallLoop where
  passes : PassOvers := {}
  preempt : Nat := 0
  order : Nat := 0
  interSum : Nat := 0
  held : Nat := 0
  dark : Nat := 0
  worstDarkNs : UInt64 := 0
  servedTotal : Nat := 0
  servedMirror : Nat := 0
  distinctSum : Nat := 0
  interV : List UInt64 := []
  legitV : List UInt64 := []

namespace StallLoop

def serve (s : StallLoop) (served : Option Pk) : StallLoop :=
  match served with
  | none => s
  | some p =>
      { s with
        servedTotal := s.servedTotal + 1
        servedMirror := if p.lane = 0 then s.servedMirror + 1 else s.servedMirror }

/-- The picks of the wake's CPU, if it has any: first the one that served, then
those passed over for. -/
def search (src : List (UInt32 × List Pk)) (s : StallLoop) (fw : FlooredWake) : StallLoop :=
  match rowOf fw.cpu src with
  | none => s
  | some pv =>
      let served := ((pv.drop (lowerBound (fun p : Pk => p.ts < fw.runTs) pv)).takeWhile
        fun p => p.ts ≤ fw.runTs + kTickFloorNs).find? fun p => p.pid = fw.pid
      let walk := (pv.drop (lowerBound (fun p : Pk => p.ts < fw.wakeTs) pv)).takeWhile
        fun p => p.ts < fw.runTs
      { s.serve served with passes := walk.foldl (PassOvers.pass fw.pid served) s.passes }

/-- What kept the CPU from picking anybody: it was dark, or held. -/
def preempted (idle : CpuIdleIntervals) (s : StallLoop) (fw : FlooredWake) : StallLoop :=
  let s := { s with preempt := s.preempt + 1 }
  if idle.iv.isEmpty then s
  else
    let waitNs := if fw.wakeTs < fw.runTs then fw.runTs - fw.wakeTs else 0
    let idleNs := idle.overlap fw.cpu fw.wakeTs fw.runTs
    if waitNs ≠ 0 && waitNs ≤ idleNs * 2 then
      { s with
        dark := s.dark + 1
        worstDarkNs := if s.worstDarkNs < waitNs then waitNs else s.worstDarkNs }
    else { s with held := s.held + 1 }

/-- The wake is preempt-starved, or order-starved. -/
def classify (idle : CpuIdleIntervals) (s : StallLoop) (fw : FlooredWake) : StallLoop :=
  if s.passes.inter = 0 then s.preempted idle fw
  else { s with order := s.order + 1, interSum := s.interSum + s.passes.inter }

def wake (sub : SchedSubstrate) (s : StallLoop) (fw : FlooredWake) : StallLoop :=
  let s := { s with passes := { s.passes with inter := 0, legit := 0, poPids := [] } }
  let s := (s.search sub.picks.active fw).classify sub.idle fw
  { s with
    distinctSum := s.distinctSum + s.passes.poPids.length
    interV := s.interV ++ [UInt64.ofNat s.passes.inter]
    legitV := s.legitV ++ [UInt64.ofNat s.passes.legit] }

end StallLoop

def account (sub : SchedSubstrate) (floored : List FlooredWake) : StallLoop :=
  floored.foldl (StallLoop.wake sub) {}

/-! ## One wake -/

/-- The standings of the pass-overs of a wake. -/
def standings (st : Standing) (served : Option Pk) (ps : List Pk) : Nat :=
  ps.countP fun p => p.standing served = st

/-- The pass-overs that are compared with a pick. -/
def ranked (served : Option Pk) (ps : List Pk) : Nat := if served.isSome then ps.length else 0

/-- The counters after the pass-overs of a wake. -/
def PassOvers.after (served : Option Pk) (s : PassOvers) (ps : List Pk) : PassOvers where
  poTotal := s.poTotal + ps.length
  poMirror := s.poMirror + ps.countP fun p => p.lane = 0
  clsTotal := s.clsTotal + ranked served ps
  clsHigher := s.clsHigher + standings .higher served ps
  clsSame := s.clsSame + (standings .newer served ps + standings .older served ps)
  clsLower := s.clsLower + standings .lower served ps
  sameNewer := s.sameNewer + standings .newer served ps
  sameOlder := s.sameOlder + standings .older served ps
  inter := ps.length
  legit := ps.countP fun p => (p.standing served).legit
  poPids := (ps.map Pk.pid).eraseDups

theorem standings_concat (st : Standing) (served : Option Pk) (ps : List Pk) (p : Pk) :
    standings st served (ps ++ [p]) = standings st served ps + if p.standing served = st then 1 else 0 := by
  rw [standings, List.countP_append, List.countP_singleton]
  simp only [decide_eq_true_eq, standings]

theorem pass_after (served : Option Pk) (s : PassOvers) (ps : List Pk) {pid : Int32} {p : Pk} (hp : p.pid ≠ pid) :
    (s.after served ps).pass pid served p = s.after served (ps ++ [p]) := by
  have hpids : ((ps ++ [p]).map Pk.pid).eraseDups =
      if p.pid ∈ (ps.map Pk.pid).eraseDups then (ps.map Pk.pid).eraseDups
      else (ps.map Pk.pid).eraseDups ++ [p.pid] := by
    rw [List.map_append, List.map_singleton, eraseDups_concat]
    simp only [List.mem_eraseDups]
  rw [PassOvers.pass, if_neg hp]
  simp only [PassOvers.after, hpids, standings_concat, List.length_append, List.length_singleton,
    List.countP_append, List.countP_singleton, ranked, Pk.standing]
  cases served with
  | none => by_cases hl : p.lane = 0 <;> simp [hl, Nat.add_assoc, Standing.legit]
  | some q =>
    by_cases hl : p.lane = 0 <;> by_cases hgt : clsOf q.score < clsOf p.score <;>
      by_cases hlt : clsOf p.score < clsOf q.score <;> by_cases hage : p.score < q.score <;>
        simp [hl, hgt, hlt, hage, Nat.add_assoc, Standing.legit] <;> omega

theorem foldl_pass (pid : Int32) (served : Option Pk) (s : PassOvers) (walk : List Pk) :
    walk.foldl (PassOvers.pass pid served) (s.after served []) =
      s.after served (walk.filter fun p => p.pid ≠ pid) := by
  induction walk using List.reverseRecOn with
  | nil => rfl
  | append_singleton walk p ih =>
    rw [List.foldl_append, ih, List.filter_append]
    by_cases hp : p.pid = pid
    · rw [List.filter_cons_of_neg (by simpa using hp), List.filter_nil, List.append_nil]
      exact if_pos hp
    · rw [List.filter_cons_of_pos (by simpa using hp), List.filter_nil]
      exact pass_after served s _ hp

theorem after_nil (served : Option Pk) (s : PassOvers) :
    s.after served [] = { s with inter := 0, legit := 0, poPids := [] } := by
  cases served <;> rfl

theorem search_eq (src : List (UInt32 × List Pk)) (s : StallLoop) (fw : FlooredWake) :
    ({ s with passes := { s.passes with inter := 0, legit := 0, poPids := [] } } : StallLoop).search src fw =
      { s.serve (stallOf src fw).served with
        passes := s.passes.after (stallOf src fw).served (stallOf src fw).passed } := by
  rw [StallLoop.search, stallOf]
  cases rowOf fw.cpu src with
  | none => rfl
  | some pv =>
    dsimp only
    rw [← after_nil (((pv.drop (lowerBound (fun p : Pk => p.ts < fw.runTs) pv)).takeWhile
      fun p => p.ts ≤ fw.runTs + kTickFloorNs).find? fun p => p.pid = fw.pid), foldl_pass]
    cases ((pv.drop (lowerBound (fun p : Pk => p.ts < fw.runTs) pv)).takeWhile
      fun p => p.ts ≤ fw.runTs + kTickFloorNs).find? fun p => p.pid = fw.pid <;> rfl

/-- Which of the two a wake is, and what its CPU did if nobody was picked. -/
theorem classify_eq (idle : CpuIdleIntervals) {s : StallLoop} {w : WakeStall} (h : s.passes.inter = w.inter) :
    s.classify idle w.fw =
      { s with
        preempt := s.preempt + if w.preempt then 1 else 0
        order := s.order + if w.preempt then 0 else 1
        interSum := s.interSum + w.inter
        dark := s.dark + if w.preempt && !idle.iv.isEmpty && w.dark idle then 1 else 0
        held := s.held + if w.preempt && !idle.iv.isEmpty && !w.dark idle then 1 else 0
        worstDarkNs :=
          if w.preempt && !idle.iv.isEmpty && w.dark idle then
            if s.worstDarkNs < w.waitNs then w.waitNs else s.worstDarkNs
          else s.worstDarkNs } := by
  have hdark : w.dark idle = ((if w.fw.wakeTs < w.fw.runTs then w.fw.runTs - w.fw.wakeTs else 0) ≠ 0 &&
      (if w.fw.wakeTs < w.fw.runTs then w.fw.runTs - w.fw.wakeTs else 0) ≤
        idle.overlap w.fw.cpu w.fw.wakeTs w.fw.runTs * 2) := rfl
  rw [StallLoop.classify, h]
  by_cases hp : w.inter = 0
  · have hpreempt : w.preempt = true := decide_eq_true hp
    rw [if_pos hp, hpreempt, hp, StallLoop.preempted]
    dsimp only
    rw [← hdark]
    cases idle.iv.isEmpty <;> cases w.dark idle <;> rfl
  · have hpreempt : w.preempt = false := decide_eq_false hp
    rw [if_neg hp, hpreempt]
    rfl

theorem serve_eq (s : StallLoop) (served : Option Pk) :
    s.serve served =
      { s with
        servedTotal := s.servedTotal + if served.isSome then 1 else 0
        servedMirror := s.servedMirror + if served.any fun p => p.lane = 0 then 1 else 0 } := by
  cases served with
  | none => rfl
  | some p => by_cases hl : p.lane = 0 <;> simp [StallLoop.serve, hl]

def StallLoop.add (idle : CpuIdleIntervals) (s : StallLoop) (w : WakeStall) : StallLoop :=
  let stranded := w.preempt && !idle.iv.isEmpty
  { passes := s.passes.after w.served w.passed
    preempt := s.preempt + if w.preempt then 1 else 0
    order := s.order + if w.preempt then 0 else 1
    interSum := s.interSum + w.inter
    held := s.held + if stranded && !w.dark idle then 1 else 0
    dark := s.dark + if stranded && w.dark idle then 1 else 0
    worstDarkNs :=
      if stranded && w.dark idle then
        if s.worstDarkNs < w.waitNs then w.waitNs else s.worstDarkNs
      else s.worstDarkNs
    servedTotal := s.servedTotal + if w.served.isSome then 1 else 0
    servedMirror := s.servedMirror + if w.served.any fun p => p.lane = 0 then 1 else 0
    distinctSum := s.distinctSum + w.distinct
    interV := s.interV ++ [UInt64.ofNat w.inter]
    legitV := s.legitV ++ [UInt64.ofNat w.legit] }

theorem wake_eq (sub : SchedSubstrate) (s : StallLoop) (fw : FlooredWake) :
    s.wake sub fw = s.add sub.idle (stallOf sub.picks.active fw) := by
  have hfw : (stallOf sub.picks.active fw).fw = fw := by
    rw [stallOf]
    cases rowOf fw.cpu sub.picks.active <;> rfl
  rw [StallLoop.wake]
  dsimp only
  rw [search_eq, serve_eq]
  generalize stallOf sub.picks.active fw = w at hfw ⊢
  subst hfw
  rw [classify_eq sub.idle rfl]
  rfl

/-! ## All the wakes -/

/-- The counters are the totals over the wakes. -/
structure StallLoop.Matches (idle : CpuIdleIntervals) (ws : List WakeStall) (s : StallLoop) : Prop where
  poTotal : s.passes.poTotal = total WakeStall.inter ws
  poMirror : s.passes.poMirror = total (fun w => w.passed.countP fun p => p.lane = 0) ws
  clsTotal : s.passes.clsTotal = total WakeStall.inter (ws.filter fun w => w.served.isSome)
  clsHigher : s.passes.clsHigher = total (WakeStall.countOf .higher) (ws.filter fun w => w.served.isSome)
  clsSame : s.passes.clsSame =
    total (fun w => w.countOf .newer + w.countOf .older) (ws.filter fun w => w.served.isSome)
  clsLower : s.passes.clsLower = total (WakeStall.countOf .lower) (ws.filter fun w => w.served.isSome)
  sameNewer : s.passes.sameNewer = total (WakeStall.countOf .newer) (ws.filter fun w => w.served.isSome)
  sameOlder : s.passes.sameOlder = total (WakeStall.countOf .older) (ws.filter fun w => w.served.isSome)
  preempt : s.preempt = (ws.filter WakeStall.preempt).length
  order : s.order = (ws.filter fun w => !w.preempt).length
  interSum : s.interSum = total WakeStall.inter (ws.filter fun w => !w.preempt)
  dark : s.dark = if idle.iv.isEmpty then 0 else ((ws.filter WakeStall.preempt).filter fun w => w.dark idle).length
  held : s.held = if idle.iv.isEmpty then 0 else ((ws.filter WakeStall.preempt).filter fun w => !w.dark idle).length
  worstDarkNs : s.worstDarkNs = (if idle.iv.isEmpty then [] else
    (ws.filter WakeStall.preempt).filter fun w => w.dark idle).foldl
      (fun m w => if m < w.waitNs then w.waitNs else m) 0
  servedTotal : s.servedTotal = (ws.filter fun w => w.served.isSome).length
  servedMirror : s.servedMirror =
    (ws.filter fun w => w.served.isSome).countP fun w => w.served.any fun p => p.lane = 0
  distinctSum : s.distinctSum = total WakeStall.distinct ws
  interV : s.interV = ws.map fun w => UInt64.ofNat w.inter
  legitV : s.legitV = ws.map fun w => UInt64.ofNat w.legit

theorem total_concat (count : WakeStall → Nat) (ws : List WakeStall) (w : WakeStall) :
    total count (ws ++ [w]) = total count ws + count w := by
  rw [total, List.map_append, List.sum_append]
  exact congrArg (total count ws + ·) (Nat.add_zero _)

theorem countOf_of_unserved {w : WakeStall} (h : w.served = none) {st : Standing} (hst : st ≠ .unranked) :
    w.countOf st = 0 := by
  refine List.countP_eq_zero.mpr fun p _ hp => hst ?_
  rw [h] at hp
  exact (of_decide_eq_true hp).symm

theorem total_filter_concat (count : WakeStall → Nat) (p : WakeStall → Bool) (ws : List WakeStall) (w : WakeStall) :
    total count ((ws ++ [w]).filter p) = total count (ws.filter p) + if p w then count w else 0 := by
  rw [List.filter_append]
  cases hp : p w with
  | false =>
    rw [List.filter_cons_of_neg (by simpa using hp), List.filter_nil, List.append_nil]
    rfl
  | true =>
    rw [List.filter_cons_of_pos hp, List.filter_nil]
    exact total_concat count _ w

theorem total_ranked_concat (count : WakeStall → Nat) (ws : List WakeStall) (w : WakeStall)
    (h : w.served = none → count w = 0) :
    total count ((ws ++ [w]).filter fun w => w.served.isSome) =
      total count (ws.filter fun w => w.served.isSome) + count w := by
  rw [total_filter_concat]
  cases hs : w.served with
  | none => rw [h hs]; rfl
  | some p => rfl

theorem length_filter_concat (p : WakeStall → Bool) (ws : List WakeStall) (w : WakeStall) :
    ((ws ++ [w]).filter p).length = (ws.filter p).length + if p w then 1 else 0 := by
  rw [← List.countP_eq_length_filter, ← List.countP_eq_length_filter, List.countP_append, List.countP_singleton]

/-- Of the wakes without a pick, those that the CPU kept so in some way, once it
is known what the CPUs did. -/
theorem length_stranded_concat (empty : Bool) (kept : WakeStall → Bool) (ws : List WakeStall) (w : WakeStall) :
    (if empty then 0 else (((ws ++ [w]).filter WakeStall.preempt).filter kept).length) =
      (if empty then 0 else ((ws.filter WakeStall.preempt).filter kept).length) +
        if w.preempt && !empty && kept w then 1 else 0 := by
  rw [List.filter_filter, List.filter_filter, length_filter_concat]
  cases empty <;> cases w.preempt <;> cases kept w <;> rfl

theorem StallLoop.Matches.add {idle : CpuIdleIntervals} {ws : List WakeStall} {s : StallLoop}
    (h : s.Matches idle ws) (w : WakeStall) : (s.add idle w).Matches idle (ws ++ [w]) where
  poTotal := by rw [total_concat, ← h.poTotal]; rfl
  poMirror := by rw [total_concat, ← h.poMirror]; rfl
  clsTotal := by
    rw [total_filter_concat, ← h.clsTotal]
    rfl
  clsHigher := by
    rw [total_ranked_concat _ _ _ fun hs => countOf_of_unserved hs (by decide), ← h.clsHigher]
    rfl
  clsSame := by
    rw [total_ranked_concat _ _ _ fun hs => ?_, ← h.clsSame]
    · rfl
    · rw [countOf_of_unserved hs (by decide), countOf_of_unserved hs (by decide)]
  clsLower := by
    rw [total_ranked_concat _ _ _ fun hs => countOf_of_unserved hs (by decide), ← h.clsLower]
    rfl
  sameNewer := by
    rw [total_ranked_concat _ _ _ fun hs => countOf_of_unserved hs (by decide), ← h.sameNewer]
    rfl
  sameOlder := by
    rw [total_ranked_concat _ _ _ fun hs => countOf_of_unserved hs (by decide), ← h.sameOlder]
    rfl
  preempt := by rw [length_filter_concat, ← h.preempt]; rfl
  order := by
    rw [length_filter_concat, ← h.order]
    cases hp : w.preempt <;> simp [StallLoop.add, hp]
  interSum := by
    rw [total_filter_concat, ← h.interSum]
    refine congrArg (s.interSum + ·) ?_
    by_cases hp : w.inter = 0 <;> simp [WakeStall.preempt, hp]
  dark := by
    rw [length_stranded_concat, ← h.dark]
    rfl
  held := by
    rw [length_stranded_concat, ← h.held]
    rfl
  worstDarkNs := by
    have hw := h.worstDarkNs
    rw [List.filter_filter] at hw ⊢
    rw [List.filter_append]
    cases he : idle.iv.isEmpty <;> cases hp : w.preempt <;> cases hd : w.dark idle <;>
      simp [StallLoop.add, he, hp, hd] at hw ⊢ <;> rw [hw]
  servedTotal := by rw [length_filter_concat, ← h.servedTotal]; rfl
  servedMirror := by
    rw [List.countP_filter, List.countP_append, List.countP_singleton, ← List.countP_filter, ← h.servedMirror]
    refine congrArg (s.servedMirror + ·) ?_
    cases w.served <;> simp
  distinctSum := by rw [total_concat, ← h.distinctSum]; rfl
  interV := by rw [List.map_append, ← h.interV]; rfl
  legitV := by rw [List.map_append, ← h.legitV]; rfl

/-- **The loop of `dispatch-stall`** counts what the wakes come to. -/
theorem matches_account (sub : SchedSubstrate) (floored : List FlooredWake) :
    (account sub floored).Matches sub.idle (floored.map (stallOf sub.picks.active)) := by
  induction floored using List.reverseRecOn with
  | nil => constructor <;> first | rfl | (cases sub.idle.iv.isEmpty <;> rfl)
  | append_singleton floored fw ih =>
    have hstep : account sub (floored ++ [fw]) = (account sub floored).add sub.idle (stallOf sub.picks.active fw) := by
      rw [account, List.foldl_append]
      exact wake_eq sub (account sub floored) fw
    rw [hstep, List.map_append]
    exact ih.add _

/-- What the report composes its conclusion from is what the loop counted. -/
theorem counts_eq_account (s : DispatchStallReport) (sub : SchedSubstrate) :
    s.counts sub =
      { n := (account sub s.floored).preempt + (account sub s.floored).order
        preempt := (account sub s.floored).preempt
        order := (account sub s.floored).order
        interSum := (account sub s.floored).interSum
        distinctSum := (account sub s.floored).distinctSum
        haveIdle := !sub.idle.iv.isEmpty
        dark := (account sub s.floored).dark
        held := (account sub s.floored).held
        worstDarkNs := (account sub s.floored).worstDarkNs
        poTotal := (account sub s.floored).passes.poTotal
        poMirror := (account sub s.floored).passes.poMirror
        servedTotal := (account sub s.floored).servedTotal
        servedMirror := (account sub s.floored).servedMirror
        clsTotal := (account sub s.floored).passes.clsTotal
        clsHigher := (account sub s.floored).passes.clsHigher
        clsSame := (account sub s.floored).passes.clsSame
        clsLower := (account sub s.floored).passes.clsLower
        sameNewer := (account sub s.floored).passes.sameNewer
        interV := sorted (account sub s.floored).interV
        legitV := sorted (account sub s.floored).legitV
        reconstructed := sub.picks.reconstructed } := by
  have h := matches_account sub s.floored
  rw [h.preempt, h.order, h.interSum, h.distinctSum, h.dark, h.held, h.worstDarkNs, h.poTotal, h.poMirror,
    h.servedTotal, h.servedMirror, h.clsTotal, h.clsHigher, h.clsSame, h.clsLower, h.sameNewer, h.interV, h.legitV,
    DispatchStallReport.counts]
  cases sub.idle.iv.isEmpty <;> rfl

/-! ## What the trace bounds -/

theorem length_active_le (trace : List TraceRecord) {cpu : UInt32} {pv : List Pk}
    (h : rowOf cpu (substrate env trace).picks.active = some pv) : pv.length ≤ trace.length := by
  obtain ⟨val, -, hactive⟩ := active_substrate env trace
  have hmem := mem_of_rowOf h
  rw [hactive, CpuPickTimeline.inOrder] at hmem
  obtain ⟨r, hr, hpv⟩ := List.mem_map.mp hmem
  obtain ⟨-, rfl⟩ := Prod.mk.inj hpv
  obtain ⟨-, hval⟩ := mem_foldl_push.mp hr
  calc (orderBy Pk.ts r.2).length = r.2.length := (List.mergeSort_perm _ _).length_eq
    _ ≤ ((schedEvents trace).filter fun e => e.op = activeOp trace).length := by
      rw [hval, List.length_map]
      exact List.length_filter_le _ _
    _ ≤ (schedEvents trace).length := List.length_filter_le _ _
    _ ≤ trace.length := List.length_filterMap_le _ _

theorem inter_le (trace : List TraceRecord) {w : WakeStall} (h : w ∈ stalls env trace) : w.inter ≤ trace.length := by
  obtain ⟨fw, -, rfl⟩ := List.mem_map.mp h
  rw [WakeStall.inter, stallOf]
  cases hrow : rowOf fw.cpu (substrate env trace).picks.active with
  | none => exact Nat.zero_le _
  | some pv =>
    refine Nat.le_trans ?_ (length_active_le env trace hrow)
    exact ((List.filter_sublist.trans (List.takeWhile_sublist _)).trans (List.drop_sublist _ _)).length_le

theorem legit_le_inter (w : WakeStall) : w.legit ≤ w.inter := List.countP_le_length

theorem distinct_le_inter (w : WakeStall) : w.distinct ≤ w.inter := by
  have hnodup := nodup_eraseDups (w.passed.map Pk.pid)
  have hsub : (w.passed.map Pk.pid).eraseDups ⊆ w.passed.map Pk.pid := fun a ha => List.mem_eraseDups.mp ha
  calc w.distinct ≤ (w.passed.map Pk.pid).length := (hnodup.subperm hsub).length_le
    _ = w.inter := List.length_map _

/-! ## The order statistic -/

/-- Where one row is nowhere above another, no order statistic of it is. -/
theorem qAt_le {v w : List UInt64} (h : List.Forall₂ (· ≤ ·) v w) (f : Rat) :
    qAt env (sorted v) f ≤ qAt env (sorted w) f := by
  have hv : (sorted v).length = v.length := (List.mergeSort_perm v _).length_eq
  have hw : (sorted w).length = v.length := (List.mergeSort_perm w _).length_eq.trans h.length_eq.symm
  rw [qAt, qAt, hv, hw]
  generalize env.toNat (env.mul (env.ofNat v.length) (env.ofRat f)) = i
  rcases Nat.eq_zero_or_pos v.length with hnil | hpos
  · rw [List.getD_eq_default _ _ (by omega)]
    exact UInt64.zero_le
  · have hi : (if v.length ≤ i then v.length - 1 else i) < v.length := by split <;> omega
    rw [List.getD_eq_getElem _ _ (hv.symm ▸ hi), List.getD_eq_getElem _ _ (hw.symm ▸ hi)]
    exact OrderStatistics.rel_getElem_of_forall₂ (fun a => UInt64.le_refl a) (fun a b c => UInt64.le_trans) h
      (List.mergeSort_perm v _) (List.mergeSort_perm w _) (pairwise_sorted v) (pairwise_sorted w) _ _

/-! ## The account -/

/-- The counters after the floored wakes of a trace. -/
def stallAccount (trace : List TraceRecord) : StallLoop := account (substrate env trace) (flooredWakes env trace)

/-- `p99_` and `p99_legit_`. -/
def passoverP99 (trace : List TraceRecord) : UInt64 := qAt env (sorted (stallAccount env trace).interV) 0.99
def legitP99 (trace : List TraceRecord) : UInt64 := qAt env (sorted (stallAccount env trace).legitV) 0.99

/-- The counters of a trace close, and what is published of them is in
bounds. A double holds a count up to `2 ^ 53`. -/
structure DispatchClosed (trace : List TraceRecord) : Prop where
  floored : (stallAccount env trace).preempt + (stallAccount env trace).order = (flooredWakes env trace).length
  idle : (substrate env trace).idle.iv.isEmpty = false →
    (stallAccount env trace).dark + (stallAccount env trace).held = (stallAccount env trace).preempt
  served : (stallAccount env trace).passes.clsTotal =
    total WakeStall.inter ((stalls env trace).filter fun w => w.served.isSome)
  ranked : (stallAccount env trace).passes.clsHigher + (stallAccount env trace).passes.clsSame +
    (stallAccount env trace).passes.clsLower = (stallAccount env trace).passes.clsTotal
  same : (stallAccount env trace).passes.sameNewer + (stallAccount env trace).passes.sameOlder =
    (stallAccount env trace).passes.clsSame
  legit : ∀ w ∈ stalls env trace, w.legit ≤ w.inter
  distinct : ∀ w ∈ stalls env trace, w.distinct ≤ w.inter
  p99 : legitP99 env trace ≤ passoverP99 env trace
  ceiling : ∀ x, (dispatchResult env trace).value? "montauk_analysis_dispatch_ceiling_remains_pct" = some x →
    100 * (passoverP99 env trace).toNat ≤ 2 ^ 53 → env.le (env.ofNat 0) x = true ∧ env.le x (env.ofNat 100) = true
  concentration : ∀ w ∈ stalls env trace, w.inter ≠ 0 →
    env.le (env.ofNat 0) (env.div (env.ofNat w.distinct) (env.ofNat w.inter)) = true ∧
      env.le (env.div (env.ofNat w.distinct) (env.ofNat w.inter)) (env.ofNat 1) = true

/-- What is assumed of doubles: a part is no more than its whole, and of a
whole that they hold a hundredfold it is no more than all percent. -/
structure PartsBounded : Prop where
  share : ∀ part whole, part ≤ whole → whole ≠ 0 →
    env.le (env.ofNat 0) (env.div (env.ofNat part) (env.ofNat whole)) = true ∧
      env.le (env.div (env.ofNat part) (env.ofNat whole)) (env.ofNat 1) = true
  percent : ∀ part whole, part ≤ whole → 100 * whole ≤ 2 ^ 53 →
    env.le (env.ofNat 0) (percent env part whole) = true ∧ env.le (percent env part whole) (env.ofNat 100) = true

theorem standings_add (q : Pk) (ps : List Pk) :
    standings .higher (some q) ps + (standings .newer (some q) ps + standings .older (some q) ps) +
      standings .lower (some q) ps = ps.length := by
  induction ps using List.reverseRecOn with
  | nil => rfl
  | append_singleton ps p ih =>
    have hone : p.standing (some q) ≠ .unranked := by
      rw [Pk.standing]
      repeat' split
      all_goals exact Standing.noConfusion
    simp only [standings_concat, List.length_append, List.length_singleton]
    cases hst : p.standing (some q) with
    | unranked => exact absurd hst hone
    | _ => simp; omega

variable {env}

/-- The gauges of a report whose wakes were counted end with the ceiling. -/
theorem gauges_ceiling (c : StallCounts) (censored : List UInt64) {res : ReportResult F} (hres : res.gauges = [])
    (hn : c.n ≠ 0) :
    (DispatchStallReport.gauges env c censored res).value? "montauk_analysis_dispatch_ceiling_remains_pct" =
      some (percent env (qAt env c.legitV 0.99).toNat (qAt env c.interV 0.99).toNat) := by
  rw [DispatchStallReport.gauges]
  dsimp only
  rw [if_neg hn, ReportResult.value?]
  cases c.haveIdle <;> cases c.reconstructed <;> by_cases hc : censored = [] <;>
    simp only [hc, ne_eq, not_true_eq_false, not_false_eq_true, if_true, if_false, Bool.not_true, Bool.not_false,
      Bool.false_eq_true, ReportResult.gauge, hres, List.nil_append, List.cons_append] <;>
    rfl

theorem ceiling_eq {trace : List TraceRecord} (h : flooredWakes env trace ≠ []) :
    (dispatchResult env trace).value? "montauk_analysis_dispatch_ceiling_remains_pct" =
      some (percent env (legitP99 env trace).toNat (passoverP99 env trace).toNat) := by
  have hfloored : (analyze env trace).dispatchStall.floored ≠ [] := analyze_floored env trace ▸ h
  have hn : ((analyze env trace).dispatchStall.counts (substrate env trace)).n ≠ 0 := by
    rw [(counts_eq _ _).1, List.length_map]
    exact fun h0 => hfloored (List.length_eq_zero_iff.mp h0)
  have hcounts := counts_eq_account (analyze env trace).dispatchStall (substrate env trace)
  rw [analyze_floored] at hcounts
  rw [dispatchResult, DispatchStallReport.compute, if_neg hfloored]
  dsimp only
  rw [if_neg hn]
  refine (gauges_ceiling _ _ rfl hn).trans ?_
  rw [hcounts]
  rfl

theorem stalls_legit_le {trace : List TraceRecord} (hfit : trace.length < 2 ^ 64) :
    List.Forall₂ (· ≤ ·) ((stalls env trace).map fun w => UInt64.ofNat w.legit)
      ((stalls env trace).map fun w => UInt64.ofNat w.inter) := by
  rw [List.forall₂_map_left_iff, List.forall₂_map_right_iff, List.forall₂_same]
  intro w hw
  have hinter : w.inter < 2 ^ 64 := Nat.lt_of_le_of_lt (inter_le env trace hw) hfit
  have hlegit : w.legit < 2 ^ 64 := Nat.lt_of_le_of_lt (legit_le_inter w) hinter
  rw [UInt64.le_iff_toNat_le, UInt64.toNat_ofNat_of_lt' hlegit, UInt64.toNat_ofNat_of_lt' hinter]
  exact legit_le_inter w

theorem legitP99_le {trace : List TraceRecord} (hfit : trace.length < 2 ^ 64) :
    legitP99 env trace ≤ passoverP99 env trace := by
  have h := matches_account (substrate env trace) (flooredWakes env trace)
  rw [legitP99, passoverP99, stallAccount, h.interV, h.legitV]
  exact qAt_le env (stalls_legit_le hfit) _

theorem total_add (f g : WakeStall → Nat) (ws : List WakeStall) :
    total (fun w => f w + g w) ws = total f ws + total g ws := List.sum_map_add

/-- **The account of `dispatch-stall`** closes on every trace. -/
theorem dispatchClosed (hparts : PartsBounded env) (trace : List TraceRecord) (hfit : trace.length < 2 ^ 64) :
    DispatchClosed env trace := by
  have h := matches_account (substrate env trace) (flooredWakes env trace)
  refine ⟨?_, fun hidle => ?_, h.clsTotal, ?_, ?_, fun w _ => legit_le_inter w, fun w _ => distinct_le_inter w,
    legitP99_le hfit, fun x hx hdouble => ?_, fun w _ hw => hparts.share _ _ (distinct_le_inter w) hw⟩
  · rw [stallAccount, h.preempt, h.order, ← List.length_eq_length_filter_add, List.length_map]
  · rw [stallAccount, h.dark, h.held, h.preempt, if_neg (by simp [hidle]), if_neg (by simp [hidle]),
      ← List.length_eq_length_filter_add]
  · rw [stallAccount, h.clsHigher, h.clsSame, h.clsLower, h.clsTotal, ← total_add, ← total_add, total, total]
    refine congrArg List.sum (List.map_congr_left fun w hw => ?_)
    obtain ⟨q, hq⟩ := Option.isSome_iff_exists.mp (List.mem_filter.mp hw).2
    rw [WakeStall.countOf, WakeStall.countOf, WakeStall.countOf, WakeStall.countOf, hq]
    exact standings_add q w.passed
  · rw [stallAccount, h.sameNewer, h.sameOlder, h.clsSame, total_add]
  · have hne : flooredWakes env trace ≠ [] := by
      intro hnil
      have hnone : (dispatchResult env trace).gauges = [] :=
        compute_gauges_of_none ((analyze_floored env trace).trans hnil)
      rw [ReportResult.value?, hnone] at hx
      cases hx
    obtain rfl := Option.some_inj.mp ((ceiling_eq hne).symm.trans hx)
    exact hparts.percent _ _ (UInt64.le_iff_toNat_le.mp (legitP99_le hfit)) hdouble

theorem partsBounded_exact : PartsBounded exactEnv where
  share part whole hle hne := by
    have hpos : (0 : Rat) < whole := Nat.cast_pos.mpr (Nat.pos_of_ne_zero hne)
    have hle' : (part : Rat) ≤ ((1 : Nat) : Rat) * whole := by
      rw [Nat.cast_one, one_mul]
      exact Nat.cast_le.mpr hle
    have hone : (part : Rat) / whole ≤ ((1 : Nat) : Rat) := (div_le_iff₀ hpos).mpr hle'
    have hzero : ((0 : Nat) : Rat) ≤ (part : Rat) / whole := by
      rw [Nat.cast_zero]
      exact div_nonneg (Nat.cast_nonneg part) hpos.le
    exact ⟨decide_eq_true hzero, decide_eq_true hone⟩
  percent part whole hle _ := by
    rw [percent]
    split
    · rename_i hne
      have hpos : (0 : Rat) < whole := Nat.cast_pos.mpr (Nat.pos_of_ne_zero hne)
      have hle' : ((100 : Nat) : Rat) * part ≤ ((100 : Nat) : Rat) * whole := by
        exact_mod_cast Nat.mul_le_mul_left 100 hle
      have hfull : ((100 : Nat) : Rat) * part / whole ≤ ((100 : Nat) : Rat) := (div_le_iff₀ hpos).mpr hle'
      have hzero : ((0 : Nat) : Rat) ≤ ((100 : Nat) : Rat) * part / whole := by
        rw [Nat.cast_zero]
        exact div_nonneg (mul_nonneg (Nat.cast_nonneg 100) (Nat.cast_nonneg part)) hpos.le
      exact ⟨decide_eq_true hzero, decide_eq_true hfull⟩
    · have hfull : ((0 : Nat) : Rat) ≤ ((100 : Nat) : Rat) := Nat.cast_le.mpr (by decide)
      exact ⟨decide_eq_true (le_refl ((0 : Nat) : Rat)), decide_eq_true hfull⟩

/-- A wake that waits 2 ms while its CPU picks another thread. -/
theorem dispatchClosed_passed :
    DispatchClosed exactEnv
      [.sched { op := .pick, cpu := 0, pid := 17, secondaryPid := 0, lastCpu := 0, subIdx := 0, freqMhz := 0,
                score := 0, runtimeNs := 0, budgetNs := 0, timestampNs := 4000000 },
        schedAt .wake2run 5000000 0 2000000] :=
  dispatchClosed partsBounded_exact _ (by decide)

end Montauk.Tools
