import Mathlib.Data.List.GetD
import Montauk.Tools.Analysis

/-!
# Where the topology stands in the stream

`locality` gives a migration its tier when the record comes, with the topology
it has by then. So a migration before the snapshot has none: the counts are
those of the snapshot for all migrations if and only if none of those before it
is between two CPUs that the snapshot knows (`locality_exact_iff`).
-/

namespace Montauk.Tools

open Scan Timeline Trace
open App (spelling)

variable {F : Type} (env : ReportEnv F)

/-! ## Migrations -/

/-- A `WAKE2RUN` on another CPU than the one before. -/
def SchedEvent.isMove (e : SchedEvent) : Bool :=
  env.qual.matchesPid e && e.op = .wake2run && !(e.lastCpu < 0 || e.lastCpu = e.cpu.toInt32)

def TraceRecord.move? (r : TraceRecord) : Option SchedEvent := r.schedEvent?.filter fun e => e.isMove env

def moves (trace : List TraceRecord) : List SchedEvent := trace.filterMap (TraceRecord.move? env)

/-- The tier that a topology gives a migration. -/
def moveTier (topo : List (UInt32 × TopoEntry)) (e : SchedEvent) : Option (Fin 4) :=
  tierBetween topo e.lastCpu.toUInt32 e.cpu

/-- The record is a snapshot of the topology. -/
def ProviderEvent.isTopology (e : ProviderEvent) : Bool := cstr (e.name.take 32) = spelling "cache_topology"

def TraceRecord.isTopology : TraceRecord → Bool
  | .provider e => e.isTopology
  | _ => false

def ProviderEvent.topology (e : ProviderEvent) : List (UInt32 × TopoEntry) :=
  (LocalityReport.parseTopo (e.rest.take e.payloadLen.toNat) {}).topo

/-- From the first tier with any moves on, one has more than the one before
it. -/
def Scatters (tier : Fin 4 → Nat) : Prop :=
  ∃ t : Fin 3, (∃ f ≤ t.castSucc, 0 < tier f) ∧ tier t.castSucc < tier t.succ

/-- What the report is to say of a stream that without its snapshot is `trace`:
the topology of the snapshot holds for all its migrations. -/
structure LocalityExact (trace : List TraceRecord) (topo : List (UInt32 × TopoEntry)) (s : LocalityReport) : Prop where
  tier : ∀ t, s.tier t = (moves env trace).countP fun e => moveTier topo e = some t
  unmapped : s.unmapped = (moves env trace).countP fun e => (moveTier topo e).isNone
  migrations : s.migrations = (moves env trace).length
  sum : s.tiers.sum + s.unmapped = s.migrations
  cause : s.stealMig + s.placeMig = s.migrations
  scattered : (s.compute env).klass = spelling "SCATTERED" ↔ Scatters s.tier

/-! ## One record -/

section

variable {s : LocalityReport}

structure LocalityReport.Moved (e : SchedEvent) (s t : LocalityReport) : Prop where
  topo : t.topo = s.topo
  haveTopo : t.haveTopo = s.haveTopo
  tier : ∀ i, t.tier i = s.tier i + if moveTier s.topo e = some i then 1 else 0
  unmapped : t.unmapped = s.unmapped + if (moveTier s.topo e).isNone then 1 else 0
  migrations : t.migrations = s.migrations + 1
  cause : t.stealMig + t.placeMig = s.stealMig + s.placeMig + 1

theorem LocalityReport.moved (s : LocalityReport) (e : SchedEvent) : Moved e s (s.migrate e) := by
  have hcause : ∀ (bySteal : Bool) (m n : Nat),
      (if bySteal then m + 1 else m) + (if bySteal then n else n + 1) = m + n + 1 := by
    intro bySteal m n
    cases bySteal
    · exact (Nat.add_assoc m n 1).symm
    · exact Nat.add_right_comm m 1 n
  rw [migrate]
  dsimp only
  cases ht : tierBetween s.topo e.lastCpu.toUInt32 e.cpu with
  | none =>
    have hnone : moveTier s.topo e = none := ht
    refine ⟨rfl, rfl, fun i => ?_, ?_, rfl, hcause _ _ _⟩
    · rw [hnone]
      rfl
    · rw [hnone]
      rfl
  | some t =>
    have hsome : moveTier s.topo e = some t := ht
    refine ⟨rfl, rfl, fun i => ?_, ?_, rfl, hcause _ _ _⟩
    · rw [hsome]
      dsimp only
      by_cases hi : i = t
      · rw [if_pos hi, if_pos (congrArg some hi.symm)]
      · rw [if_neg hi, if_neg fun h => hi (Option.some_inj.mp h).symm, Nat.add_zero]
    · rw [hsome]
      rfl

/-- What stays behind a record that is no migration. -/
structure LocalityReport.Same (s t : LocalityReport) : Prop where
  topo : t.topo = s.topo
  haveTopo : t.haveTopo = s.haveTopo
  tier : t.tier = s.tier
  unmapped : t.unmapped = s.unmapped
  migrations : t.migrations = s.migrations
  stealMig : t.stealMig = s.stealMig
  placeMig : t.placeMig = s.placeMig

theorem LocalityReport.same_fold (s : LocalityReport) {r : TraceRecord} (htopo : r.isTopology = false)
    (hmove : r.move? env = none) : Same s (s.fold env r) := by
  cases r with
  | sched e =>
    rw [TraceRecord.move?, TraceRecord.schedEvent?, Option.filter_some] at hmove
    have hno : ¬ e.isMove env = true := fun h => by
      rw [if_pos h] at hmove
      cases hmove
    rw [fold, foldSched]
    by_cases hq : env.qual.matchesPid e = true
    · rw [hq, Bool.not_true, if_neg Bool.false_ne_true]
      by_cases hpick : e.op = .pick
      · rw [if_pos hpick]
        exact ⟨rfl, rfl, rfl, rfl, rfl, rfl, rfl⟩
      · rw [if_neg hpick]
        by_cases hwake : e.op = .wake2run
        · rw [if_neg (not_not.mpr hwake)]
          by_cases hstay : e.lastCpu < 0 ∨ e.lastCpu = e.cpu.toInt32
          · rw [if_pos hstay]
            exact ⟨rfl, rfl, rfl, rfl, rfl, rfl, rfl⟩
          · refine absurd ?_ hno
            simp [SchedEvent.isMove, hq, hwake, not_or.mp hstay]
        · rw [if_pos hwake]
          exact ⟨rfl, rfl, rfl, rfl, rfl, rfl, rfl⟩
    · rw [Bool.eq_false_iff.mpr hq, Bool.not_false, if_pos rfl]
      exact ⟨rfl, rfl, rfl, rfl, rfl, rfl, rfl⟩
  | provider e =>
    rw [fold, if_pos (of_decide_eq_false htopo)]
    exact ⟨rfl, rfl, rfl, rfl, rfl, rfl, rfl⟩
  | _ => exact ⟨rfl, rfl, rfl, rfl, rfl, rfl, rfl⟩

theorem LocalityReport.moved_fold (s : LocalityReport) {r : TraceRecord} {e : SchedEvent}
    (hmove : r.move? env = some e) : Moved e s (s.fold env r) := by
  cases r with
  | sched e' =>
    rw [TraceRecord.move?, TraceRecord.schedEvent?, Option.filter_some] at hmove
    by_cases hm : e'.isMove env = true
    · rw [if_pos hm] at hmove
      obtain rfl := Option.some_inj.mp hmove
      simp only [SchedEvent.isMove, Bool.and_eq_true, decide_eq_true_eq, Bool.not_eq_true', Bool.or_eq_false_iff,
        decide_eq_false_iff_not] at hm
      obtain ⟨⟨hq, hwake⟩, hfirst, hother⟩ := hm
      have hpick : e'.op ≠ .pick := by
        rw [hwake]
        exact fun h => by cases h
      rw [fold, foldSched, hq, Bool.not_true, if_neg Bool.false_ne_true, if_neg hpick, if_neg (not_not.mpr hwake),
        if_neg (not_or.mpr ⟨hfirst, hother⟩)]
      have hmoved := moved { s with
        tsMin := if s.tsMin = 0 ∨ e'.timestampNs < s.tsMin then e'.timestampNs else s.tsMin
        tsMax := if s.tsMax < e'.timestampNs then e'.timestampNs else s.tsMax } e'
      exact ⟨hmoved.topo, hmoved.haveTopo, hmoved.tier, hmoved.unmapped, hmoved.migrations, hmoved.cause⟩
    · rw [if_neg hm] at hmove
      cases hmove
  | _ => cases hmove

end

/-! ## A run without a snapshot -/

/-- What a run changes, all of it with the topology it started with. -/
structure LocalityReport.Ran (trace : List TraceRecord) (s t : LocalityReport) : Prop where
  topo : t.topo = s.topo
  haveTopo : t.haveTopo = s.haveTopo
  tier : ∀ i, t.tier i = s.tier i + (moves env trace).countP fun e => moveTier s.topo e = some i
  unmapped : t.unmapped = s.unmapped + (moves env trace).countP fun e => (moveTier s.topo e).isNone
  migrations : t.migrations = s.migrations + (moves env trace).length
  cause : t.stealMig + t.placeMig = s.stealMig + s.placeMig + (moves env trace).length

theorem LocalityReport.ran (trace : List TraceRecord) (htrace : ∀ r ∈ trace, r.isTopology = false) :
    ∀ s : LocalityReport, Ran env trace s (trace.foldl (LocalityReport.fold env) s) := by
  induction trace with
  | nil => exact fun s => ⟨rfl, rfl, fun _ => rfl, rfl, rfl, rfl⟩
  | cons r rest ih =>
    intro s
    have hrest := ih (fun r' hr' => htrace r' (List.mem_cons_of_mem r hr')) (s.fold env r)
    rw [List.foldl_cons]
    cases hmove : r.move? env with
    | none =>
      have hmoves : moves env (r :: rest) = moves env rest := List.filterMap_cons_none hmove
      have hsame := LocalityReport.same_fold env s (htrace r List.mem_cons_self) hmove
      constructor
      · exact hrest.topo.trans hsame.topo
      · exact hrest.haveTopo.trans hsame.haveTopo
      · intro i
        rw [hrest.tier, hsame.tier, hsame.topo, hmoves]
      · rw [hrest.unmapped, hsame.unmapped, hsame.topo, hmoves]
      · rw [hrest.migrations, hsame.migrations, hmoves]
      · rw [hrest.cause, hsame.stealMig, hsame.placeMig, hmoves]
    | some e =>
      have hmoves : moves env (r :: rest) = e :: moves env rest := List.filterMap_cons_some hmove
      have hmoved := LocalityReport.moved_fold env s hmove
      constructor
      · exact hrest.topo.trans hmoved.topo
      · exact hrest.haveTopo.trans hmoved.haveTopo
      · intro i
        rw [hrest.tier, hmoved.tier, hmoved.topo, hmoves, List.countP_cons]
        simp only [decide_eq_true_eq]
        exact (Nat.add_assoc _ _ _).trans (congrArg _ (Nat.add_comm _ _))
      · rw [hrest.unmapped, hmoved.unmapped, hmoved.topo, hmoves, List.countP_cons]
        exact (Nat.add_assoc _ _ _).trans (congrArg _ (Nat.add_comm _ _))
      · rw [hrest.migrations, hmoved.migrations, hmoves, List.length_cons]
        exact Nat.add_right_comm ..
      · rw [hrest.cause, hmoved.cause, hmoves, List.length_cons]
        exact Nat.add_right_comm ..

/-! ## The class -/

theorem decays_eq_false (ns : List Nat) :
    decays ns = false ↔ ∃ i, (∃ j ≤ i, 0 < ns.getD j 0) ∧ ns.getD i 0 < ns.getD (i + 1) 0 := by
  induction ns with
  | nil =>
    constructor
    · intro h
      cases h
    · rintro ⟨i, -, hlt⟩
      exact absurd hlt (Nat.lt_irrefl 0)
  | cons n ns ih =>
    rw [decays]
    by_cases hn : n = 0
    · -- an empty tier in front is passed over
      subst hn
      rw [if_pos rfl, ih]
      constructor
      · rintro ⟨i, ⟨j, hj, hpos⟩, hlt⟩
        exact ⟨i + 1, ⟨j + 1, Nat.succ_le_succ hj, hpos⟩, hlt⟩
      · rintro ⟨i, ⟨j, hj, hpos⟩, hlt⟩
        cases j with
        | zero => exact absurd hpos (Nat.lt_irrefl 0)
        | succ j =>
          obtain ⟨i, rfl⟩ := Nat.exists_eq_add_of_le' (Nat.le_trans (Nat.succ_le_succ (Nat.zero_le j)) hj)
          exact ⟨i, ⟨j, Nat.le_of_succ_le_succ hj, hpos⟩, hlt⟩
    · rw [if_neg hn, List.all_eq_false]
      constructor
      · rintro ⟨p, hp, hgt⟩
        obtain ⟨i, hi, rfl⟩ := List.mem_iff_getElem.mp hp
        rw [List.length_zip, List.length_cons] at hi
        have hnext : i < ns.length := Nat.lt_of_lt_of_le hi (Nat.min_le_right _ _)
        have hself : i < (n :: ns).length := Nat.lt_succ_of_lt hnext
        refine ⟨i, ⟨0, Nat.zero_le i, Nat.pos_of_ne_zero hn⟩, ?_⟩
        rw [List.getElem_zip, decide_eq_true_eq] at hgt
        rw [List.getD_cons_succ, List.getD_eq_getElem _ _ hself, List.getD_eq_getElem _ _ hnext]
        exact Nat.lt_of_not_le hgt
      · rintro ⟨i, -, hlt⟩
        rw [List.getD_cons_succ] at hlt
        have hnext : i < ns.length := by
          by_contra hge
          rw [List.getD_eq_default ns 0 (Nat.le_of_not_lt hge)] at hlt
          exact absurd hlt (Nat.not_lt_zero _)
        have hself : i < (n :: ns).length := Nat.lt_succ_of_lt hnext
        have hzip : i < ((n :: ns).zip ns).length := by
          rw [List.length_zip]
          exact Nat.lt_min.mpr ⟨hself, hnext⟩
        refine ⟨_, List.getElem_mem hzip, ?_⟩
        rw [List.getD_eq_getElem _ _ hself, List.getD_eq_getElem _ _ hnext] at hlt
        rw [List.getElem_zip, decide_eq_true_eq]
        exact Nat.not_le.mpr hlt

theorem LocalityReport.getD_tiers (s : LocalityReport) (t : Fin 4) : s.tiers.getD t.val 0 = s.tier t := by
  have hlen : t.val < s.tiers.length := by
    rw [tiers, List.length_map, List.length_finRange]
    exact t.isLt
  rw [List.getD_eq_getElem _ _ hlen]
  simp [tiers]

theorem LocalityReport.decays_tiers (s : LocalityReport) : decays s.tiers = false ↔ Scatters s.tier := by
  rw [decays_eq_false]
  constructor
  · rintro ⟨i, ⟨j, hj, hpos⟩, hlt⟩
    have hi : i < 3 := by
      by_contra hge
      rw [List.getD_eq_default s.tiers 0 (n := i + 1)] at hlt
      · exact absurd hlt (Nat.not_lt_zero _)
      · rw [tiers, List.length_map, List.length_finRange]
        exact Nat.succ_le_succ (Nat.le_of_not_lt hge)
    have hj4 : j < 4 := Nat.lt_of_le_of_lt hj (Nat.lt_succ_of_lt hi)
    refine ⟨⟨i, hi⟩, ⟨⟨j, hj4⟩, hj, ?_⟩, ?_⟩
    · rw [← s.getD_tiers]
      exact hpos
    · rw [← s.getD_tiers, ← s.getD_tiers]
      exact hlt
  · rintro ⟨t, ⟨f, hf, hpos⟩, hlt⟩
    refine ⟨t.val, ⟨f.val, hf, ?_⟩, ?_⟩
    · rw [s.getD_tiers]
      exact hpos
    · rw [← s.getD_tiers, ← s.getD_tiers] at hlt
      exact hlt

theorem not_scatters_zero {tier : Fin 4 → Nat} (h : ∀ t, tier t = 0) : ¬ Scatters tier := by
  rintro ⟨t, -, hlt⟩
  rw [h, h] at hlt
  exact absurd hlt (Nat.lt_irrefl 0)

theorem LocalityReport.sum_tiers (s : LocalityReport) : s.tiers.sum = s.tier 0 + s.tier 1 + s.tier 2 + s.tier 3 := by
  rw [tiers]
  simp [List.finRange_succ, Nat.add_assoc]

/-- Without a topology no migration has a tier, so the class is right then
too. -/
theorem LocalityReport.klass_scattered (s : LocalityReport) (htopo : s.haveTopo = false → ∀ t, s.tier t = 0) :
    (s.compute env).klass = spelling "SCATTERED" ↔ Scatters s.tier := by
  rw [compute]
  cases hhave : s.haveTopo with
  | false =>
    rw [Bool.not_false, if_pos rfl]
    refine iff_of_false ?_ (not_scatters_zero (htopo hhave))
    rw [ReportResult.setVerdict]
    exact of_decide_eq_false rfl
  | true =>
    rw [Bool.not_true, if_neg Bool.false_ne_true]
    dsimp only
    by_cases hnone : s.tiers.sum = 0
    · rw [if_pos hnone]
      refine iff_of_false ?_ (not_scatters_zero ?_)
      · rw [ReportResult.setVerdict]
        exact of_decide_eq_false rfl
      · intro t
        exact List.sum_eq_zero_iff_forall_eq_nat.mp hnone _ (List.mem_map_of_mem (List.mem_finRange t))
    · rw [if_neg hnone, ← s.decays_tiers]
      have hklass : ∀ b : Bool,
          spelling (if !decays s.tiers then "SCATTERED" else if b then "CACHE-LOCAL" else "SPREAD")
              = spelling "SCATTERED"
            ↔ decays s.tiers = false := by
        intro b
        cases decays s.tiers
        · exact iff_of_true rfl rfl
        · refine iff_of_false ?_ (fun h => by cases h)
          cases b
          · exact of_decide_eq_false rfl
          · exact of_decide_eq_false rfl
      by_cases hivs : s.intervals = []
      · rw [if_pos hivs]
        exact hklass _
      · rw [if_neg hivs]
        exact hklass _

/-! ## The snapshot -/

theorem moveTier_nil (e : SchedEvent) : moveTier [] e = none := rfl

/-- What the report holds when the stream has a snapshot between two parts. -/
structure LocalityReport.Split (pre post : List TraceRecord) (topo : List (UInt32 × TopoEntry))
    (s : LocalityReport) : Prop where
  haveTopo : s.haveTopo = false → topo = []
  tier : ∀ i, s.tier i = (moves env post).countP fun e => moveTier topo e = some i
  unmapped : s.unmapped = (moves env pre).length + (moves env post).countP fun e => (moveTier topo e).isNone
  migrations : s.migrations = (moves env pre).length + (moves env post).length
  cause : s.stealMig + s.placeMig = s.migrations

variable {env} {pre post : List TraceRecord} {e : ProviderEvent}

theorem split_foldl (hsnap : e.isTopology) (hpre : ∀ r ∈ pre, r.isTopology = false)
    (hpost : ∀ r ∈ post, r.isTopology = false) :
    LocalityReport.Split env pre post e.topology
      ((pre ++ .provider e :: post).foldl (LocalityReport.fold env) {}) := by
  have hbefore := LocalityReport.ran env pre hpre {}
  obtain ⟨s, hs⟩ : ∃ s, pre.foldl (LocalityReport.fold env) {} = s := ⟨_, rfl⟩
  rw [hs] at hbefore
  have hread : s.fold env (.provider e) = s.parseTopo (e.rest.take e.payloadLen.toNat) := by
    rw [LocalityReport.fold, if_neg (not_not.mpr (of_decide_eq_true hsnap))]
  have hafter := LocalityReport.ran env post hpost (s.fold env (.provider e))
  rw [List.foldl_append, hs, List.foldl_cons]
  have htopo : (s.fold env (.provider e)).topo = e.topology := by
    rw [hread, LocalityReport.parseTopo]
    dsimp only
    rw [hbefore.topo]
    rfl
  -- before the snapshot no migration has a tier
  have hzero : ∀ i, (s.fold env (.provider e)).tier i = 0 := by
    intro i
    rw [hread]
    exact (hbefore.tier i).trans (by simp [moveTier_nil])
  have hunmapped : (s.fold env (.provider e)).unmapped = (moves env pre).length := by
    rw [hread]
    exact hbefore.unmapped.trans (by simp [moveTier_nil])
  have hmigrations : (s.fold env (.provider e)).migrations = (moves env pre).length := by
    rw [hread]
    exact hbefore.migrations.trans (Nat.zero_add _)
  have hcause : (s.fold env (.provider e)).stealMig + (s.fold env (.provider e)).placeMig
      = (moves env pre).length := by
    rw [hread]
    exact hbefore.cause.trans (Nat.zero_add _)
  constructor
  · intro hhave
    rw [hafter.haveTopo, hread, LocalityReport.parseTopo] at hhave
    dsimp only at hhave
    have hfound := (Bool.or_eq_false_iff.mp hhave).2
    rw [Bool.not_eq_false', List.isEmpty_iff] at hfound
    rw [ProviderEvent.topology, LocalityReport.parseTopo]
    dsimp only
    rw [hfound]
    rfl
  · intro i
    rw [hafter.tier, hzero, htopo, Nat.zero_add]
  · rw [hafter.unmapped, hunmapped, htopo]
  · rw [hafter.migrations, hmigrations]
  · rw [hafter.cause, hafter.migrations, hcause, hmigrations]

theorem moves_append (l l' : List TraceRecord) : moves env (l ++ l') = moves env l ++ moves env l' :=
  List.filterMap_append

theorem sum_countP_tiers (topo : List (UInt32 × TopoEntry)) (ms : List SchedEvent) :
    (ms.countP fun e => moveTier topo e = some 0) + (ms.countP fun e => moveTier topo e = some 1)
        + (ms.countP fun e => moveTier topo e = some 2) + (ms.countP fun e => moveTier topo e = some 3)
        + (ms.countP fun e => (moveTier topo e).isNone)
      = ms.length := by
  induction ms with
  | nil => rfl
  | cons m ms ih =>
    simp only [List.countP_cons, List.length_cons, decide_eq_true_eq]
    cases hm : moveTier topo m with
    | none =>
      simp only [reduceCtorEq, if_false, Option.isNone_none, if_true]
      omega
    | some t =>
      obtain rfl | rfl | rfl | rfl : t = 0 ∨ t = 1 ∨ t = 2 ∨ t = 3 := by omega
      all_goals
        simp
        omega

theorem LocalityReport.Split.exact_iff {topo : List (UInt32 × TopoEntry)} {s : LocalityReport}
    (h : LocalityReport.Split env pre post topo s) :
    LocalityExact env (pre ++ post) topo s ↔ ∀ m ∈ moves env pre, moveTier topo m = none := by
  constructor
  · intro hexact m hm
    -- a tier of a migration before the snapshot would be missing in the counts
    cases ht : moveTier topo m with
    | none => rfl
    | some t =>
      have hcount := hexact.tier t
      rw [h.tier, moves_append, List.countP_append] at hcount
      have hzero : (moves env pre).countP (fun e => decide (moveTier topo e = some t)) = 0 := by omega
      exact absurd (decide_eq_true ht) (List.countP_eq_zero.mp hzero m hm)
  · intro hnone
    have hzero : ∀ i, (moves env pre).countP (fun e => decide (moveTier topo e = some i)) = 0 := by
      refine fun i => List.countP_eq_zero.mpr fun m hm hsome => ?_
      rw [hnone m hm] at hsome
      cases of_decide_eq_true hsome
    have hall : (moves env pre).countP (fun e => (moveTier topo e).isNone) = (moves env pre).length :=
      List.countP_eq_length.mpr fun m hm => Option.isNone_iff_eq_none.mpr (hnone m hm)
    constructor
    · intro i
      rw [h.tier, moves_append, List.countP_append, hzero, Nat.zero_add]
    · rw [h.unmapped, moves_append, List.countP_append, hall]
    · rw [h.migrations, moves_append, List.length_append]
    · rw [s.sum_tiers, h.tier, h.tier, h.tier, h.tier, h.unmapped, h.migrations]
      have := sum_countP_tiers topo (moves env post)
      omega
    · exact h.cause
    · refine s.klass_scattered env fun hhave i => ?_
      rw [h.tier, h.haveTopo hhave]
      exact List.countP_eq_zero.mpr fun m _ hsome => by cases of_decide_eq_true hsome

variable (env) in
/-- **The counts of `locality`** are those of the snapshot for all migrations of
the stream if and only if the snapshot has a tier for none of those that come
before it. -/
theorem locality_exact_iff (pre post : List TraceRecord) (e : ProviderEvent) (hsnap : e.isTopology)
    (hpre : ∀ r ∈ pre, r.isTopology = false) (hpost : ∀ r ∈ post, r.isTopology = false) :
    LocalityExact env (pre ++ post) e.topology ((pre ++ .provider e :: post).foldl (LocalityReport.fold env) {}) ↔
      ∀ m ∈ moves env pre, moveTier e.topology m = none :=
  (split_foldl hsnap hpre hpost).exact_iff

/-- The lines of two CPUs that share the L3. -/
def twoCpuLines : List (List UInt8) :=
  [spelling "montauk_cache_topology\x7bcpu=\"0\",l2=\"0\",l3=\"0\",socket=\"0\"\x7d 1",
    spelling "montauk_cache_topology\x7bcpu=\"1\",l2=\"1\",l3=\"0\",socket=\"0\"\x7d 1"]

def twoCpus : ProviderEvent where
  timestampNs := 2000000
  name := spelling "cache_topology"
  payloadLen := 118
  rest := twoCpuLines.flatMap fun l => l ++ [Ch.newline]

theorem topology_twoCpus :
    twoCpus.topology = [(0, { l2 := 0, l3 := 0, socket := 0 }), (1, { l2 := 1, l3 := 0, socket := 0 })] := by
  have hlines : ∀ l ∈ twoCpuLines, Ch.newline ∉ l := by
    intro l hl hmem
    have hall : twoCpuLines.all (fun l => !l.contains Ch.newline) = true := by decide
    have := List.all_eq_true.mp hall l hl
    rw [List.contains_iff_mem.mpr hmem] at this
    cases this
  have hrest : twoCpus.rest.take twoCpus.payloadLen.toNat
      = (twoCpuLines.flatMap fun l => l ++ [Ch.newline]) ++ [] := by decide
  rw [ProviderEvent.topology, LocalityReport.parseTopo]
  dsimp only
  rw [hrest, pieces_lines hlines, pieces_nil]
  rfl

/-- A task that moves to the first CPU from the second. -/
def bounce : TraceRecord :=
  .sched { op := .wake2run, cpu := 0, pid := 4018, secondaryPid := 0, lastCpu := 1, subIdx := 0, freqMhz := 0,
           score := 0, runtimeNs := 0, budgetNs := 0, timestampNs := 1000000 }

theorem locality_exact_iff_first :
    LocalityExact unitEnv [bounce] twoCpus.topology
        ((.provider twoCpus :: [bounce]).foldl (LocalityReport.fold unitEnv) {}) ↔
      ∀ m ∈ moves unitEnv [], moveTier twoCpus.topology m = none :=
  locality_exact_iff unitEnv [] [bounce] twoCpus rfl (fun r hr => by cases hr)
    (fun r hr => by rw [List.mem_singleton.mp hr]; rfl)

/-- A migration before the snapshot has no tier. -/
theorem not_localityExact_late :
    ¬ ∀ (pre post : List TraceRecord) (e : ProviderEvent), e.isTopology → (∀ r ∈ pre, r.isTopology = false) →
      (∀ r ∈ post, r.isTopology = false) →
        LocalityExact unitEnv (pre ++ post) e.topology
          ((pre ++ .provider e :: post).foldl (LocalityReport.fold unitEnv) {}) := by
  intro h
  have hpre : ∀ r ∈ [bounce], r.isTopology = false := fun r hr => by
    rw [List.mem_singleton.mp hr]
    rfl
  have hexact := h [bounce] [] twoCpus rfl hpre (fun r hr => by cases hr)
  have hnone := (split_foldl rfl hpre (fun r hr => by cases hr)).exact_iff.mp hexact _ List.mem_cons_self
  rw [topology_twoCpus] at hnone
  cases hnone

end Montauk.Tools
