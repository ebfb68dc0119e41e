import Montauk.Kernel.ProcTable
import Mathlib.Data.List.Nodup
import Mathlib.Data.List.Perm.Subperm

/-!
# What the process table tracks

The probe on `do_exit` sees single threads and the table stands for processes.
An entry goes when the leader exits, whoever else lives on
(`not_tableExact_leader`), and stays when the last thread to exit is no leader;
the scan may insert a process that has exited meanwhile, or one that the fork
probe has inserted before. In the runs without such a step the table is exact
whenever nothing is in progress (`table_exact`).
-/

namespace Montauk.Kernel

open Machine

/-! ## What a state holds -/

def Op.removes? : Op → Option Int32
  | .remove pid => some pid
  | _ => none

def Op.uncounts? : Op → Option Int32
  | .uncount pid => some pid
  | _ => none

def Op.counts? : Op → Option Int32
  | .count _ pid => some pid
  | _ => none

def Op.enters? : Op → Option Int32
  | .alloc _ task => some task.pid
  | .insert _ proc => some proc.pid
  | _ => none

namespace State

def pids (s : State) : List Int32 := s.table.map MontaukProc.pid

/-- The exit probes that are still to look the table up. -/
def removing (s : State) : List Int32 := s.ops.filterMap Op.removes?

/-- The exit probes that have removed an entry. -/
def uncounting (s : State) : List Int32 := s.ops.filterMap Op.uncounts?

/-- The insertions that are not counted yet. -/
def counting (s : State) : List Int32 := s.ops.filterMap Op.counts?

/-- The entries on their way into the table. -/
def entering (s : State) : List Int32 := s.ops.filterMap Op.enters?

def todo (s : State) : List Int32 := s.scan.getD []

def stays (s : State) (pid : Int32) : Bool := (s.find pid).any Process.stays

def alive (s : State) (pid : Int32) : Bool := (s.find pid).any Process.live

def liveCount (s : State) : Nat := (s.procs.filter Process.live).length

/-- No probe is in progress, and the scan is over. -/
def Idle (s : State) : Prop := s.ops = [] ∧ s.scan = none

end State

/-- The table has one entry for each process with a live thread, no other, and
`tracked` is their number. -/
def TableExact (cfg : Config) (s : State) : Prop :=
  (∀ pid, s.pids.count pid = if s.alive pid then 1 else 0)
    ∧ s.stats.tracked = s.table.length ∧ s.stats.tracked ≤ cfg.maxProcs

/-- The steps the module is up to: an entry is inserted for a process that
lives on, or whose exit probe will find it, and only if there is none; a probe
removes the entry of a process without other threads; the last thread of a
process with an entry is the leader; and no allocation for a process without
an entry fails. -/
def Proper (cfg : Config) (s : State) : Action → Prop
  | .goOn (.insert _ proc) =>
      if s.has proc.pid then cfg.refuses = true
      else s.stays proc.pid = true ∨ Op.remove proc.pid ∈ s.ops
  | .goOn (.remove pid) => s.has pid = true → ∀ p, s.find pid = some p → p.others = 0
  | .exitThread pid _ => s.has pid = true → s.find pid ≠ some ⟨pid, .gone, 1⟩
  | .fail (.alloc _ task) => s.stays task.pid = true → s.has task.pid = true
  | .fail (.insert _ proc) => s.stays proc.pid = true → s.has proc.pid = true
  | _ => True

/-- The steps of a run that is within the limit and is `Proper`. -/
def Within (cfg : Config) (s : State) (a : Action) : Prop :=
  s.liveCount < cfg.maxProcs ∧ Proper cfg s a

/-! ## Lookups -/

namespace State

variable {s : State} {pid q : Int32}

theorem has_iff : s.has pid = true ↔ pid ∈ s.pids := by
  rw [has, List.any_eq_true, pids, List.mem_map]
  simp only [decide_eq_true_eq]

theorem find_pid {p : Process} (h : s.find pid = some p) : p.pid = pid := by
  simpa using List.find?_some h

theorem stays_iff : s.stays pid = true ↔ ∃ p, s.find pid = some p ∧ p.stays = true := by
  rw [stays, Option.any_eq_true]

theorem alive_iff : s.alive pid = true ↔ ∃ p, s.find pid = some p ∧ p.live = true := by
  rw [alive, Option.any_eq_true]

theorem can_iff {ok : Process → Bool} (h : s.can pid ok = true) :
    ∃ p, s.find pid = some p ∧ ok p = true := by
  rw [can, Bool.and_eq_true] at h
  exact (Option.any_eq_true ..).mp h.2

theorem find_setProc {f : Process → Process} (hf : ∀ p, (f p).pid = p.pid) (q : Int32) :
    (s.setProc pid f).find q = if q = pid then (s.find q).map f else s.find q := by
  rw [find, setProc, List.find?_map, find]
  have hcomp : ((fun p : Process => decide (p.pid = q))
      ∘ fun p => if p.pid = pid then f p else p) = fun p => decide (p.pid = q) := by
    funext p
    rw [Function.comp_apply]
    split
    · rw [hf]
    · rfl
  rw [hcomp]
  cases hfind : s.procs.find? fun p => p.pid = q with
  | none => simp
  | some p =>
      have hpid : p.pid = q := by simpa using List.find?_some hfind
      rw [Option.map_some, hpid]
      split
      · rfl
      · rfl

theorem find_link (p : Process) (q : Int32) :
    (s.link p).find q = if q = p.pid then some p else s.find q := by
  rw [find, link]
  split
  · rename_i hq
    exact List.find?_cons_of_pos (by simpa using hq.symm)
  · rename_i hq
    exact List.find?_cons_of_neg (by simpa using Ne.symm hq)

theorem find_unlink (q : Int32) :
    (s.unlink pid).find q = if q = pid then none else s.find q := by
  rw [find, unlink, List.find?_filter, find]
  by_cases hq : q = pid
  · rw [if_pos hq, List.find?_eq_none]
    intro p _
    simp only [ne_eq, decide_eq_true_eq, not_and, decide_not, Bool.not_eq_true',
      decide_eq_false_iff_not]
    intro hne h
    exact hne (h.trans hq)
  · rw [if_neg hq]
    congr 1
    funext p
    by_cases hp : p.pid = q
    · simp [hp, hq]
    · simp [hp]

end State

theorem Process.stays_iff {p : Process} : p.stays = true ↔ p.leader = .running ∨ 0 < p.others := by
  rw [Process.stays, Bool.or_eq_true, decide_eq_true_eq, decide_eq_true_eq]

theorem Process.live_iff {p : Process} : p.live = true ↔ p.leader ≠ .gone ∨ 0 < p.others := by
  rw [Process.live, Bool.or_eq_true, decide_eq_true_eq, decide_eq_true_eq]

theorem map_pid_updateEntry (pid : Int32) {f : MontaukProc → MontaukProc}
    (hf : ∀ e, (f e).pid = e.pid) (table : List MontaukProc) :
    (updateEntry pid f table).map MontaukProc.pid = table.map MontaukProc.pid := by
  induction table with
  | nil => rfl
  | cons e rest ih =>
      rw [updateEntry]
      split
      · rw [List.map_cons, hf, List.map_cons]
      · rw [List.map_cons, ih, List.map_cons]

theorem map_pid_eraseP (pid : Int32) (table : List MontaukProc) :
    (table.eraseP fun e => e.pid = pid).map MontaukProc.pid
      = (table.map MontaukProc.pid).erase pid := by
  rw [List.erase_eq_eraseP, List.eraseP_map]
  congr 2
  funext e
  rw [Function.comp_apply, Bool.beq_eq_decide_eq]
  exact decide_eq_decide.mpr eq_comm

/-! ## The invariant -/

/-- What holds between the processes, the table, the counter and the steps in
progress. -/
structure Inv (s : State) : Prop where
  entries : s.pids.Nodup
  exits : (s.removing ++ s.uncounting).Nodup
  exiting : ∀ pid, pid ∈ s.removing ++ s.uncounting ↔
    ∃ p, s.find pid = some p ∧ p.leader = .exiting
  alone : ∀ pid ∈ s.uncounting, ∀ p, s.find pid = some p → p.others = 0
  entry : ∀ pid ∈ s.pids, s.stays pid = true ∨ pid ∈ s.removing
  present : ∀ pid, s.stays pid = true → pid ∈ s.pids ∨ pid ∈ s.entering ∨ pid ∈ s.todo
  counted : s.stats.tracked = s.pids.length - s.counting.length + s.uncounting.length

variable {s : State} {pid : Int32} {cfg : Config}

theorem Inv.init (b : Boot) : Inv (montaukInit b) where
  entries := List.nodup_nil
  exits := List.nodup_nil
  exiting pid := by
    refine ⟨fun h => absurd h List.not_mem_nil, ?_⟩
    rintro ⟨p, hp, hexit⟩
    exact absurd hexit (b.settled p (List.mem_of_find?_eq_some hp))
  alone _ h := absurd h List.not_mem_nil
  entry _ h := absurd h List.not_mem_nil
  present pid h := by
    obtain ⟨p, hp, -⟩ := State.stays_iff.mp h
    refine Or.inr (Or.inr (List.mem_map.mpr ⟨p, List.mem_of_find?_eq_some hp, ?_⟩))
    exact State.find_pid hp
  counted := rfl

theorem Inv.perm {ops : List Op} (h : Inv s) (hperm : s.ops.Perm ops) :
    Inv { s with ops } := by
  have hremoving : s.removing.Perm ({ s with ops } : State).removing := hperm.filterMap _
  have huncounting : s.uncounting.Perm ({ s with ops } : State).uncounting := hperm.filterMap _
  have hcounting : s.counting.Perm ({ s with ops } : State).counting := hperm.filterMap _
  have hentering : s.entering.Perm ({ s with ops } : State).entering := hperm.filterMap _
  have hexits := hremoving.append huncounting
  refine ⟨h.entries, hexits.nodup_iff.mp h.exits, fun pid => hexits.mem_iff.symm.trans (h.exiting pid),
    fun pid hmem => h.alone pid (huncounting.mem_iff.mpr hmem), fun pid hmem => ?_,
    fun pid hstay => ?_, ?_⟩
  · rcases h.entry pid hmem with hstay | hrem
    · exact Or.inl hstay
    · exact Or.inr (hremoving.mem_iff.mp hrem)
  · rcases h.present pid hstay with hmem | hmem | hmem
    · exact Or.inl hmem
    · exact Or.inr (Or.inl (hentering.mem_iff.mp hmem))
    · exact Or.inr (Or.inr hmem)
  · have hcount := h.counted
    rw [hcounting.length_eq, huncounting.length_eq] at hcount
    exact hcount

theorem Inv.not_mem_pids (h : Inv s) (hmem : pid ∈ s.uncounting) : pid ∉ s.pids := by
  intro hpid
  obtain ⟨p, hp, hexit⟩ := (h.exiting pid).mp (List.mem_append_right _ hmem)
  rcases h.entry pid hpid with hstay | hrem
  · obtain ⟨q, hq, hstays⟩ := State.stays_iff.mp hstay
    rw [hp] at hq
    cases hq
    rcases Process.stays_iff.mp hstays with hrun | hothers
    · rw [hexit] at hrun
      exact absurd hrun (by decide)
    · have := h.alone pid hmem p hp
      omega
  · exact (List.disjoint_of_nodup_append h.exits) hrem hmem

/-- The limit is never met: entries and removals not counted yet belong to
different processes, all of them live. -/
theorem Inv.length_le (h : Inv s) : s.pids.length + s.uncounting.length ≤ s.liveCount := by
  have hnodup : (s.pids ++ s.uncounting).Nodup := by
    rw [List.nodup_append']
    exact ⟨h.entries, h.exits.of_append_right, fun _ hpid hun => h.not_mem_pids hun hpid⟩
  have hmem : ∀ pid p, s.find pid = some p → p.live = true →
      pid ∈ (s.procs.filter Process.live).map Process.pid := by
    intro pid p hp hlive
    refine List.mem_map.mpr ⟨p, List.mem_filter.mpr ⟨List.mem_of_find?_eq_some hp, hlive⟩, ?_⟩
    exact State.find_pid hp
  have hexit : ∀ pid ∈ s.removing ++ s.uncounting,
      pid ∈ (s.procs.filter Process.live).map Process.pid := by
    intro pid hpid
    obtain ⟨p, hp, hexit⟩ := (h.exiting pid).mp hpid
    refine hmem pid p hp (Process.live_iff.mpr (Or.inl ?_))
    rw [hexit]
    decide
  have hsub : s.pids ++ s.uncounting ⊆ (s.procs.filter Process.live).map Process.pid := by
    intro pid hpid
    rcases List.mem_append.mp hpid with hpid | hpid
    · rcases h.entry pid hpid with hstay | hrem
      · obtain ⟨p, hp, hstays⟩ := State.stays_iff.mp hstay
        refine hmem pid p hp (Process.live_iff.mpr ?_)
        rcases Process.stays_iff.mp hstays with hrun | hothers
        · exact Or.inl (by rw [hrun]; decide)
        · exact Or.inr hothers
      · exact hexit pid (List.mem_append_left _ hrem)
    · exact hexit pid (List.mem_append_right _ hpid)
  have hle := (hnodup.subperm hsub).length_le
  rw [List.length_append, List.length_map] at hle
  exact hle

theorem Inv.change {s' : State} (h : Inv s) (pid : Int32) (hpids : s'.pids = s.pids)
    (hfind : ∀ q, q ≠ pid → s'.find q = s.find q)
    (hremoving : ∀ q, q ≠ pid → (q ∈ s'.removing ↔ q ∈ s.removing))
    (huncounting : ∀ q, q ≠ pid → (q ∈ s'.uncounting ↔ q ∈ s.uncounting))
    (hpending : ∀ q, q ≠ pid → q ∈ s.entering ∨ q ∈ s.todo → q ∈ s'.entering ∨ q ∈ s'.todo)
    (hexits : (s'.removing ++ s'.uncounting).Nodup)
    (hexiting : pid ∈ s'.removing ++ s'.uncounting ↔
      ∃ p, s'.find pid = some p ∧ p.leader = .exiting)
    (halone : pid ∈ s'.uncounting → ∀ p, s'.find pid = some p → p.others = 0)
    (hentry : pid ∈ s.pids → s'.stays pid = true ∨ pid ∈ s'.removing)
    (hpresent : s'.stays pid = true → pid ∈ s.pids ∨ pid ∈ s'.entering ∨ pid ∈ s'.todo)
    (hcounted : s'.stats.tracked = s.pids.length - s'.counting.length + s'.uncounting.length) :
    Inv s' := by
  have hstays : ∀ q, q ≠ pid → s'.stays q = s.stays q := by
    intro q hq
    rw [State.stays, hfind q hq, State.stays]
  refine ⟨hpids ▸ h.entries, hexits, fun q => ?_, fun q hmem p hp => ?_, fun q hmem => ?_,
    fun q hstay => ?_, hpids ▸ hcounted⟩
  · by_cases hq : q = pid
    · rw [hq]
      exact hexiting
    · rw [List.mem_append, hremoving q hq, huncounting q hq, hfind q hq, ← List.mem_append]
      exact h.exiting q
  · by_cases hq : q = pid
    · subst hq
      exact halone hmem p hp
    · rw [hfind q hq] at hp
      exact h.alone q ((huncounting q hq).mp hmem) p hp
  · rw [hpids] at hmem
    by_cases hq : q = pid
    · subst hq
      exact hentry hmem
    · rw [hstays q hq, hremoving q hq]
      exact h.entry q hmem
  · rw [hpids]
    by_cases hq : q = pid
    · subst hq
      exact hpresent hstay
    · rw [hstays q hq] at hstay
      exact (h.present q hstay).imp id (hpending q hq)

/-! ## The steps of the probes and the scan -/

theorem Inv.alloc {src : Source} {task : Task}
    (h : Inv { s with ops := .alloc src task :: s.ops }) (hfew : s.liveCount < cfg.maxProcs) :
    Inv (montaukProcAlloc cfg s src task) := by
  have hle := h.length_le
  have hcount := h.counted
  change s.pids.length + s.uncounting.length ≤ s.liveCount at hle
  change s.stats.tracked = s.pids.length - s.counting.length + s.uncounting.length at hcount
  rw [montaukProcAlloc.eq_def, if_neg (by omega)]
  refine ⟨h.entries, h.exits, h.exiting, h.alone, h.entry, ?_, h.counted⟩
  cases src with
  | fork => exact h.present
  | scan => exact h.present

theorem Inv.insert {src : Source} {proc : MontaukProc}
    (h : Inv { s with ops := .insert src proc :: s.ops })
    (hok : if s.has proc.pid then cfg.refuses = true
      else s.stays proc.pid = true ∨ Op.remove proc.pid ∈ s.ops) :
    Inv (montaukProcInsert cfg s src proc) := by
  rw [montaukProcInsert]
  by_cases hhas : s.has proc.pid = true
  · rw [if_pos hhas] at hok
    rw [hok, hhas]
    change Inv s
    refine ⟨h.entries, h.exits, h.exiting, h.alone, h.entry, fun pid hstay => ?_, h.counted⟩
    rcases h.present pid hstay with hmem | hmem | hmem
    · exact Or.inl hmem
    · rcases List.mem_cons.mp hmem with rfl | hmem
      · exact Or.inl (State.has_iff.mp hhas)
      · exact Or.inr (Or.inl hmem)
    · exact Or.inr (Or.inr hmem)
  · rw [if_neg hhas] at hok
    rw [Bool.not_eq_true] at hhas
    rw [hhas, Bool.and_false, if_neg Bool.false_ne_true]
    have hnot : proc.pid ∉ s.pids := by
      rw [← State.has_iff, hhas]
      exact Bool.false_ne_true
    refine ⟨List.nodup_cons.mpr ⟨hnot, h.entries⟩, h.exits, h.exiting, h.alone, fun pid hmem => ?_,
      fun pid hstay => ?_, ?_⟩
    · rcases List.mem_cons.mp hmem with rfl | hmem
      · rcases hok with hstay | hrem
        · exact Or.inl hstay
        · have hmem : proc.pid ∈ s.removing := List.mem_filterMap.mpr ⟨.remove proc.pid, hrem, rfl⟩
          exact Or.inr hmem
      · exact h.entry pid hmem
    · rcases h.present pid hstay with hmem | hmem | hmem
      · exact Or.inl (List.mem_cons_of_mem _ hmem)
      · rcases List.mem_cons.mp hmem with rfl | hmem
        · exact Or.inl List.mem_cons_self
        · exact Or.inr (Or.inl hmem)
      · exact Or.inr (Or.inr hmem)
    · have hcount := h.counted
      change s.stats.tracked = s.pids.length - s.counting.length + s.uncounting.length at hcount
      change s.stats.tracked = ((s.pids.length + 1 : Nat) : Int) - ((s.counting.length + 1 : Nat) : Int)
        + s.uncounting.length
      omega

theorem Inv.count {src : Source} (h : Inv { s with ops := .count src pid :: s.ops }) :
    Inv (countInsert s src) := by
  refine ⟨h.entries, h.exits, h.exiting, h.alone, h.entry, h.present, ?_⟩
  have hcount := h.counted
  change s.stats.tracked = s.pids.length - ((s.counting.length + 1 : Nat) : Int)
    + s.uncounting.length at hcount
  change s.stats.tracked + 1 = s.pids.length - s.counting.length + s.uncounting.length
  omega

/-- The leader leaves its exit probe, which was the last step of `op`. -/
theorem Inv.exited {s₀ : State} {p : Process} (h : Inv s₀) (hp : s₀.find pid = some p)
    (hexit : p.leader = .exiting) (hprocs : s₀.procs = s.procs) (hpids : s₀.pids = s.pids)
    (hentering : s₀.entering = s.entering) (htodo : s₀.todo = s.todo)
    (hremoving : ∀ q, q ≠ pid → (q ∈ s.removing ↔ q ∈ s₀.removing))
    (huncounting : ∀ q, q ≠ pid → (q ∈ s.uncounting ↔ q ∈ s₀.uncounting))
    (hexits : (pid :: (s.removing ++ s.uncounting)).Nodup)
    (hentry : pid ∈ s.pids → p.stays = true)
    (hcounted : s.stats.tracked = s.pids.length - s.counting.length + s.uncounting.length) :
    Inv (s.exited pid) := by
  have hfind₀ : ∀ q, s₀.find q = s.find q := by
    intro q
    rw [State.find, hprocs, State.find]
  have hfind : ∀ q, (s.exited pid).find q
      = if q = pid then (s.find q).map fun p => { p with leader := .gone } else s.find q :=
    State.find_setProc fun _ => rfl
  have hself : (s.exited pid).find pid = some { p with leader := .gone } := by
    rw [hfind, if_pos rfl, ← hfind₀, hp, Option.map_some]
  have hstays : (s.exited pid).stays pid = p.stays := by
    rw [State.stays, hself, Option.any_some, Process.stays, Process.stays, hexit]
    rfl
  obtain ⟨hnot, hexits⟩ := List.nodup_cons.mp hexits
  refine h.change pid hpids.symm (fun q hq => ?_) hremoving huncounting (fun q _ hpend => ?_) hexits
    ⟨fun hmem => absurd hmem hnot, ?_⟩ (fun hmem => absurd (List.mem_append_right _ hmem) hnot)
    (fun hmem => ?_) (fun hstay => ?_) ?_
  · rw [hfind, if_neg hq, hfind₀]
  · rw [hentering, htodo] at hpend
    exact hpend
  · rintro ⟨p', hp', hexit'⟩
    rw [hself] at hp'
    cases hp'
    exact absurd hexit' nofun
  · rw [hstays]
    exact Or.inl (hentry (hpids ▸ hmem))
  · rw [hstays] at hstay
    have hpresent := h.present pid (State.stays_iff.mpr ⟨p, hp, hstay⟩)
    rw [hentering, htodo] at hpresent
    exact hpresent
  · rw [hpids]
    exact hcounted

theorem Inv.remove (h : Inv { s with ops := .remove pid :: s.ops })
    (hok : s.has pid = true → ∀ p, s.find pid = some p → p.others = 0) :
    Inv (montaukProcRemove s pid) := by
  rw [montaukProcRemove]
  by_cases hhas : s.has pid = true
  · rw [if_pos hhas]
    have hpid : pid ∈ s.pids := State.has_iff.mp hhas
    have hnodup : s.pids.Nodup := h.entries
    have hpids : (s.table.eraseP fun e => e.pid = pid).map MontaukProc.pid = s.pids.erase pid :=
      map_pid_eraseP pid s.table
    have hperm : (pid :: s.removing ++ s.uncounting).Perm (s.removing ++ pid :: s.uncounting) :=
      List.perm_middle.symm
    obtain ⟨p, hp, hexit⟩ := (h.exiting pid).mp List.mem_cons_self
    have hgoes : s.stays pid = false := by
      change s.find pid = some p at hp
      rw [State.stays, hp, Option.any_some, Process.stays, hexit, hok hhas p hp]
      rfl
    refine ⟨?_, hperm.nodup_iff.mp h.exits, fun q => hperm.mem_iff.symm.trans (h.exiting q),
      fun q hq => ?_, fun q hq => ?_, fun q hq => ?_, ?_⟩
    · change ((s.table.eraseP fun e => e.pid = pid).map MontaukProc.pid).Nodup
      rw [hpids]
      exact h.entries.erase pid
    · rcases List.mem_cons.mp hq with rfl | hq
      · exact hok hhas
      · exact h.alone q hq
    · change q ∈ (s.table.eraseP fun e => e.pid = pid).map MontaukProc.pid at hq
      rw [hpids, hnodup.mem_erase_iff] at hq
      rcases h.entry q hq.2 with hstay | hrem
      · exact Or.inl hstay
      · rcases List.mem_cons.mp hrem with heq | hrem
        · exact absurd heq hq.1
        · exact Or.inr hrem
    · change q ∈ (s.table.eraseP fun e => e.pid = pid).map MontaukProc.pid ∨ _
      rw [hpids]
      rcases h.present q hq with hmem | hmem | hmem
      · refine Or.inl (hnodup.mem_erase_iff.mpr ⟨?_, hmem⟩)
        rintro rfl
        change s.stays q = true at hq
        rw [hgoes] at hq
        exact absurd hq Bool.false_ne_true
      · exact Or.inr (Or.inl hmem)
      · exact Or.inr (Or.inr hmem)
    · have hlen : (s.pids.erase pid).length + 1 = s.pids.length := by
        rw [List.length_erase_of_mem hpid]
        exact Nat.sub_add_cancel (List.length_pos_of_mem hpid)
      have hcount := h.counted
      change s.stats.tracked = s.pids.length - s.counting.length + s.uncounting.length at hcount
      change s.stats.tracked = (((s.table.eraseP fun e => e.pid = pid).map MontaukProc.pid).length : Int)
        - s.counting.length + ((s.uncounting.length + 1 : Nat) : Int)
      rw [hpids]
      omega
  · rw [if_neg hhas]
    obtain ⟨p, hp, hexit⟩ := (h.exiting pid).mp List.mem_cons_self
    refine h.exited hp hexit rfl rfl rfl rfl (fun q hq => ?_) (fun _ _ => Iff.rfl) h.exits
      (fun hmem => absurd (State.has_iff.mpr hmem) hhas) h.counted
    exact (List.mem_cons.trans (or_iff_right hq)).symm

theorem Inv.uncount (h : Inv { s with ops := .uncount pid :: s.ops }) :
    Inv (countRemove s pid) := by
  obtain ⟨p, hp, hexit⟩ := (h.exiting pid).mp (List.mem_append_right _ List.mem_cons_self)
  have hperm : (s.removing ++ pid :: s.uncounting).Perm (pid :: (s.removing ++ s.uncounting)) :=
    List.perm_middle
  have hcount := h.counted
  change s.stats.tracked = s.pids.length - s.counting.length
    + ((s.uncounting.length + 1 : Nat) : Int) at hcount
  refine h.exited (s := { s with stats := { s.stats with tracked := s.stats.tracked - 1 } }) hp hexit
    rfl rfl rfl rfl (fun _ _ => Iff.rfl) (fun q hq => (List.mem_cons.trans (or_iff_right hq)).symm)
    (hperm.nodup_iff.mp h.exits) (fun hmem => absurd hmem (h.not_mem_pids List.mem_cons_self)) ?_
  change s.stats.tracked - 1 = s.pids.length - s.counting.length + s.uncounting.length
  omega

theorem Inv.drop {op : Op} (h : Inv { s with ops := op :: s.ops }) (hfail : op.mayFail = true)
    (hok : ∀ q, op.enters? = some q → s.stays q = true → s.has q = true) : Inv s := by
  have hpresent : ∀ q, op.enters? = some q → s.stays q = true →
      q ∈ s.pids ∨ q ∈ s.entering ∨ q ∈ s.todo :=
    fun q hq hstay => Or.inl (State.has_iff.mp (hok q hq hstay))
  cases op with
  | alloc src task =>
      refine ⟨h.entries, h.exits, h.exiting, h.alone, h.entry, fun q hq => ?_, h.counted⟩
      rcases h.present q hq with hmem | hmem | hmem
      · exact Or.inl hmem
      · rcases List.mem_cons.mp hmem with rfl | hmem
        · exact hpresent task.pid rfl hq
        · exact Or.inr (Or.inl hmem)
      · exact Or.inr (Or.inr hmem)
  | insert src proc =>
      refine ⟨h.entries, h.exits, h.exiting, h.alone, h.entry, fun q hq => ?_, h.counted⟩
      rcases h.present q hq with hmem | hmem | hmem
      · exact Or.inl hmem
      · rcases List.mem_cons.mp hmem with rfl | hmem
        · exact hpresent proc.pid rfl hq
        · exact Or.inr (Or.inl hmem)
      · exact Or.inr (Or.inr hmem)
  | count src pid => exact absurd hfail Bool.false_ne_true
  | remove pid => exact absurd hfail Bool.false_ne_true
  | uncount pid => exact absurd hfail Bool.false_ne_true

theorem Inv.exec (h : Inv s) (tid : Int32) (comm : CString 16) :
    Inv (montaukExecHandler s tid comm) := by
  have hpids : (montaukExecHandler s tid comm).pids = s.pids :=
    map_pid_updateEntry tid (f := fun e => { e with comm, exePath := .empty (by decide) })
      (fun _ => rfl) s.table
  refine ⟨?_, h.exits, h.exiting, h.alone, ?_, ?_, ?_⟩
  · rw [hpids]
    exact h.entries
  · rw [hpids]
    exact h.entry
  · rw [hpids]
    exact h.present
  · rw [hpids]
    exact h.counted

theorem Inv.scanTask {task : Task} {todo : List Int32} (h : Inv s)
    (hscan : s.scan = some (task.pid :: todo)) :
    Inv { s with ops := .alloc .scan task :: s.ops, scan := some todo } := by
  refine ⟨h.entries, h.exits, h.exiting, h.alone, h.entry, fun q hq => ?_, h.counted⟩
  have htodo : s.todo = task.pid :: todo := by
    rw [State.todo, hscan, Option.getD_some]
  rcases h.present q hq with hmem | hmem | hmem
  · exact Or.inl hmem
  · exact Or.inr (Or.inl (List.mem_cons_of_mem _ hmem))
  · rw [htodo] at hmem
    rcases List.mem_cons.mp hmem with rfl | hmem
    · exact Or.inr (Or.inl List.mem_cons_self)
    · exact Or.inr (Or.inr hmem)

theorem Inv.scanEnd (h : Inv s) (hscan : s.scan = some []) : Inv { s with scan := none } := by
  refine ⟨h.entries, h.exits, h.exiting, h.alone, h.entry, fun q hq => ?_, h.counted⟩
  have htodo : s.todo = [] := by
    rw [State.todo, hscan, Option.getD_some]
  have hpresent := h.present q hq
  rw [htodo] at hpresent
  exact hpresent

/-! ## The steps of the processes -/

/-- A change of a process by which it does not enter its exit probe, comes to
life or leaves an entry behind. -/
theorem Inv.setProc {p : Process} {f : Process → Process} (h : Inv s)
    (hf : ∀ p, (f p).pid = p.pid) (hp : s.find pid = some p)
    (hexit : (f p).leader = .exiting ↔ p.leader = .exiting)
    (hothers : pid ∈ s.uncounting → (f p).others = 0)
    (hkeep : pid ∈ s.pids → (f p).stays = true ∨ pid ∈ s.removing)
    (hback : (f p).stays = true → p.stays = true) : Inv (s.setProc pid f) := by
  have hself : (s.setProc pid f).find pid = some (f p) := by
    rw [State.find_setProc hf, if_pos rfl, hp, Option.map_some]
  have hstays : (s.setProc pid f).stays pid = (f p).stays := by
    rw [State.stays, hself, Option.any_some]
  refine h.change pid rfl (fun q hq => ?_) (fun _ _ => Iff.rfl) (fun _ _ => Iff.rfl)
    (fun _ _ => id) h.exits ((h.exiting pid).trans ?_) (fun hmem p' hp' => ?_) (fun hmem => ?_)
    (fun hstay => ?_) h.counted
  · rw [State.find_setProc hf, if_neg hq]
  · rw [hself, hp]
    constructor
    · rintro ⟨p', hp', hlead⟩
      cases hp'
      exact ⟨_, rfl, hexit.mpr hlead⟩
    · rintro ⟨p', hp', hlead⟩
      cases hp'
      exact ⟨_, rfl, hexit.mp hlead⟩
  · rw [hself] at hp'
    cases hp'
    exact hothers hmem
  · rw [hstays]
    exact hkeep hmem
  · rw [hstays] at hstay
    exact h.present pid (State.stays_iff.mpr ⟨p, hp, hback hstay⟩)

theorem Inv.fork {child : Task} (h : Inv s) (hfresh : s.find child.pid = none) :
    Inv ({ s with ops := .alloc .fork child :: s.ops }.link ⟨child.pid, .running, 0⟩) := by
  have hfind : ∀ q, ({ s with ops := .alloc .fork child :: s.ops }.link
      ⟨child.pid, .running, 0⟩).find q
        = if q = child.pid then some ⟨child.pid, .running, 0⟩ else s.find q :=
    State.find_link _
  have hnot : child.pid ∉ s.removing ++ s.uncounting := by
    rw [h.exiting, hfresh]
    rintro ⟨p, hp, -⟩
    exact absurd hp nofun
  refine h.change child.pid rfl (fun q hq => ?_) (fun _ _ => Iff.rfl) (fun _ _ => Iff.rfl)
    (fun q _ hpend => ?_) h.exits ⟨fun hmem => absurd hmem hnot, ?_⟩
    (fun hmem => absurd (List.mem_append_right _ hmem) hnot) (fun _ => Or.inl ?_)
    (fun _ => Or.inr (Or.inl List.mem_cons_self)) h.counted
  · rw [hfind, if_neg hq]
  · refine hpend.imp (List.mem_cons_of_mem _) fun hmem => ?_
    cases hscan : s.scan with
    | none =>
        rw [State.todo, hscan] at hmem
        exact absurd hmem List.not_mem_nil
    | some todo =>
        rw [State.todo, hscan] at hmem
        exact List.mem_append_left _ hmem
  · rintro ⟨p, hp, hexit⟩
    rw [hfind, if_pos rfl] at hp
    cases hp
    exact absurd hexit nofun
  · rw [State.stays, hfind, if_pos rfl]
    rfl

theorem Inv.exitLeader {p : Process} (h : Inv s) (hp : s.find pid = some p)
    (hrun : p.leader = .running) :
    Inv ({ s with ops := .remove pid :: s.ops }.setProc pid
      fun p => { p with leader := .exiting }) := by
  have hfind : ∀ q, ({ s with ops := .remove pid :: s.ops }.setProc pid
      fun p => { p with leader := .exiting }).find q
        = if q = pid then (s.find q).map fun p => { p with leader := .exiting } else s.find q :=
    State.find_setProc fun _ => rfl
  have hnot : pid ∉ s.removing ++ s.uncounting := by
    rw [h.exiting, hp]
    rintro ⟨p', hp', hexit⟩
    cases hp'
    rw [hrun] at hexit
    exact absurd hexit nofun
  refine h.change pid rfl (fun q hq => ?_) (fun q hq => List.mem_cons.trans (or_iff_right hq))
    (fun _ _ => Iff.rfl) (fun _ _ => id) (List.nodup_cons.mpr ⟨hnot, h.exits⟩)
    ⟨fun _ => ⟨{ p with leader := .exiting }, ?_, rfl⟩, fun _ => List.mem_cons_self⟩
    (fun hmem => absurd (List.mem_append_right _ hmem) hnot)
    (fun _ => Or.inr List.mem_cons_self) (fun _ => ?_) h.counted
  · rw [hfind, if_neg hq]
  · rw [hfind, if_pos rfl, hp, Option.map_some]
  · exact h.present pid (State.stays_iff.mpr ⟨p, hp, Process.stays_iff.mpr (Or.inl hrun)⟩)

theorem Inv.reap {p : Process} (h : Inv s) (hp : s.find pid = some p) (hdead : p.live = false) :
    Inv (s.unlink pid) := by
  have hgone : p.leader = .gone ∧ p.others = 0 := by
    have hnot : ¬ (p.leader ≠ .gone ∨ 0 < p.others) := by
      rw [← Process.live_iff, hdead]
      exact Bool.false_ne_true
    rw [not_or, not_not] at hnot
    exact ⟨hnot.1, by omega⟩
  have hstays : s.stays pid = false := by
    rw [State.stays, hp, Option.any_some, Process.stays, hgone.1, hgone.2]
    rfl
  have hnot : pid ∉ s.removing ++ s.uncounting := by
    rw [h.exiting, hp]
    rintro ⟨p', hp', hexit⟩
    cases hp'
    rw [hgone.1] at hexit
    exact absurd hexit nofun
  have hself : (s.unlink pid).find pid = none := by
    rw [State.find_unlink, if_pos rfl]
  refine h.change pid rfl (fun q hq => ?_) (fun _ _ => Iff.rfl) (fun _ _ => Iff.rfl)
    (fun q hq hpend => hpend.imp id fun hmem => ?_) h.exits ⟨fun hmem => absurd hmem hnot, ?_⟩
    (fun hmem => absurd (List.mem_append_right _ hmem) hnot) (fun hmem => ?_) (fun hstay => ?_)
    h.counted
  · rw [State.find_unlink, if_neg hq]
  · cases hscan : s.scan with
    | none =>
        rw [State.todo, hscan] at hmem
        exact absurd hmem List.not_mem_nil
    | some todo =>
        rw [State.todo, hscan] at hmem
        rw [State.todo, State.unlink, hscan]
        exact List.mem_filter.mpr ⟨hmem, decide_eq_true hq⟩
  · rintro ⟨p', hp', -⟩
    rw [hself] at hp'
    exact absurd hp' nofun
  · rcases h.entry pid hmem with hstay | hrem
    · rw [hstays] at hstay
      exact absurd hstay Bool.false_ne_true
    · exact absurd (List.mem_append_left _ hrem) hnot
  · rw [State.stays, hself] at hstay
    exact absurd hstay Bool.false_ne_true

/-! ## Runs -/

theorem Inv.goOn {op : Op} (h : Inv s) (hop : op ∈ s.ops) (hok : Within cfg s (.goOn op)) :
    Inv (opStep cfg { s with ops := s.ops.erase op } op) := by
  obtain ⟨hfew, hok⟩ := hok
  have h' : Inv { { s with ops := s.ops.erase op } with ops := op :: s.ops.erase op } :=
    h.perm (List.perm_cons_erase hop)
  cases op with
  | alloc src task => exact Inv.alloc h' hfew
  | insert src proc =>
      refine Inv.insert h' ?_
      rw [Proper] at hok
      change if s.has proc.pid then cfg.refuses = true
        else s.stays proc.pid = true ∨ Op.remove proc.pid ∈ s.ops.erase (.insert src proc)
      split
      · rename_i hhas
        rwa [if_pos hhas] at hok
      · rename_i hhas
        rw [if_neg hhas] at hok
        have hne : Op.remove proc.pid ≠ .insert src proc := nofun
        exact hok.imp id fun hmem => (List.mem_erase_of_ne hne).mpr hmem
  | count src pid => exact Inv.count h'
  | remove pid => exact Inv.remove h' hok
  | uncount pid => exact Inv.uncount h'

theorem Inv.fail {op : Op} (h : Inv s) (hop : op ∈ s.ops) (hfail : op.mayFail = true)
    (hok : Proper cfg s (.fail op)) : Inv { s with ops := s.ops.erase op } := by
  have h' : Inv { { s with ops := s.ops.erase op } with ops := op :: s.ops.erase op } :=
    h.perm (List.perm_cons_erase hop)
  refine Inv.drop h' hfail fun q hq => ?_
  cases op with
  | alloc src task =>
      cases hq
      exact hok
  | insert src proc =>
      cases hq
      exact hok
  | count src pid => exact absurd hfail Bool.false_ne_true
  | remove pid => exact absurd hfail Bool.false_ne_true
  | uncount pid => exact absurd hfail Bool.false_ne_true

theorem Inv.exitThread {p : Process} {tid : Int32} (h : Inv s) (hp : s.find pid = some p)
    (hothers : 0 < p.others) (hok : Proper cfg s (.exitThread pid tid)) :
    Inv (s.setProc pid fun p => { p with others := p.others - 1 }) := by
  refine h.setProc (p := p) (fun _ => rfl) hp Iff.rfl (fun hmem => ?_) (fun hmem => ?_)
    fun _ => Process.stays_iff.mpr (Or.inr hothers)
  · have := h.alone pid hmem p hp
    omega
  · by_cases hmany : 1 < p.others
    · refine Or.inl (Process.stays_iff.mpr (Or.inr ?_))
      change 0 < p.others - 1
      omega
    · have hone : p.others = 1 := by omega
      cases hlead : p.leader with
      | running => exact Or.inl (Process.stays_iff.mpr (Or.inl rfl))
      | gone =>
          refine absurd ?_ (hok (State.has_iff.mpr hmem))
          rw [hp, ← State.find_pid hp, ← hone, ← hlead]
      | exiting =>
          have hop := (h.exiting pid).mpr ⟨p, hp, hlead⟩
          rcases List.mem_append.mp hop with hrem | hun
          · exact Or.inr hrem
          · have := h.alone pid hun p hp
            omega

theorem Inv.step {s' : State} {a : Action} (h : Inv s) (hok : Within cfg s a)
    (hstep : step cfg s a = some s') : Inv s' := by
  cases a with
  | fork child =>
      rw [Kernel.step] at hstep
      split at hstep
      · rename_i hfresh
        cases hstep
        exact h.fork (Option.isNone_iff_eq_none.mp hfresh)
      · exact absurd hstep nofun
  | clone pid child =>
      rw [Kernel.step] at hstep
      split at hstep
      · rename_i hcan
        cases hstep
        obtain ⟨p, hp, hstays⟩ := State.can_iff hcan
        change Inv (s.setProc pid _)
        refine h.setProc (fun _ => rfl) hp Iff.rfl (fun hmem => ?_)
          (fun _ => Or.inl (Process.stays_iff.mpr (Or.inr (Nat.succ_pos _)))) fun _ => hstays
        obtain ⟨q, hq, hexit⟩ := (h.exiting pid).mp (List.mem_append_right _ hmem)
        rw [hp] at hq
        cases hq
        rcases Process.stays_iff.mp hstays with hrun | hothers
        · rw [hexit] at hrun
          exact absurd hrun nofun
        · have := h.alone pid hmem p hp
          omega
      · exact absurd hstep nofun
  | exec tid comm =>
      cases hstep
      exact h.exec tid comm
  | takeOver pid =>
      rw [Kernel.step] at hstep
      split at hstep
      · rename_i hcan
        cases hstep
        obtain ⟨p, hp, hgone⟩ := State.can_iff hcan
        rw [Bool.and_eq_true, decide_eq_true_eq, decide_eq_true_eq] at hgone
        refine h.setProc (fun _ => rfl) hp ?_ (fun hmem => ?_)
          (fun _ => Or.inl (Process.stays_iff.mpr (Or.inl rfl)))
          fun _ => Process.stays_iff.mpr (Or.inr hgone.2)
        · rw [hgone.1]
          exact ⟨nofun, nofun⟩
        · have := h.alone pid hmem p hp
          omega
      · exact absurd hstep nofun
  | exitThread pid tid =>
      rw [Kernel.step] at hstep
      split at hstep
      · rename_i hcan
        cases hstep
        obtain ⟨p, hp, hothers⟩ := State.can_iff hcan
        exact h.exitThread hp (of_decide_eq_true hothers) hok.2
      · exact absurd hstep nofun
  | exitLeader pid =>
      rw [Kernel.step] at hstep
      split at hstep
      · rename_i hcan
        cases hstep
        obtain ⟨p, hp, hrun⟩ := State.can_iff hcan
        exact h.exitLeader hp (of_decide_eq_true hrun)
      · exact absurd hstep nofun
  | reap pid =>
      rw [Kernel.step] at hstep
      split at hstep
      · rename_i hcan
        cases hstep
        obtain ⟨p, hp, hdead⟩ := State.can_iff hcan
        exact h.reap hp (by rwa [Bool.not_eq_true'] at hdead)
      · exact absurd hstep nofun
  | scanTask task =>
      rw [Kernel.step] at hstep
      split at hstep
      · rename_i pid todo hscan
        split at hstep
        · rename_i hready
          cases hstep
          exact h.scanTask (hready.2 ▸ hscan)
        · exact absurd hstep nofun
      · exact absurd hstep nofun
  | scanEnd =>
      rw [Kernel.step] at hstep
      split at hstep
      · rename_i hready
        cases hstep
        exact h.scanEnd hready.1
      · exact absurd hstep nofun
  | goOn op =>
      rw [Kernel.step] at hstep
      split at hstep
      · rename_i hop
        cases hstep
        exact h.goOn hop hok
      · exact absurd hstep nofun
  | fail op =>
      rw [Kernel.step] at hstep
      split at hstep
      · rename_i hop
        cases hstep
        exact h.fail hop.1 hop.2 hok.2
      · exact absurd hstep nofun

/-- When nothing is in progress, the invariant makes the table exact. -/
theorem Inv.tableExact (h : Inv s) (hidle : s.Idle) (hfew : s.liveCount ≤ cfg.maxProcs) :
    TableExact cfg s := by
  obtain ⟨hops, hscan⟩ := hidle
  have hremoving : s.removing = [] := by rw [State.removing, hops, List.filterMap_nil]
  have huncounting : s.uncounting = [] := by rw [State.uncounting, hops, List.filterMap_nil]
  have hcounting : s.counting = [] := by rw [State.counting, hops, List.filterMap_nil]
  have hentering : s.entering = [] := by rw [State.entering, hops, List.filterMap_nil]
  have htodo : s.todo = [] := by rw [State.todo, hscan, Option.getD_none]
  have hmem : ∀ pid, pid ∈ s.pids ↔ s.alive pid = true := by
    intro pid
    rw [State.alive_iff]
    constructor
    · intro hpid
      rcases h.entry pid hpid with hstay | hrem
      · obtain ⟨p, hp, hstays⟩ := State.stays_iff.mp hstay
        refine ⟨p, hp, Process.live_iff.mpr ((Process.stays_iff.mp hstays).imp (fun hrun => ?_) id)⟩
        rw [hrun]
        decide
      · rw [hremoving] at hrem
        exact absurd hrem List.not_mem_nil
    · rintro ⟨p, hp, hlive⟩
      have hstay : s.stays pid = true := by
        refine State.stays_iff.mpr ⟨p, hp, Process.stays_iff.mpr ?_⟩
        rcases Process.live_iff.mp hlive with hlead | hothers
        · cases hleader : p.leader with
          | running => exact Or.inl rfl
          | gone => exact absurd hleader hlead
          | exiting =>
              have hexit := (h.exiting pid).mpr ⟨p, hp, hleader⟩
              rw [hremoving, huncounting] at hexit
              exact absurd hexit List.not_mem_nil
        · exact Or.inr hothers
      rcases h.present pid hstay with hpid | hpid | hpid
      · exact hpid
      · rw [hentering] at hpid
        exact absurd hpid List.not_mem_nil
      · rw [htodo] at hpid
        exact absurd hpid List.not_mem_nil
  have hcount := h.counted
  have hle := h.length_le
  have hlen : s.pids.length = s.table.length := List.length_map ..
  rw [hcounting, huncounting, List.length_nil] at hcount
  refine ⟨fun pid => ?_, ?_, ?_⟩
  · rw [h.entries.count]
    simp only [hmem pid]
  · omega
  · omega

/-- **The process table** is exact whenever nothing is in progress, in every run
whose steps are `Proper`. -/
theorem table_exact (b : Boot) (as : List Action) (s : State)
    (hrun : run (step cfg) (montaukInit b) as = some s)
    (hok : Meets (step cfg) (Within cfg) (montaukInit b) as)
    (hfew : s.liveCount < cfg.maxProcs) (hidle : s.Idle) : TableExact cfg s :=
  (run_keeps (fun _ _ _ h hok hstep => h.step hok hstep) hok hrun (Inv.init b)).tableExact hidle
    (Nat.le_of_lt hfew)

/-! ## A process of two threads -/

/-- A task of a process `sh`. -/
def taskSh (pid : Int32) : Task where
  pid
  realParent := 1
  comm := ⟨[0x73, 0x68], by decide, by decide⟩
  utime := 0
  stime := 0
  startBoottime := 0
  state := 1
  exitState := 0
  uid := 0
  nrThreads := 2
  mm := none

def bootTwo : Boot where
  procs := [⟨10, .running, 1⟩]
  distinct := by decide
  settled := by decide

def scanSh (pid : Int32) : List Action :=
  let task := taskSh pid
  [.scanTask task, .goOn (.alloc .scan task),
    .goOn (.insert .scan (montaukProcUpdateFromTask (zeroProc pid) task)), .goOn (.count .scan pid),
    .scanEnd]

/-- The exit of the leader of a process with an entry. -/
def leaderExits (pid : Int32) : List Action :=
  [.exitLeader pid, .goOn (.remove pid), .goOn (.uncount pid)]

/-- A process with two threads, and one with a single thread. -/
def bootThree : Boot where
  procs := [⟨10, .running, 1⟩, ⟨11, .running, 0⟩]
  distinct := by decide
  settled := by decide

/-- While the scan is at process 10, process 20 is forked and process 11 exits;
then the scan comes to process 20. -/
def scanAmidst : List Action :=
  let scanned := taskSh 10
  let child := taskSh 20
  [.scanTask scanned, .fork child, .goOn (.alloc .scan scanned), .exitLeader 11, .goOn (.alloc .fork child),
    .goOn (.insert .scan (montaukProcUpdateFromTask (zeroProc 10) scanned)), .goOn (.remove 11),
    .goOn (.insert .fork (montaukProcInitAtomic (zeroProc 20) child)), .goOn (.count .scan 10), .reap 11,
    .goOn (.count .fork 20), .scanTask child, .goOn (.alloc .scan child),
    .goOn (.insert .scan (montaukProcUpdateFromTask (zeroProc 20) child)), .scanEnd]

/-- Behind the scan the processes 10 and 20 have their entries. -/
theorem table_exact_scan :
    ∃ s, run (step ⟨8, true⟩) (montaukInit bootThree) scanAmidst = some s
      ∧ s.alive 10 = true ∧ s.alive 20 = true ∧ s.alive 11 = false ∧ TableExact ⟨8, true⟩ s := by
  refine ⟨_, rfl, rfl, rfl, rfl, table_exact bootThree scanAmidst _ rfl ?_ (by decide) ⟨rfl, rfl⟩⟩
  refine meets_cons ⟨by decide, trivial⟩ rfl (meets_cons ⟨by decide, trivial⟩ rfl
    (meets_cons ⟨by decide, trivial⟩ rfl (meets_cons ⟨by decide, trivial⟩ rfl
      (meets_cons ⟨by decide, trivial⟩ rfl (meets_cons ⟨by decide, Or.inl rfl⟩ rfl ?_)))))
  refine meets_cons ⟨by decide, fun h => absurd h (by decide)⟩ rfl
    (meets_cons ⟨by decide, Or.inl rfl⟩ rfl (meets_cons ⟨by decide, trivial⟩ rfl
      (meets_cons ⟨by decide, trivial⟩ rfl (meets_cons ⟨by decide, trivial⟩ rfl ?_))))
  exact meets_cons ⟨by decide, trivial⟩ rfl (meets_cons ⟨by decide, trivial⟩ rfl
    (meets_cons ⟨by decide, rfl⟩ rfl (meets_cons ⟨by decide, trivial⟩ rfl meets_nil)))

/-- Behind the exit of the leader it has none, and its other thread lives on. -/
theorem not_tableExact_leader :
    ∃ s, run (step ⟨8, false⟩) (montaukInit bootTwo) (scanSh 10 ++ leaderExits 10) = some s
      ∧ Meets (step ⟨8, false⟩) (fun s _ => s.liveCount < 8) (montaukInit bootTwo)
        (scanSh 10 ++ leaderExits 10)
      ∧ s.liveCount < 8 ∧ s.Idle ∧ ¬ TableExact ⟨8, false⟩ s := by
  refine ⟨_, rfl, ?_, by decide, ⟨rfl, rfl⟩, fun h => absurd (h.1 10) (by decide)⟩
  refine meets_cons (by decide) rfl (meets_cons (by decide) rfl (meets_cons (by decide) rfl
    (meets_cons (by decide) rfl (meets_cons (by decide) rfl (meets_cons (by decide) rfl
      (meets_cons (by decide) rfl (meets_cons (by decide) rfl meets_nil)))))))

end Montauk.Kernel
