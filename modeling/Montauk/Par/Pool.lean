import Mathlib.Logic.Relation
import Montauk.Sort.Buckets

/-!
# The work pool

The executor of `dfspool.c`, for any frame function. A frame function is given
by its steps (`Engine`): it may change the shared state, push a frame, go on or
return. A worker that has nothing to do takes any frame that is in a deque, its
own or another's, so a run may take the frames in every order and interleave
the steps of the workers in every way. A push may fail: then the worker runs
the frame itself.

What a run keeps is a fact about the shared state and the work that is pending,
in whatever order: the frames in the deques and the calls that have not
returned (`Engine.Keeps`). `Pool.run_spec` gives the end of a run: every
schedule ends, with all workers gone and nothing pending.
-/

namespace Montauk.Par

open Montauk.Sort (blocks blocks_perm)

/-! ## The executor -/

/-- What a step of a frame function does: it returns, goes on with `w`, or
pushes the frame `f` and goes on with `w`. -/
inductive Action (F W : Type) where
  | done
  | cont (w : W)
  | push (f : F) (w : W)

/-- A frame function, step by step: `start` is the call with a frame. A step
that is `none` has left its array. -/
structure Engine (S F W : Type) where
  start : F → W
  step : S → W → Option (S × Action F W)

/-- What a worker has on its stack: a call, a frame that it counts and pushes,
and the end of a call, which releases the count. -/
inductive Item (F W : Type) where
  | work (w : W)
  | pushing (f : F)
  | release

/-- The pool: the frames in the deques, the counter of outstanding frames, and
the stack of each worker. -/
structure Pool (S F W : Type) where
  shared : S
  active : Nat
  frames : List F
  calls : Nat → List (Item F W)
  gone : Nat → Bool

/-- A move of worker `w`: it takes the `i`-th frame, goes on with what is on
its stack, or leaves. -/
inductive Move where
  | take (w i : Nat)
  | run (w : Nat) (pushOk : Bool)
  | quit (w : Nat)

section
variable {S F W : Type}

def Action.items : Action F W → List (Item F W)
  | .done => [.release]
  | .cont w => [.work w]
  | .push f w => [.pushing f, .work w]

/-- The frames a step counts: `atomic_fetch_add(&pool->active, 1)`. -/
def Action.count : Action F W → Nat
  | .push _ _ => 1
  | _ => 0

/-- The pool with another stack for worker `w`. -/
def Pool.setStack (p : Pool S F W) (w : Nat) (items : List (Item F W)) : Pool S F W :=
  { p with calls := Function.update p.calls w items }

/-- Worker `w` goes on with what is on top of its stack. -/
def Pool.runTop (E : Engine S F W) (p : Pool S F W) (w : Nat) (pushOk : Bool) :
    List (Item F W) → Option (Pool S F W)
  | [] => none
  | .work x :: rest =>
      match E.step p.shared x with
      | none => none
      | some (s, act) =>
          some { p.setStack w (act.items ++ rest) with
            shared := s, active := p.active + act.count }
  | .pushing f :: rest =>
      if pushOk then some { p.setStack w rest with frames := f :: p.frames }
      else some (p.setStack w (.work (E.start f) :: rest))
  | .release :: rest => some { p.setStack w rest with active := p.active - 1 }

def Pool.move (E : Engine S F W) (p : Pool S F W) : Move → Option (Pool S F W)
  | .take w i =>
      match p.frames[i]? with
      | none => none
      | some f => some { p.setStack w [.work (E.start f)] with frames := p.frames.eraseIdx i }
  | .run w pushOk => p.runTop E w pushOk (p.calls w)
  | .quit w => some { p with gone := Function.update p.gone w true }

/-- What worker `w` can do. An idle worker that finds no frame looks at the
counter, and leaves when it is zero. -/
def Pool.movesOf (p : Pool S F W) (w : Nat) : List Move :=
  if p.gone w then []
  else
    match p.calls w with
    | [] => (List.range p.frames.length).map (Move.take w)
        ++ if p.active = 0 then [Move.quit w] else []
    | _ :: _ => [Move.run w true, Move.run w false]

def Pool.moves (nw : Nat) (p : Pool S F W) : List Move := (List.range nw).flatMap p.movesOf

def Pool.Step (E : Engine S F W) (nw : Nat) (p q : Pool S F W) : Prop :=
  ∃ m ∈ p.moves nw, p.move E m = some q

/-- The root frame is in the deque of worker 0. -/
def Pool.init (s : S) (root : F) : Pool S F W where
  shared := s
  active := 1
  frames := [root]
  calls := fun _ => []
  gone := fun _ => false

/-- A run under the schedule `pick`: at time `t` the move of number `pick t`,
modulo the number of moves. It ends when no worker can move. -/
def Pool.run (E : Engine S F W) (nw : Nat) (pick : Nat → Nat) :
    Nat → Nat → Pool S F W → Option (Pool S F W)
  | 0, _, _ => none
  | fuel + 1, t, p =>
      match p.moves nw with
      | [] => some p
      | m :: ms => do
          let q ← p.move E ((m :: ms).getD (pick t % (ms.length + 1)) m)
          Pool.run E nw pick fuel (t + 1) q

end

/-! ## Pending work -/

section
variable {S F W : Type} {E : Engine S F W} {nw : Nat} {p q : Pool S F W}

def Action.pending (E : Engine S F W) : Action F W → List W
  | .done => []
  | .cont w => [w]
  | .push f w => [E.start f, w]

def Item.pending (E : Engine S F W) : Item F W → List W
  | .work w => [w]
  | .pushing f => [E.start f]
  | .release => []

/-- The work that is pending: the frames in the deques and the calls that have
not returned. -/
def Pool.pending (E : Engine S F W) (nw : Nat) (p : Pool S F W) : List W :=
  p.frames.map E.start ++ (blocks nw p.calls).flatMap (Item.pending E)

/-- A fact about the shared state and the pending work that the steps of a
frame function keep. -/
structure Engine.Keeps (E : Engine S F W) (I : S → List W → Prop) : Prop where
  perm : ∀ {s P Q}, P.Perm Q → I s P → I s Q
  step : ∀ {s w P}, I s (w :: P) →
    ∃ s' act, E.step s w = some (s', act) ∧ I s' (act.pending E ++ P)

/-- The invariant of the pool: the counter is the number of frames and calls,
and workers leave when it is zero. -/
structure Pool.Good (E : Engine S F W) (I : S → List W → Prop) (nw : Nat) (p : Pool S F W) :
    Prop where
  keeps : I p.shared (p.pending E nw)
  active : p.active = p.frames.length + (blocks nw p.calls).length
  gone : ∀ w, p.gone w = true → p.active = 0

theorem Action.pending_items (act : Action F W) :
    act.items.flatMap (Item.pending E) = act.pending E := by
  cases act <;> rfl

theorem Action.length_items (act : Action F W) : act.items.length = act.count + 1 := by
  cases act <;> rfl

theorem calls_apart {w : Nat} (hw : w < nw) (calls : Nat → List (Item F W))
    (items : List (Item F W)) :
    ((blocks nw (Function.update calls w items)).flatMap (Item.pending E)).Perm
      (items.flatMap (Item.pending E)
        ++ (blocks nw (Function.update calls w [])).flatMap (Item.pending E)) := by
  rw [← List.flatMap_append]
  exact (blocks_perm calls hw items).flatMap_right _

theorem length_calls {w : Nat} (hw : w < nw) (calls : Nat → List (Item F W))
    (items : List (Item F W)) :
    (blocks nw (Function.update calls w items)).length
      = items.length + (blocks nw (Function.update calls w [])).length := by
  rw [(blocks_perm calls hw items).length_eq, List.length_append]

theorem Pool.pending_setStack {w : Nat} (hw : w < nw) (items : List (Item F W)) :
    ((p.setStack w items).pending E nw).Perm
      (items.flatMap (Item.pending E) ++ (p.setStack w []).pending E nw) := by
  refine ((calls_apart hw p.calls items).append_left _).trans ?_
  rw [← List.append_assoc, Pool.pending, ← List.append_assoc]
  exact List.perm_append_comm.append_right _

theorem Pool.setStack_self (w : Nat) : p.setStack w (p.calls w) = p := by
  rw [Pool.setStack, Function.update_eq_self]

/-- What the moves of a pool keep, with the stack of worker `w` in front. -/
theorem Pool.Good.front {I : S → List W → Prop} (h : p.Good E I nw) (hE : E.Keeps I) {w : Nat}
    (hw : w < nw) :
    I p.shared ((p.calls w).flatMap (Item.pending E) ++ (p.setStack w []).pending E nw)
      ∧ p.active = p.frames.length + ((p.calls w).length
        + (blocks nw (p.setStack w []).calls).length) := by
  have hself := p.pending_setStack (E := E) hw (p.calls w)
  have hlen := length_calls hw p.calls (p.calls w)
  rw [Pool.setStack_self] at hself
  rw [Function.update_eq_self] at hlen
  refine ⟨hE.perm hself h.keeps, ?_⟩
  rw [h.active, hlen]
  rfl

theorem Pool.Good.of_front {I : S → List W → Prop} (hE : E.Keeps I) {w : Nat} (hw : w < nw)
    {items : List (Item F W)}
    (hI : I p.shared (items.flatMap (Item.pending E) ++ (p.setStack w []).pending E nw))
    (hactive : p.active = p.frames.length + (items.length
      + (blocks nw (p.setStack w []).calls).length))
    (hgone : ∀ v, p.gone v = true → p.active = 0) : (p.setStack w items).Good E I nw := by
  refine ⟨hE.perm (p.pending_setStack hw items).symm hI, ?_, hgone⟩
  show p.active = p.frames.length + (blocks nw (Function.update p.calls w items)).length
  rw [length_calls hw]
  exact hactive

theorem Pool.Good.runTop {I : S → List W → Prop} (h : p.Good E I nw) (hE : E.Keeps I) {w : Nat}
    (hw : w < nw) (hgone : ∀ v, p.gone v = false) (pushOk : Bool) (hcalls : p.calls w ≠ []) :
    ∃ q, p.runTop E w pushOk (p.calls w) = some q ∧ q.Good E I nw := by
  obtain ⟨hI, hactive⟩ := h.front hE hw
  have hnone : ∀ (a : Nat) v, p.gone v = true → a = 0 := by
    intro a v hv
    rw [hgone v] at hv
    cases hv
  cases hcall : p.calls w with
  | nil => exact absurd hcall hcalls
  | cons item rest =>
      rw [hcall, List.flatMap_cons, List.append_assoc] at hI
      rw [hcall, List.length_cons] at hactive
      cases item with
      | work x =>
          obtain ⟨s', act, hstep, hI'⟩ := hE.step hI
          refine ⟨{ p.setStack w (act.items ++ rest) with
            shared := s', active := p.active + act.count }, ?_, ?_⟩
          · rw [Pool.runTop, hstep]
          · have hitems : (act.items ++ rest).flatMap (Item.pending E)
                = act.pending E ++ rest.flatMap (Item.pending E) := by
              rw [List.flatMap_append, Action.pending_items]
            refine Pool.Good.of_front (p := { p with shared := s', active := p.active + act.count })
              hE hw ?_ ?_ (hnone _)
            · rw [hitems, List.append_assoc]
              exact hI'
            · rw [List.length_append, Action.length_items]
              show p.active + act.count = p.frames.length + (act.count + 1 + rest.length
                + (blocks nw (p.setStack w []).calls).length)
              omega
      | pushing f =>
          rw [Pool.runTop]
          cases pushOk with
          | true =>
              refine ⟨{ p.setStack w rest with frames := f :: p.frames }, rfl, ?_⟩
              refine Pool.Good.of_front (p := { p with frames := f :: p.frames }) hE hw ?_ ?_
                (hnone _)
              · refine hE.perm ?_ hI
                show (E.start f :: (rest.flatMap (Item.pending E)
                  ++ (p.setStack w []).pending E nw)).Perm (rest.flatMap (Item.pending E)
                    ++ E.start f :: (p.setStack w []).pending E nw)
                exact List.perm_middle.symm
              · show p.active = (f :: p.frames).length
                  + (rest.length + (blocks nw (p.setStack w []).calls).length)
                rw [List.length_cons]
                omega
          | false =>
              refine ⟨p.setStack w (.work (E.start f) :: rest), rfl, ?_⟩
              refine Pool.Good.of_front hE hw ?_ ?_ (hnone _)
              · rw [List.flatMap_cons, List.append_assoc]
                exact hI
              · rw [List.length_cons]
                exact hactive
      | release =>
          refine ⟨{ p.setStack w rest with active := p.active - 1 }, rfl, ?_⟩
          refine Pool.Good.of_front (p := { p with active := p.active - 1 }) hE hw hI ?_ (hnone _)
          show p.active - 1 = p.frames.length
            + (rest.length + (blocks nw (p.setStack w []).calls).length)
          omega

theorem Pool.Good.take {I : S → List W → Prop} (h : p.Good E I nw) (hE : E.Keeps I) {w i : Nat}
    (hw : w < nw) (hgone : ∀ v, p.gone v = false) (hi : i < p.frames.length)
    (hcalls : p.calls w = []) : ∃ q, p.move E (.take w i) = some q ∧ q.Good E I nw := by
  obtain ⟨hI, hactive⟩ := h.front hE hw
  rw [hcalls] at hI hactive
  have hget : p.frames[i]? = some p.frames[i] := List.getElem?_eq_getElem hi
  refine ⟨{ p.setStack w [.work (E.start p.frames[i])] with frames := p.frames.eraseIdx i }, ?_, ?_⟩
  · rw [Pool.move, hget]
  · refine Pool.Good.of_front (p := { p with frames := p.frames.eraseIdx i }) hE hw ?_ ?_ ?_
    · refine hE.perm ?_ hI
      have hperm := (List.getElem_cons_eraseIdx_perm hi).map E.start
      exact (hperm.symm.append_right _)
    · show p.active = (p.frames.eraseIdx i).length + (1 + (blocks nw (p.setStack w []).calls).length)
      rw [List.length_eraseIdx_of_lt hi]
      rw [List.length_nil] at hactive
      omega
    · intro v hv
      have hv' : p.gone v = true := hv
      rw [hgone v] at hv'
      cases hv'

theorem Pool.Good.not_gone {I : S → List W → Prop} (h : p.Good E I nw) (hactive : p.active ≠ 0)
    (v : Nat) : p.gone v = false := by
  cases hv : p.gone v with
  | false => rfl
  | true => exact absurd (h.gone v hv) hactive

/-- **The step lemma**: no move fails, and it keeps the invariant. -/
theorem Pool.Good.move {I : S → List W → Prop} (h : p.Good E I nw) (hE : E.Keeps I) {m : Move}
    (hm : m ∈ p.moves nw) : ∃ q, p.move E m = some q ∧ q.Good E I nw := by
  obtain ⟨w, hw, hmw⟩ := List.mem_flatMap.mp hm
  rw [List.mem_range] at hw
  rw [Pool.movesOf] at hmw
  split at hmw
  · cases hmw
  split at hmw
  · rename_i hidle
    rcases List.mem_append.mp hmw with htake | hquit
    · obtain ⟨i, hi, rfl⟩ := List.mem_map.mp htake
      rw [List.mem_range] at hi
      have hactive : p.active ≠ 0 := by
        have := h.active
        omega
      exact h.take hE hw (h.not_gone hactive) hi hidle
    · split at hquit
      · rename_i hzero
        rw [List.mem_singleton] at hquit
        subst hquit
        exact ⟨_, rfl, h.keeps, h.active, fun _ _ => hzero⟩
      · cases hquit
  · rename_i item rest hcall
    have hne : p.calls w ≠ [] := by
      rw [hcall]
      exact List.cons_ne_nil _ _
    have hactive : p.active ≠ 0 := by
      have hlen := length_calls hw p.calls (p.calls w)
      rw [Function.update_eq_self, hcall, List.length_cons] at hlen
      have := h.active
      omega
    have hrun := fun pushOk => h.runTop hE hw (h.not_gone hactive) pushOk hne
    rcases List.mem_pair.mp hmw with rfl | rfl
    · exact hrun true
    · exact hrun false

theorem Pool.Good.init {I : S → List W → Prop} {s : S} {root : F} (h : I s [E.start root]) :
    (Pool.init s root : Pool S F W).Good E I nw := by
  have hnone : blocks nw (fun _ => ([] : List (Item F W))) = [] := by
    rw [Montauk.Sort.blocks, List.flatMap_eq_nil_iff]
    exact fun _ _ => rfl
  have hcalls : (Pool.init s root : Pool S F W).calls = fun _ => [] := rfl
  refine ⟨?_, ?_, fun w hw => ?_⟩
  · rw [Pool.pending, hcalls, hnone]
    exact h
  · rw [hcalls, hnone]
    rfl
  · cases hw

/-- **The run lemma**: every pool that is reached keeps the invariant. -/
theorem Pool.Good.reach {I : S → List W → Prop} (hE : E.Keeps I) (h : p.Good E I nw)
    (hreach : Relation.ReflTransGen (Pool.Step E nw) p q) : q.Good E I nw := by
  induction hreach with
  | refl => exact h
  | tail _ hstep ih =>
      obtain ⟨m, hm, hmove⟩ := hstep
      obtain ⟨q', hq', hgood⟩ := ih.move hE hm
      rw [hmove] at hq'
      rwa [Option.some.inj hq']

theorem Pool.Good.moves_ne_nil {I : S → List W → Prop} (h : p.Good E I nw) {w : Nat} (hw : w < nw)
    (hgone : p.gone w = false) : p.moves nw ≠ [] := by
  have hmoves : ∀ v, v < nw → p.movesOf v ≠ [] → p.moves nw ≠ [] := by
    intro v hv hne hnil
    rw [Pool.moves, List.flatMap_eq_nil_iff] at hnil
    exact hne (hnil v (List.mem_range.mpr hv))
  by_cases hall : ∀ v, v < nw → p.calls v = []
  · refine hmoves w hw ?_
    have hcalls : blocks nw p.calls = [] := by
      rw [Montauk.Sort.blocks, List.flatMap_eq_nil_iff]
      exact fun v hv => hall v (List.mem_range.mp hv)
    have hactive := h.active
    rw [hcalls, List.length_nil, Nat.add_zero] at hactive
    rw [Pool.movesOf, hgone, if_neg (by decide), hall w hw]
    by_cases hzero : p.active = 0
    · simp [hzero]
    · rw [if_neg hzero, List.append_nil]
      refine List.ne_nil_of_length_pos ?_
      rw [List.length_map, List.length_range]
      omega
  · obtain ⟨v, hv⟩ := not_forall.mp hall
    obtain ⟨hv, hne⟩ := Classical.not_imp.mp hv
    refine hmoves v hv ?_
    have hactive : p.active ≠ 0 := by
      have hlen := length_calls hv p.calls (p.calls v)
      rw [Function.update_eq_self] at hlen
      have := h.active
      have := List.length_pos_iff.mpr hne
      omega
    rw [Pool.movesOf, h.not_gone hactive, if_neg (by decide)]
    obtain ⟨item, rest, hcall⟩ := List.exists_cons_of_ne_nil hne
    rw [hcall]
    exact List.cons_ne_nil _ _

theorem Pool.Good.finished {I : S → List W → Prop} (h : p.Good E I nw) (hnw : 0 < nw)
    (hend : p.moves nw = []) : (∀ w, w < nw → p.gone w = true) ∧ I p.shared [] := by
  have hgone : ∀ w, w < nw → p.gone w = true := by
    intro w hw
    cases hv : p.gone w with
    | true => rfl
    | false => exact absurd hend (h.moves_ne_nil hw hv)
  refine ⟨hgone, ?_⟩
  have hzero := h.gone 0 (hgone 0 hnw)
  have hactive := h.active
  have hframes : p.frames = [] := List.eq_nil_of_length_eq_zero (by omega)
  have hcalls : blocks nw p.calls = [] := List.eq_nil_of_length_eq_zero (by omega)
  have hkeeps := h.keeps
  rw [Pool.pending, hframes, hcalls] at hkeeps
  exact hkeeps

/-! ## The end of a run -/

/-- A weight that every step of a frame function lowers: a return weighs one, a
push two more than the call. -/
def Action.weight (E : Engine S F W) (wt : W → Nat) : Action F W → Nat
  | .done => 1
  | .cont w => wt w
  | .push f w => wt (E.start f) + 2 + wt w

def Item.weight (E : Engine S F W) (wt : W → Nat) : Item F W → Nat
  | .work w => wt w
  | .pushing f => wt (E.start f) + 2
  | .release => 1

def Engine.Shrinks (E : Engine S F W) (wt : W → Nat) : Prop :=
  ∀ s w s' act, E.step s w = some (s', act) → act.weight E wt < wt w

/-- What is left to do: frames, calls, and workers that have not left. -/
def Pool.measure (E : Engine S F W) (wt : W → Nat) (nw : Nat) (p : Pool S F W) : Nat :=
  (p.frames.map fun f => wt (E.start f) + 1).sum
    + ((blocks nw p.calls).map (Item.weight E wt)).sum
    + (blocks nw fun w => if p.gone w then [] else [()]).length

theorem Action.weight_items (wt : W → Nat) (act : Action F W) :
    (act.items.map (Item.weight E wt)).sum = act.weight E wt := by
  cases act with
  | done => rfl
  | cont w => rfl
  | push f w => rfl

theorem sum_calls {w : Nat} (hw : w < nw) (wt : W → Nat) (calls : Nat → List (Item F W))
    (items : List (Item F W)) :
    ((blocks nw (Function.update calls w items)).map (Item.weight E wt)).sum
      = (items.map (Item.weight E wt)).sum
        + ((blocks nw (Function.update calls w [])).map (Item.weight E wt)).sum := by
  rw [((blocks_perm calls hw items).map (Item.weight E wt)).sum_nat, List.map_append,
    List.sum_append_nat]

theorem Pool.measure_setStack {w : Nat} (hw : w < nw) (wt : W → Nat) (items : List (Item F W)) :
    (p.setStack w items).measure E wt nw
      = (items.map (Item.weight E wt)).sum + (p.setStack w []).measure E wt nw := by
  have hsum := sum_calls (E := E) hw wt p.calls items
  rw [Pool.measure, Pool.measure]
  show _ + ((blocks nw (Function.update p.calls w items)).map (Item.weight E wt)).sum + _
    = _ + (_ + ((blocks nw (Function.update p.calls w [])).map (Item.weight E wt)).sum + _)
  rw [hsum]
  show (p.frames.map fun f => wt (E.start f) + 1).sum + _
      + (blocks nw fun w => if p.gone w then [] else [()]).length
    = _ + ((p.frames.map fun f => wt (E.start f) + 1).sum + _
      + (blocks nw fun w => if p.gone w then [] else [()]).length)
  omega

def framesWeight (E : Engine S F W) (wt : W → Nat) (frames : List F) : Nat :=
  (frames.map fun f => wt (E.start f) + 1).sum

def Pool.withFrames (p : Pool S F W) (frames : List F) : Pool S F W := { p with frames := frames }

theorem Pool.measure_frames (E : Engine S F W) (nw : Nat) (wt : W → Nat) (p : Pool S F W)
    (frames : List F) :
    (p.withFrames frames).measure E wt nw + framesWeight E wt p.frames
      = p.measure E wt nw + framesWeight E wt frames := by
  show framesWeight E wt frames + ((blocks nw p.calls).map (Item.weight E wt)).sum
      + (blocks nw fun w => if p.gone w then [] else [()]).length + framesWeight E wt p.frames
    = framesWeight E wt p.frames + ((blocks nw p.calls).map (Item.weight E wt)).sum
      + (blocks nw fun w => if p.gone w then [] else [()]).length + framesWeight E wt frames
  omega

theorem Pool.measure_runTop {wt : W → Nat} (hwt : E.Shrinks wt) {w : Nat} (hw : w < nw)
    {pushOk : Bool} (hrun : p.runTop E w pushOk (p.calls w) = some q) :
    q.measure E wt nw < p.measure E wt nw := by
  have hself := p.measure_setStack (E := E) hw wt (p.calls w)
  rw [Pool.setStack_self] at hself
  cases hcall : p.calls w with
  | nil =>
      rw [hcall] at hrun
      cases hrun
  | cons item rest =>
      rw [hcall, List.map_cons, List.sum_cons] at hself
      rw [hcall] at hrun
      cases item with
      | work x =>
          rw [Pool.runTop] at hrun
          cases hstep : E.step p.shared x with
          | none =>
              rw [hstep] at hrun
              cases hrun
          | some r =>
              obtain ⟨s', act⟩ := r
              rw [hstep] at hrun
              obtain rfl := Option.some.inj hrun
              have hq := Pool.measure_setStack (E := E)
                (p := { p with shared := s', active := p.active + act.count }) hw wt
                (act.items ++ rest)
              rw [List.map_append, List.sum_append_nat, Action.weight_items] at hq
              have hless := hwt _ _ _ _ hstep
              refine hq.trans_lt ?_
              rw [hself]
              show act.weight E wt + (rest.map (Item.weight E wt)).sum
                  + (p.setStack w []).measure E wt nw
                < wt x + (rest.map (Item.weight E wt)).sum + (p.setStack w []).measure E wt nw
              omega
      | pushing f =>
          have hweight : Item.weight E wt (.pushing f) = wt (E.start f) + 2 := rfl
          rw [hweight] at hself
          rw [Pool.runTop] at hrun
          cases pushOk with
          | true =>
              obtain rfl := Option.some.inj hrun
              have hq := Pool.measure_setStack (E := E)
                (p := { p with frames := f :: p.frames }) hw wt rest
              have hframes := Pool.measure_frames E nw wt (p.setStack w []) (f :: p.frames)
              have hcons : framesWeight E wt (f :: p.frames)
                  = wt (E.start f) + 1 + framesWeight E wt p.frames := rfl
              have hsame : framesWeight E wt (p.setStack w []).frames
                  = framesWeight E wt p.frames := rfl
              refine hq.trans_lt ?_
              rw [hself]
              show _ + ((p.setStack w []).withFrames (f :: p.frames)).measure E wt nw < _
              omega
          | false =>
              obtain rfl := Option.some.inj hrun
              rw [Pool.measure_setStack hw, hself, List.map_cons, List.sum_cons]
              show wt (E.start f) + _ + _ < _
              omega
      | release =>
          have hweight : Item.weight E wt (.release : Item F W) = 1 := rfl
          rw [hweight] at hself
          rw [Pool.runTop] at hrun
          obtain rfl := Option.some.inj hrun
          have hq := Pool.measure_setStack (E := E) (p := { p with active := p.active - 1 }) hw wt
            rest
          refine hq.trans_lt ?_
          rw [hself]
          show _ + (p.setStack w []).measure E wt nw < _
          omega

theorem Pool.measure_take {wt : W → Nat} {w i : Nat} (hw : w < nw) (hi : i < p.frames.length)
    (hcalls : p.calls w = []) (hmove : p.move E (.take w i) = some q) :
    q.measure E wt nw < p.measure E wt nw := by
  have hself := p.measure_setStack (E := E) hw wt (p.calls w)
  rw [Pool.setStack_self, hcalls] at hself
  have hget : p.frames[i]? = some p.frames[i] := List.getElem?_eq_getElem hi
  rw [Pool.move, hget] at hmove
  obtain rfl := Option.some.inj hmove
  have hq := Pool.measure_setStack (E := E) (p := { p with frames := p.frames.eraseIdx i }) hw wt
    [.work (E.start p.frames[i])]
  have hperm : framesWeight E wt (p.frames[i] :: p.frames.eraseIdx i) = framesWeight E wt p.frames :=
    ((List.getElem_cons_eraseIdx_perm hi).map _).sum_nat
  have hcons : framesWeight E wt (p.frames[i] :: p.frames.eraseIdx i)
      = wt (E.start p.frames[i]) + 1 + framesWeight E wt (p.frames.eraseIdx i) := rfl
  have hframes := Pool.measure_frames E nw wt (p.setStack w []) (p.frames.eraseIdx i)
  have hsame : framesWeight E wt (p.setStack w []).frames = framesWeight E wt p.frames := rfl
  refine hq.trans_lt ?_
  rw [hself]
  show wt (E.start p.frames[i])
      + ((p.setStack w []).withFrames (p.frames.eraseIdx i)).measure E wt nw
    < 0 + (p.setStack w []).measure E wt nw
  omega

theorem Pool.measure_quit {wt : W → Nat} {w : Nat} (hw : w < nw) (hgone : p.gone w = false) :
    ({ p with gone := Function.update p.gone w true } : Pool S F W).measure E wt nw
      < p.measure E wt nw := by
  have hlive := (blocks_perm (fun w => if p.gone w then [] else [()]) hw [()]).length_eq
  have hafter : (fun v => if Function.update p.gone w true v then [] else [()])
      = Function.update (fun v => if p.gone v then [] else [()]) w [] := by
    funext v
    by_cases hv : v = w
    · subst hv
      rw [Function.update_self, Function.update_self, if_pos rfl]
    · rw [Function.update_of_ne hv, Function.update_of_ne hv]
  have hself : Function.update (fun v => if p.gone v then [] else [()]) w [()]
      = fun v => if p.gone v then [] else [()] := by
    refine Function.update_eq_self_iff.mpr ?_
    rw [hgone]
    rfl
  rw [hself, List.length_append, List.length_singleton] at hlive
  show (_ : Nat) + (blocks nw fun v => if Function.update p.gone w true v then [] else [()]).length
    < _ + (blocks nw fun v => if p.gone v then [] else [()]).length
  rw [hafter, hlive]
  exact Nat.add_lt_add_left (Nat.lt_one_add_iff.mpr (Nat.le_refl _)) _

theorem Pool.measure_move {wt : W → Nat} (hwt : E.Shrinks wt) {m : Move} (hm : m ∈ p.moves nw)
    (hmove : p.move E m = some q) : q.measure E wt nw < p.measure E wt nw := by
  obtain ⟨w, hw, hmw⟩ := List.mem_flatMap.mp hm
  rw [List.mem_range] at hw
  rw [Pool.movesOf] at hmw
  split at hmw
  · cases hmw
  rename_i hgone
  split at hmw
  · rename_i hidle
    rcases List.mem_append.mp hmw with htake | hquit
    · obtain ⟨i, hi, rfl⟩ := List.mem_map.mp htake
      exact Pool.measure_take hw (List.mem_range.mp hi) hidle hmove
    · split at hquit
      · rw [List.mem_singleton] at hquit
        subst hquit
        obtain rfl := Option.some.inj hmove
        exact Pool.measure_quit hw (Bool.eq_false_iff.mpr hgone)
      · cases hquit
  · rcases List.mem_pair.mp hmw with rfl | rfl
    · exact Pool.measure_runTop hwt hw hmove
    · exact Pool.measure_runTop hwt hw hmove

/-- **The end of a run**: under every schedule the run ends within the measure,
all workers have left, and nothing is pending. -/
theorem Pool.run_spec {I : S → List W → Prop} {wt : W → Nat} (hE : E.Keeps I)
    (hwt : E.Shrinks wt) (hnw : 0 < nw) (pick : Nat → Nat) (fuel : Nat) :
    ∀ (t : Nat) (p : Pool S F W), p.Good E I nw → p.measure E wt nw < fuel →
      ∃ q, Pool.run E nw pick fuel t p = some q
        ∧ Relation.ReflTransGen (Pool.Step E nw) p q
        ∧ (∀ w, w < nw → q.gone w = true) ∧ I q.shared [] := by
  induction fuel with
  | zero => exact fun t p _ hfuel => absurd hfuel (Nat.not_lt_zero _)
  | succ fuel ih =>
      intro t p h hfuel
      rw [Pool.run]
      cases hmoves : p.moves nw with
      | nil =>
          obtain ⟨hgone, hI⟩ := h.finished hnw hmoves
          exact ⟨p, rfl, Relation.ReflTransGen.refl, hgone, hI⟩
      | cons m ms =>
          have hlt : pick t % (ms.length + 1) < (m :: ms).length := by
            rw [List.length_cons]
            exact Nat.mod_lt _ (Nat.succ_pos _)
          have hmem : (m :: ms).getD (pick t % (ms.length + 1)) m ∈ p.moves nw := by
            rw [hmoves, List.getD_eq_getElem?_getD, List.getElem?_eq_getElem hlt]
            exact List.getElem_mem hlt
          obtain ⟨q, hmove, hgood⟩ := h.move hE hmem
          have hless := Pool.measure_move hwt hmem hmove
          obtain ⟨r, hrun, hreach, hgone, hI⟩ := ih (t + 1) q hgood (by omega)
          refine ⟨r, ?_, Relation.ReflTransGen.head ⟨_, hmem, hmove⟩ hreach, hgone, hI⟩
          show (p.move E ((m :: ms).getD (pick t % (ms.length + 1)) m)).bind _ = some r
          rw [hmove]
          exact hrun

/-! ## `sub_dfs_run` -/

/-- What the machine decides in a call: whether the deques can be allocated,
how many threads can be started, and the schedule. -/
structure Schedule where
  engineOk : Bool
  started : Nat
  pick : Nat → Nat

/-- The workers of a call: `num_workers` between 1 and 64, those that could be
started of them, the caller when none could. -/
def Schedule.workers (sched : Schedule) (numWorkers : Nat) : Nat :=
  max 1 (min sched.started (min 64 (max 1 numWorkers)))

/-- `sub_dfs_run`, when the deques can be allocated: the shared state when all
workers have left. -/
def subDfsRun (E : Engine S F W) (wt : W → Nat) (sched : Schedule) (numWorkers : Nat) (s : S)
    (root : F) : Option S := do
  let p ← Pool.run E (sched.workers numWorkers) sched.pick (wt (E.start root) + 66) 0
    (Pool.init s root)
  some p.shared

theorem Pool.measure_init (wt : W → Nat) (s : S) (root : F) :
    (Pool.init s root : Pool S F W).measure E wt nw = wt (E.start root) + 1 + nw := by
  have hcalls : blocks nw (fun _ => ([] : List (Item F W))) = [] := by
    rw [Montauk.Sort.blocks, List.flatMap_eq_nil_iff]
    exact fun _ _ => rfl
  have hlive : (blocks nw fun _ => [()]).length = nw := by
    rw [Montauk.Sort.blocks, List.length_flatMap]
    simp
  rw [Pool.measure]
  show wt (E.start root) + 1 + ((blocks nw fun _ => ([] : List (Item F W))).map _).sum
    + (blocks nw fun _ => if false = true then [] else [()]).length = _
  rw [hcalls]
  simpa using hlive

theorem subDfsRun_spec {I : S → List W → Prop} {wt : W → Nat} (hE : E.Keeps I)
    (hwt : E.Shrinks wt) (sched : Schedule) (numWorkers : Nat) {s : S} {root : F}
    (hroot : I s [E.start root]) :
    ∃ s', subDfsRun E wt sched numWorkers s root = some s' ∧ I s' [] := by
  have hworkers : 0 < sched.workers numWorkers ∧ sched.workers numWorkers ≤ 64 := by
    rw [Schedule.workers]
    omega
  obtain ⟨q, hrun, -, -, hI⟩ := Pool.run_spec hE hwt hworkers.1 sched.pick
    (wt (E.start root) + 66) 0 (Pool.init s root) (Pool.Good.init hroot)
    (by rw [Pool.measure_init]; omega)
  refine ⟨q.shared, ?_, hI⟩
  rw [subDfsRun, hrun]
  rfl

end

end Montauk.Par
