import Montauk.Par.Deque
import Montauk.Par.Pool

/-!
# The pool on its deques

The executor of `dfspool.c` down to the atomic operations of its deques: each
worker takes from its own deque, tries to steal from victims that a xorshift
picks, and leaves when nothing was found and the counter of outstanding frames
is zero. What `Par.Pool` calls taking a frame is here many steps of several
workers at once.

`DfsPool.Sim` ties a state to one of `Par.Pool`: the same stacks, and the
frames that the deques hold, in whatever order. A step is one of `Par.Pool` or
changes nothing there (`DfsPool.sim_step`), so what is proved of every order of
takes holds of the deques (`dfsPool_safe`).
-/

namespace Montauk.Par

open Machine
open Montauk.Sort (blocks blocks_perm)

/-! ## Workers -/

/-- Where a worker is in `run_worker`: in a call or at the head of the loop, in
its own deque, in front of try `k` of a round of thefts, in the deque of victim
`v`, or in front of the load of the counter. -/
inductive WorkerPc (β : Type) where
  | loop
  | own (pc : OwnerPc β)
  | tries (k : Nat)
  | rob (v k : Nat) (pc : ThiefPc β)
  | check
  | gone

/-- A worker: the calls on its stack, where it is, and its generator. -/
structure DfsWorker (β W : Type) where
  stack : List (Item (DfsFrame β) W)
  pc : WorkerPc β
  rng : UInt32

/-- `sub_dfs_pool`, with its workers. -/
structure DfsPool (S β W : Type) where
  shared : S
  active : Int
  deques : Nat → WsDeque β
  workers : Nat → DfsWorker β W

/-- `rng ^= rng << 13; rng ^= rng >> 17; rng ^= rng << 5`. -/
def xorshift32 (rng : UInt32) : UInt32 :=
  let rng := rng ^^^ (rng <<< 13)
  let rng := rng ^^^ (rng >>> 17)
  rng ^^^ (rng <<< 5)

section
variable {S β W : Type}

def DfsPool.setWorker (p : DfsPool S β W) (w : Nat) (me : DfsWorker β W) : DfsPool S β W :=
  { p with workers := Function.update p.workers w me }

def DfsPool.setDeque (p : DfsPool S β W) (v : Nat) (d : WsDeque β) : DfsPool S β W :=
  { p with deques := Function.update p.deques v d }

/-- `sub_wsdeque_push` returns to `sub_dfs_push`, which runs the frame itself
when there was no memory to grow. -/
def DfsWorker.pushReturns (E : Engine S (DfsFrame β) W) (me : DfsWorker β W) (ok : Bool) : DfsWorker β W :=
  match me.stack with
  | .pushing f :: rest =>
      { me with pc := .loop, stack := if ok then rest else .work (E.start f) :: rest }
  | _ => { me with pc := .loop }

/-- `sub_wsdeque_take` returns: a round of thefts when there was nothing. -/
def DfsWorker.takeReturns (E : Engine S (DfsFrame β) W) (me : DfsWorker β W) :
    Option (DfsFrame β) → DfsWorker β W
  | some f => { me with pc := .loop, stack := [.work (E.start f)] }
  | none => { me with pc := .tries 0 }

/-- `sub_wsdeque_steal` returns to try `k`. -/
def DfsWorker.stealReturns (E : Engine S (DfsFrame β) W) (me : DfsWorker β W) (k : Nat) :
    Steal β → DfsWorker β W
  | .ok f => { me with pc := .loop, stack := [.work (E.start f)] }
  | .empty | .abort => { me with pc := .tries (k + 1) }

/-- Worker `w` after a step in its own deque. -/
def DfsWorker.afterOwn (E : Engine S (DfsFrame β) W) (me : DfsWorker β W) : OwnerPc β → DfsWorker β W
  | .pushed ok => me.pushReturns E ok
  | .took out => me.takeReturns E out
  | pc => { me with pc := .own pc }

/-- A worker after a step in the deque of victim `v`. -/
def DfsWorker.afterRob (E : Engine S (DfsFrame β) W) (me : DfsWorker β W) (v k : Nat) :
    ThiefPc β → DfsWorker β W
  | .result r => me.stealReturns E k r
  | pc => { me with pc := .rob v k pc }

/-- The next step of a call of worker `w`, or the head of its loop. -/
def DfsPool.loop (E : Engine S (DfsFrame β) W) (p : DfsPool S β W) (w : Nat) : Option (DfsPool S β W) :=
  let me := p.workers w
  match me.stack with
  | [] => some (p.setWorker w { me with pc := .own .takeBottom })
  | .work x :: rest =>
      match E.step p.shared x with
      | none => none
      | some (s, act) =>
          some { p.setWorker w { me with stack := act.items ++ rest } with
            shared := s, active := p.active + act.count }
  | .pushing f :: _ => some (p.setWorker w { me with pc := .own (.pushBottom f) })
  | .release :: rest =>
      some { p.setWorker w { me with stack := rest } with active := p.active - 1 }

/-- The next step of worker `w`, in a pool of `nd` deques. -/
def DfsPool.step (E : Engine S (DfsFrame β) W) (nd : Nat) (p : DfsPool S β W) (w : Nat) (luck : Luck β) :
    Option (DfsPool S β W) :=
  let me := p.workers w
  match me.pc with
  | .loop => p.loop E w
  | .own pc =>
      ((p.deques w).own luck pc).map fun (d, pc) => (p.setDeque w d).setWorker w (me.afterOwn E pc)
  | .tries k =>
      if 1 < nd ∧ k < nd * 4 then
        let rng := xorshift32 me.rng
        let v := rng.toNat % nd
        some (p.setWorker w
          { me with rng := rng, pc := if v = w then .tries (k + 1) else .rob v k .loadTop })
      else some (p.setWorker w { me with pc := .check })
  | .rob v k pc =>
      ((p.deques v).steal pc).map fun (d, pc) => (p.setDeque v d).setWorker w (me.afterRob E v k pc)
  -- after `sched_yield` the worker is at the head of the loop again
  | .check => some (p.setWorker w { me with pc := if p.active = 0 then .gone else .loop })
  | .gone => none

/-- Steps of the owner without anybody else. -/
def WsDeque.ownRun (luck : Luck β) : Nat → WsDeque β → OwnerPc β → WsDeque β × OwnerPc β
  | 0, d, pc => (d, pc)
  | fuel + 1, d, pc =>
      match d.own luck pc with
      | none => (d, pc)
      | some (d', pc') => WsDeque.ownRun luck fuel d' pc'

/-- The deques when the workers start: the root has been pushed onto the first,
which has room for it. -/
def seeded (buf : Nat → Nat → DfsFrame β) (root : DfsFrame β) (v : Nat) : WsDeque β :=
  let d := WsDeque.init 256 (buf v)
  if v = 0 then (d.ownRun ⟨none, false⟩ 7 (.pushBottom root)).1 else d

/-- The pool of `sub_dfs_run` when the workers start. -/
def DfsPool.start (buf : Nat → Nat → DfsFrame β) (s : S) (root : DfsFrame β) : DfsPool S β W where
  shared := s
  active := 1
  deques := seeded buf root
  workers w := ⟨[], .loop, (UInt32.ofNat w * 2654435761 + 1) ||| 1⟩

/-! ## What the deques hold -/

def WorkerPc.owner : WorkerPc β → OwnerPc β
  | .own pc => pc
  | _ => .idle

/-- Where the owner of deque `v` is. -/
def DfsPool.ownerOf (p : DfsPool S β W) (v : Nat) : OwnerPc β := (p.workers v).pc.owner

/-- What a deque holds, with what is in the owner's hand. -/
def WsDeque.held (d : WsDeque β) (pc : OwnerPc β) : List (DfsFrame β) :=
  d.frames pc ++ (pc.hand d).toList

def DfsPool.frames (nd : Nat) (p : DfsPool S β W) : List (DfsFrame β) :=
  blocks nd fun v => (p.deques v).held (p.ownerOf v)

/-- The frame that the owner is pushing. -/
def OwnerPc.frame? : OwnerPc β → Option (DfsFrame β)
  | .pushBottom f | .pushTop f _ | .pushArray f _ _ | .arrayNew f _ _ _ | .copy f _ _ _ _
  | .publish f _ _ | .storeBase f _ _ | .storeN f _ _ | .storeDepth f _ _ | .storeBottom f _ => some f
  | _ => none

def OwnerPc.Busy : OwnerPc β → Prop
  | .idle | .pushed _ | .took _ => False
  | _ => True

/-- A worker's stack and where it is: only a push has something below it. -/
def DfsWorker.Fits (me : DfsWorker β W) : Prop :=
  match me.pc with
  | .loop => True
  | .own pc =>
      pc.Busy ∧
        match pc.frame? with
        | some f => ∃ rest, me.stack = .pushing f :: rest
        | none => me.stack = []
  | .rob _ _ pc => me.stack = [] ∧ ∀ r, pc ≠ .result r
  | .tries _ | .check | .gone => me.stack = []

/-- The invariant of the pool's deques. -/
structure DfsPool.Ok (nd : Nat) (p : DfsPool S β W) : Prop where
  deques : ∀ v, (p.deques v).Ok (p.ownerOf v)
  thieves : ∀ w v k pc, (p.workers w).pc = .rob v k pc →
    pc.At (p.deques v) ((p.ownerOf v).limit (p.deques v).bottom)
  robs : ∀ w v k pc, (p.workers w).pc = .rob v k pc → v ≠ w ∧ v < nd
  fits : ∀ w, (p.workers w).Fits

/-! ## Steps in a deque -/

variable {d d' : WsDeque β} {pc pc' : OwnerPc β} {luck : Luck β}

theorem WsDeque.own_cases (hstep : d.own luck pc = some (d', pc')) :
    (pc'.Busy ∧ pc'.frame? = pc.frame? ∧ (pc.label d).pushes = []) ∨
    (∃ f, pc.frame? = some f ∧ pc' = .pushed true ∧ (pc.label d).pushes = [f]) ∨
    (∃ f, pc.frame? = some f ∧ pc' = .pushed false ∧ (pc.label d).pushes = []) ∨
    (∃ out, pc.frame? = none ∧ pc' = .took out ∧ (pc.label d).pushes = []) := by
  have hpushes : ∀ (P Q : Prop) [Decidable P] [Decidable Q] (f : DfsFrame β),
      (if P then Label.take f else if Q then .none else .takeNothing : Label β).pushes = [] := by
    intro P Q _ _ f
    split
    · rfl
    · split <;> rfl
  cases pc <;> simp only [WsDeque.own] at hstep
  case idle | pushed | took => cases hstep
  case pushBottom | pushTop | publish | storeBase | storeN | storeDepth | takeBottom | takeArray
      | takeStore | loadBase | loadN =>
    cases hstep
    exact .inl ⟨trivial, rfl, rfl⟩
  case storeBottom f b =>
    cases hstep
    exact .inr (.inl ⟨f, rfl, rfl, rfl⟩)
  case restore b out =>
    cases hstep
    exact .inr (.inr (.inr ⟨out, rfl, rfl, rfl⟩))
  case pushArray f b t =>
    split at hstep <;> cases hstep <;> exact .inl ⟨trivial, rfl, rfl⟩
  case arrayNew f b t a =>
    split at hstep <;> cases hstep
    · exact .inr (.inr (.inl ⟨f, rfl, rfl, rfl⟩))
    · exact .inl ⟨trivial, rfl, rfl⟩
  case copy f b a i na =>
    split at hstep
    · cases hstep
      exact .inl ⟨trivial, rfl, rfl⟩
    · split at hstep <;> cases hstep
      · exact .inl ⟨trivial, rfl, rfl⟩
      · exact .inr (.inr (.inl ⟨f, rfl, rfl, rfl⟩))
  case takeTop b a =>
    split at hstep <;> cases hstep <;> exact .inl ⟨trivial, rfl, hpushes _ _ _⟩
  case loadDepth b a t base n =>
    split at hstep <;> cases hstep
    · exact .inl ⟨trivial, rfl, rfl⟩
    · exact .inr (.inr (.inr ⟨_, rfl, rfl, rfl⟩))
  case takeCas b t f =>
    split at hstep <;> cases hstep <;> refine .inl ⟨trivial, rfl, ?_⟩
    · rename_i htop
      rw [OwnerPc.label, if_pos htop]
      rfl
    · rename_i htop
      rw [OwnerPc.label, if_neg htop]
      rfl

theorem WsDeque.Stepped.held (h : d.Stepped pc d' pc') :
    (d'.held pc').Perm (d.held pc ++ (pc.label d).pushes) := by
  have hperm := h.does.perm
  rw [OwnerPc.label_stolen, List.append_nil] at hperm
  rw [WsDeque.held, WsDeque.held, h.hand]
  calc (d'.frames pc' ++ ((pc.hand d).toList ++ (pc.label d).taken)).Perm
        ((pc.hand d).toList ++ ((pc.label d).taken ++ d'.frames pc')) := by
        exact List.perm_append_comm.trans (.of_eq (List.append_assoc ..))
    _ |>.Perm ((pc.hand d).toList ++ (d.frames pc ++ (pc.label d).pushes)) := hperm.symm.append_left _
    _ |>.Perm (d.frames pc ++ (pc.hand d).toList ++ (pc.label d).pushes) := by
        rw [← List.append_assoc]
        exact List.perm_append_comm.append_right _

theorem ThiefPc.label_pushes (d : WsDeque β) (pc : ThiefPc β) : (pc.label d).pushes = [] := by
  cases pc <;> simp only [ThiefPc.label] <;> try rfl
  split <;> rfl

theorem WsDeque.Robbed.held {tpc tpc' : ThiefPc β} (h : d.Robbed pc tpc d' tpc') :
    (d.held pc).Perm (tpc'.out ++ d'.held pc) := by
  have hperm := h.does.perm
  rw [ThiefPc.label_pushes, ThiefPc.label_taken, List.append_nil, List.nil_append, ← h.out] at hperm
  rw [WsDeque.held, WsDeque.held, h.hand, ← List.append_assoc]
  exact hperm.append_right _

/-- A settled owner holds what it held, without what it returned. -/
theorem WsDeque.held_settle (d : WsDeque β) (pc : OwnerPc β) :
    (d.held pc).Perm (pc.out ++ d.held pc.settle) := by
  rw [WsDeque.held, WsDeque.held, WsDeque.frames_settle, OwnerPc.hand_settle]
  exact List.perm_append_comm_assoc _ _ _

theorem WsDeque.own_isSome (h : pc.Busy) : (d.own luck pc).isSome := by
  cases pc <;> simp only [WsDeque.own] <;> first | exact h.elim | rfl | skip
  case pushArray f b t => split <;> rfl
  case arrayNew f b t a => split <;> rfl
  case copy f b a i na =>
    split
    · rfl
    · split <;> rfl
  case takeTop b a => split <;> rfl
  case loadDepth b a t base n => split <;> rfl
  case takeCas b t f => split <;> rfl

theorem WsDeque.steal_isSome {tpc : ThiefPc β} (h : ∀ r, tpc ≠ .result r) : (d.steal tpc).isSome := by
  cases tpc <;> simp only [WsDeque.steal] <;> first | rfl | skip
  case loadBottom t => split <;> rfl
  case cas t f => split <;> rfl
  case result r => exact absurd rfl (h r)

/-! ## The invariant of the pool -/

variable {E : Engine S (DfsFrame β) W} {p p' : DfsPool S β W} {w v k nd nw : Nat}

theorem DfsWorker.fits_loop {me : DfsWorker β W} (h : me.pc = .loop) : me.Fits := by
  rw [Fits, h]
  trivial

theorem DfsPool.Ok.setOwn (h : p.Ok nd) (d : WsDeque β) (me : DfsWorker β W) (hdeque : d.Ok me.pc.owner)
    (hkept : Kept (p.deques w) ((p.ownerOf w).limit (p.deques w).bottom) d (me.pc.owner.limit d.bottom))
    (hrob : ∀ v k pc, me.pc = .rob v k pc →
      (v ≠ w ∧ v < nd) ∧ pc.At (p.deques v) ((p.ownerOf v).limit (p.deques v).bottom))
    (hfits : me.Fits) : ((p.setDeque w d).setWorker w me).Ok nd := by
  obtain ⟨q, hq⟩ : ∃ q, q = (p.setDeque w d).setWorker w me := ⟨_, rfl⟩
  have hworker : q.workers w = me := hq ▸ Function.update_self ..
  have hdeque' : q.deques w = d := hq ▸ Function.update_self ..
  have hworkers : ∀ {v}, v ≠ w → q.workers v = p.workers v := fun hv => hq ▸ Function.update_of_ne hv ..
  have hdeques : ∀ {v}, v ≠ w → q.deques v = p.deques v := fun hv => hq ▸ Function.update_of_ne hv ..
  have howner : q.ownerOf w = me.pc.owner := congrArg (fun x => x.pc.owner) hworker
  have howners : ∀ {v}, v ≠ w → q.ownerOf v = p.ownerOf v :=
    fun hv => congrArg (fun x => x.pc.owner) (hworkers hv)
  rw [← hq]
  refine ⟨fun v => ?_, fun u v k pc hpc => ?_, fun u v k pc hpc => ?_, fun v => ?_⟩
  · by_cases hv : v = w
    · subst hv
      rw [howner, hdeque']
      exact hdeque
    · rw [howners hv, hdeques hv]
      exact h.deques v
  · by_cases hu : u = w
    · subst hu
      rw [hworker] at hpc
      obtain ⟨⟨hv, -⟩, hthief⟩ := hrob v k pc hpc
      rw [howners hv, hdeques hv]
      exact hthief
    · rw [hworkers hu] at hpc
      have hthief := h.thieves u v k pc hpc
      by_cases hv : v = w
      · subst hv
        rw [howner, hdeque']
        exact hthief.kept hkept
      · rw [howners hv, hdeques hv]
        exact hthief
  · by_cases hu : u = w
    · subst hu
      rw [hworker] at hpc
      exact (hrob v k pc hpc).1
    · rw [hworkers hu] at hpc
      exact h.robs u v k pc hpc
  · by_cases hv : v = w
    · subst hv
      rw [hworker]
      exact hfits
    · rw [hworkers hv]
      exact h.fits v

theorem DfsPool.Ok.setDeque (h : p.Ok nd) {d : WsDeque β} (hdeque : d.Ok (p.ownerOf v))
    (hkept : Kept (p.deques v) ((p.ownerOf v).limit (p.deques v).bottom) d
      ((p.ownerOf v).limit d.bottom)) : (p.setDeque v d).Ok nd := by
  have hself : (p.setDeque v d).deques v = d := Function.update_self ..
  have hother : ∀ {u}, u ≠ v → (p.setDeque v d).deques u = p.deques u :=
    fun hu => Function.update_of_ne hu ..
  refine ⟨fun u => ?_, fun u x k pc hpc => ?_, h.robs, h.fits⟩
  · by_cases hu : u = v
    · subst hu
      rw [hself]
      exact hdeque
    · rw [hother hu]
      exact h.deques u
  · have hat := h.thieves u x k pc hpc
    by_cases hx : x = v
    · subst hx
      rw [hself]
      exact hat.kept hkept
    · rw [hother hx]
      exact hat

theorem DfsPool.setDeque_self (p : DfsPool S β W) (w : Nat) : p.setDeque w (p.deques w) = p := by
  rw [DfsPool.setDeque, Function.update_eq_self]

theorem DfsPool.Ok.setIdle (h : p.Ok nd) {me : DfsWorker β W} (hidle : p.ownerOf w = .idle)
    (hlimit : me.pc.owner.limit (p.deques w).bottom = (p.deques w).bottom)
    (hat : me.pc.owner.At (p.deques w))
    (hrob : ∀ v k pc, me.pc = .rob v k pc →
      (v ≠ w ∧ v < nd) ∧ pc.At (p.deques v) ((p.ownerOf v).limit (p.deques v).bottom))
    (hfits : me.Fits) : (p.setWorker w me).Ok nd := by
  have hd := h.deques w
  rw [hidle] at hd
  have hset := h.setOwn (p.deques w) me ?_ (.refl ?_) hrob hfits
  · rwa [p.setDeque_self] at hset
  · exact ⟨hd.top_nonneg, hlimit.symm ▸ hd.top_le, hlimit.symm ▸ hd.fits, hat⟩
  · rw [hidle, hlimit]
    exact le_refl _

/-! ## The simulation -/

/-- The frames of the pool after a step in deque `v`, which let `outs` out and
took `ins` in. -/
theorem blocks_change {α : Type} (B : Nat → List α) {X : List α} (ins : List α) {outs : List α} (hv : v < nd)
    (h : (X ++ outs).Perm (B v ++ ins)) :
    (blocks nd (Function.update B v X) ++ outs).Perm (blocks nd B ++ ins) := by
  have hnew := blocks_perm B hv X
  have hold := blocks_perm B hv (B v)
  rw [Function.update_eq_self] at hold
  calc (blocks nd (Function.update B v X) ++ outs).Perm
        (X ++ blocks nd (Function.update B v []) ++ outs) := hnew.append_right _
    _ |>.Perm (X ++ outs ++ blocks nd (Function.update B v [])) := by
        rw [List.append_assoc, List.append_assoc]
        exact List.perm_append_comm.append_left _
    _ |>.Perm (B v ++ ins ++ blocks nd (Function.update B v [])) := h.append_right _
    _ |>.Perm (B v ++ blocks nd (Function.update B v []) ++ ins) := by
        rw [List.append_assoc, List.append_assoc]
        exact List.perm_append_comm.append_left _
    _ |>.Perm (blocks nd B ++ ins) := hold.symm.append_right _

/-- The pool `p` is, as one of `Par.Pool`, the pool `a`. -/
structure DfsPool.Sim (nd : Nat) (p : DfsPool S β W) (a : Pool S (DfsFrame β) W) : Prop where
  shared : a.shared = p.shared
  active : p.active = a.active
  calls : ∀ w, a.calls w = (p.workers w).stack
  gone : ∀ w, a.gone w = true ↔ (p.workers w).pc = .gone
  frames : a.frames.Perm (p.frames nd)

/-- Worker `w` has become `me`, and the rest of the pool has gone along. -/
theorem DfsPool.Sim.setWorker {a : Pool S (DfsFrame β) W} (h : p.Sim nd a) {q : DfsPool S β W}
    (me : DfsWorker β W) {s : S} (active : Nat) (frames : List (DfsFrame β))
    (hworkers : q.workers = Function.update p.workers w me) (hshared : s = q.shared) (hactive : q.active = active)
    (hframes : frames.Perm (q.frames nd)) (hgone : me.pc = .gone ↔ (p.workers w).pc = .gone) :
    q.Sim nd { a with
      shared := s, active := active, frames := frames, calls := Function.update a.calls w me.stack } where
  shared := hshared
  active := hactive
  frames := hframes
  calls u := by
    rw [hworkers]
    show Function.update a.calls w me.stack u = _
    by_cases hu : u = w
    · subst hu
      rw [Function.update_self, Function.update_self]
    · rw [Function.update_of_ne hu, Function.update_of_ne hu]
      exact h.calls u
  gone u := by
    rw [hworkers]
    refine (h.gone u).trans ?_
    by_cases hu : u = w
    · subst hu
      rw [Function.update_self]
      exact hgone.symm
    · rw [Function.update_of_ne hu]

/-- Worker `w` has moved on without a step of `Par.Pool`. -/
theorem DfsPool.Sim.stay {a : Pool S (DfsFrame β) W} (h : p.Sim nd a) {q : DfsPool S β W}
    {me : DfsWorker β W} (hworkers : q.workers = Function.update p.workers w me)
    (hshared : q.shared = p.shared) (hactive : q.active = p.active)
    (hframes : (q.frames nd).Perm (p.frames nd)) (hstack : me.stack = (p.workers w).stack)
    (hgone : me.pc = .gone ↔ (p.workers w).pc = .gone) : q.Sim nd a := by
  have hset := h.setWorker me a.active a.frames hworkers (h.shared.trans hshared.symm) (hactive.trans h.active)
    (h.frames.trans hframes.symm) hgone
  rw [hstack, ← h.calls w, Function.update_eq_self] at hset
  exact hset

theorem Pool.step_run {a b : Pool S (DfsFrame β) W} {item : Item (DfsFrame β) W}
    {rest : List (Item (DfsFrame β) W)} (ok : Bool) (hw : w < nw) (hgone : a.gone w = false)
    (hcalls : a.calls w = item :: rest) (hmove : a.runTop E w ok (item :: rest) = some b) :
    Pool.Step E nw a b := by
  refine ⟨.run w ok, List.mem_flatMap.mpr ⟨w, List.mem_range.mpr hw, ?_⟩, ?_⟩
  · rw [Pool.movesOf, hgone, if_neg (by decide), hcalls]
    cases ok <;> simp
  · rw [Pool.move, hcalls]
    exact hmove

theorem Pool.step_take {a : Pool S (DfsFrame β) W} {f : DfsFrame β} {frames : List (DfsFrame β)}
    (hw : w < nw) (hgone : a.gone w = false) (hcalls : a.calls w = []) (hf : a.frames.Perm (f :: frames)) :
    ∃ i, Pool.Step E nw a { a.setStack w [.work (E.start f)] with frames := a.frames.eraseIdx i } ∧
      (a.frames.eraseIdx i).Perm frames := by
  obtain ⟨i, hi, hget⟩ := List.getElem_of_mem (hf.mem_iff.mpr List.mem_cons_self)
  refine ⟨i, ⟨.take w i, List.mem_flatMap.mpr ⟨w, List.mem_range.mpr hw, ?_⟩, ?_⟩, ?_⟩
  · rw [Pool.movesOf, hgone, if_neg (by decide), hcalls]
    exact List.mem_append_left _ (List.mem_map.mpr ⟨i, List.mem_range.mpr hi, rfl⟩)
  · rw [Pool.move, List.getElem?_eq_getElem hi, hget]
  · refine (List.perm_cons f).mp ?_
    have hperm := List.getElem_cons_eraseIdx_perm hi
    rw [hget] at hperm
    exact hperm.trans hf

theorem Pool.step_quit {a : Pool S (DfsFrame β) W} (hw : w < nw) (hgone : a.gone w = false)
    (hcalls : a.calls w = []) (hactive : a.active = 0) :
    Pool.Step E nw a { a with gone := Function.update a.gone w true } := by
  refine ⟨.quit w, List.mem_flatMap.mpr ⟨w, List.mem_range.mpr hw, ?_⟩, rfl⟩
  rw [Pool.movesOf, hgone, if_neg (by decide), hcalls]
  refine List.mem_append_right _ ?_
  rw [if_pos hactive]
  exact List.mem_singleton.mpr rfl

/-- A worker that has not left has not left `Par.Pool`, wherever it goes on. -/
theorem DfsPool.Sim.present {a : Pool S (DfsFrame β) W} (h : p.Sim nd a) {at_pc : WorkerPc β}
    (hpc : (p.workers w).pc = at_pc) (hne : at_pc ≠ .gone) :
    a.gone w = false ∧ ∀ {pc : WorkerPc β}, pc ≠ .gone → (pc = .gone ↔ (p.workers w).pc = .gone) := by
  rw [← hpc] at hne
  exact ⟨Bool.eq_false_iff.mpr fun hgone => hne ((h.gone w).mp hgone), fun hpc => iff_of_false hpc hne⟩

theorem DfsPool.frames_setOwn (hw : w < nd) {d : WsDeque β} {me : DfsWorker β W}
    {ins outs : List (DfsFrame β)}
    (h : (d.held me.pc.owner ++ outs).Perm ((p.deques w).held (p.ownerOf w) ++ ins)) :
    (((p.setDeque w d).setWorker w me).frames nd ++ outs).Perm (p.frames nd ++ ins) := by
  have hheld : (fun v => (((p.setDeque w d).setWorker w me).deques v).held
      (((p.setDeque w d).setWorker w me).ownerOf v))
        = Function.update (fun v => (p.deques v).held (p.ownerOf v)) w (d.held me.pc.owner) := by
    funext v
    show (Function.update p.deques w d v).held (Function.update p.workers w me v).pc.owner = _
    by_cases hv : v = w
    · subst hv
      simp only [Function.update_self]
    · simp only [Function.update_of_ne hv]
      rfl
  rw [DfsPool.frames, hheld]
  exact blocks_change _ ins hw h

theorem DfsPool.frames_setIdle {me : DfsWorker β W} (hidle : p.ownerOf w = .idle)
    (hheld : (p.deques w).held me.pc.owner = (p.deques w).held .idle) :
    (p.setWorker w me).frames nd = p.frames nd := by
  have hsame : (fun v => ((p.setWorker w me).deques v).held ((p.setWorker w me).ownerOf v))
      = fun v => (p.deques v).held (p.ownerOf v) := by
    funext v
    show (p.deques v).held (Function.update p.workers w me v).pc.owner = _
    by_cases hv : v = w
    · subst hv
      rw [Function.update_self, hheld, hidle]
    · rw [Function.update_of_ne hv]
      rfl
  rw [DfsPool.frames, hsame]
  rfl

theorem DfsPool.Ok.withShared (h : p.Ok nd) (s : S) (active : Int) : ({ p with shared := s, active := active }).Ok nd :=
  ⟨h.deques, h.thieves, h.robs, h.fits⟩

/-- What a step comes to: the invariant, and a step of `Par.Pool` or none. -/
def DfsPool.Follows (E : Engine S (DfsFrame β) W) (nd nw : Nat) (a : Pool S (DfsFrame β) W) (q : DfsPool S β W) :
    Prop :=
  q.Ok nd ∧ ∃ b, q.Sim nd b ∧ Relation.ReflTransGen (Pool.Step E nw) a b

variable {I : S → List W → Prop} {a : Pool S (DfsFrame β) W}

theorem Pool.Good.active_pos (ha : a.Good E I nw) (hw : w < nw) (hcalls : a.calls w ≠ []) : 0 < a.active := by
  have hlen := length_calls hw a.calls (a.calls w)
  rw [Function.update_eq_self] at hlen
  have := ha.active
  have := List.length_pos_iff.mpr hcalls
  omega

theorem DfsPool.follows_loop (hp : p.Ok nd) (hs : p.Sim nd a) (ha : a.Good E I nw) (hw : w < nw)
    (hpc : (p.workers w).pc = .loop) (hstep : p.loop E w = some p') : p'.Follows E nd nw a := by
  have hidle : p.ownerOf w = .idle := by
    rw [DfsPool.ownerOf, hpc]
    rfl
  obtain ⟨hgone, hiff⟩ := hs.present hpc (by simp)
  rw [DfsPool.loop] at hstep
  split at hstep
  · rename_i hstack
    cases hstep
    refine ⟨hp.setIdle hidle rfl trivial (by simp) ⟨trivial, hstack⟩, a, ?_, .refl⟩
    refine hs.stay rfl rfl rfl (.of_eq ?_) rfl (hiff (by simp))
    exact DfsPool.frames_setIdle hidle rfl
  · rename_i x rest hstack
    split at hstep
    · cases hstep
    · rename_i s act hact
      cases hstep
      have hmem : ({ p.workers w with stack := act.items ++ rest } : DfsWorker β W).pc = .loop := hpc
      refine ⟨DfsPool.Ok.withShared (hp.setIdle hidle ?_ ?_ ?_ (DfsWorker.fits_loop hmem)) _ _, _,
        hs.setWorker { p.workers w with stack := act.items ++ rest } (a.active + act.count) a.frames rfl rfl
          ?_ ?_ Iff.rfl, .single ?_⟩
      · rw [hmem]
        rfl
      · rw [hmem]
        trivial
      · rw [hmem]
        simp
      · show p.active + act.count = _
        rw [hs.active, Nat.cast_add]
      · refine hs.frames.trans (.of_eq (DfsPool.frames_setIdle (p := p) hidle ?_).symm)
        rw [hmem]
        rfl
      · refine Pool.step_run true hw hgone ((hs.calls w).trans hstack) ?_
        rw [Pool.runTop, hs.shared, hact]
        rfl
  · rename_i f rest hstack
    cases hstep
    refine ⟨hp.setIdle hidle rfl trivial (by simp) ⟨trivial, rest, hstack⟩, a, ?_, .refl⟩
    refine hs.stay rfl rfl rfl (.of_eq ?_) rfl (hiff (by simp))
    exact DfsPool.frames_setIdle hidle rfl
  · rename_i rest hstack
    cases hstep
    have hmem : ({ p.workers w with stack := rest } : DfsWorker β W).pc = .loop := hpc
    have hcalls : a.calls w = .release :: rest := (hs.calls w).trans hstack
    have hpos := ha.active_pos hw (hcalls ▸ List.cons_ne_nil _ _)
    refine ⟨DfsPool.Ok.withShared (hp.setIdle hidle ?_ ?_ ?_ (DfsWorker.fits_loop hmem)) _ _, _,
      hs.setWorker { p.workers w with stack := rest } (a.active - 1) a.frames rfl hs.shared ?_ ?_ Iff.rfl, .single ?_⟩
    · rw [hmem]
      rfl
    · rw [hmem]
      trivial
    · rw [hmem]
      simp
    · show p.active - 1 = _
      rw [hs.active]
      omega
    · refine hs.frames.trans (.of_eq (DfsPool.frames_setIdle (p := p) hidle ?_).symm)
      rw [hmem]
      rfl
    · exact Pool.step_run true hw hgone hcalls rfl

theorem DfsPool.follows_own {pc : OwnerPc β} (hp : p.Ok nd) (hs : p.Sim nd a) (hw : w < nw) (hnd : nw ≤ nd)
    (hpc : (p.workers w).pc = .own pc) (hstep : (p.deques w).own luck pc = some (d', pc')) :
    ((p.setDeque w d').setWorker w ((p.workers w).afterOwn E pc')).Follows E nd nw a := by
  have howner : p.ownerOf w = pc := by
    rw [DfsPool.ownerOf, hpc]
    rfl
  obtain ⟨hgone, hiff⟩ := hs.present hpc (by simp)
  have hdeque := hp.deques w
  rw [howner] at hdeque
  have hdone := hdeque.own hstep
  have hheld := hdone.held
  have hkept := hdone.kept
  have hfits := hp.fits w
  rw [DfsWorker.Fits, hpc] at hfits
  obtain ⟨-, hstack⟩ := hfits
  have hwd : w < nd := hw.trans_le hnd
  -- the invariant and the frames, for the worker that it becomes
  have hok : ∀ me : DfsWorker β W, me.pc.owner = pc'.settle →
      (∀ v k tpc, me.pc ≠ .rob v k tpc) → me.Fits → ((p.setDeque w d').setWorker w me).Ok nd := by
    intro me hme hrob hfits
    refine hp.setOwn d' me (hme ▸ hdone.ok.settle) ?_ (fun v k tpc h => absurd h (hrob v k tpc)) hfits
    rw [howner, hme, OwnerPc.limit_settle]
    exact hkept
  have hframes : ∀ me : DfsWorker β W, me.pc.owner = pc'.settle →
      (((p.setDeque w d').setWorker w me).frames nd ++ pc'.out).Perm
        (p.frames nd ++ (pc.label (p.deques w)).pushes) := by
    intro me hme
    refine DfsPool.frames_setOwn hwd ?_
    rw [hme, howner]
    exact (List.perm_append_comm.trans (d'.held_settle pc').symm).trans hheld
  rcases WsDeque.own_cases hstep with ⟨hbusy, hframe, hpush⟩ | ⟨f, hframe, rfl, hpush⟩
      | ⟨f, hframe, rfl, hpush⟩ | ⟨out, hframe, rfl, hpush⟩
  · have hafter : (p.workers w).afterOwn E pc' = { p.workers w with pc := .own pc' } := by
      cases pc' <;> first | exact hbusy.elim | rfl
    have hsettle : pc'.settle = pc' := by
      cases pc' <;> first | exact hbusy.elim | rfl
    have hout : pc'.out = [] := by
      cases pc' <;> first | exact hbusy.elim | rfl
    have hmoved := hframes { p.workers w with pc := .own pc' } hsettle.symm
    rw [hout, hpush, List.append_nil, List.append_nil] at hmoved
    rw [hafter]
    refine ⟨hok _ hsettle.symm nofun ⟨hbusy, hframe ▸ hstack⟩, a, ?_, .refl⟩
    exact hs.stay rfl rfl rfl hmoved rfl (hiff nofun)
  · rw [hframe] at hstack
    obtain ⟨rest, hstack⟩ := hstack
    have hafter : (p.workers w).afterOwn E (.pushed true) = { p.workers w with pc := .loop, stack := rest } := by
      rw [DfsWorker.afterOwn, DfsWorker.pushReturns, hstack]
      rfl
    have hmoved := hframes { p.workers w with pc := .loop, stack := rest } rfl
    rw [hpush] at hmoved
    rw [hafter]
    refine ⟨hok _ rfl nofun (DfsWorker.fits_loop rfl), _,
      hs.setWorker _ a.active (f :: a.frames) rfl hs.shared hs.active ?_ (hiff nofun),
      .single (Pool.step_run true hw hgone ((hs.calls w).trans hstack) rfl)⟩
    refine (hs.frames.cons f).trans ?_
    exact (List.perm_append_singleton f _).symm.trans (hmoved.symm.trans (.of_eq (List.append_nil _)))
  · rw [hframe] at hstack
    obtain ⟨rest, hstack⟩ := hstack
    have hafter : (p.workers w).afterOwn E (.pushed false)
        = { p.workers w with pc := .loop, stack := .work (E.start f) :: rest } := by
      rw [DfsWorker.afterOwn, DfsWorker.pushReturns, hstack]
      rfl
    have hmoved := hframes { p.workers w with pc := .loop, stack := .work (E.start f) :: rest } rfl
    rw [hpush, List.append_nil] at hmoved
    rw [hafter]
    refine ⟨hok _ rfl nofun (DfsWorker.fits_loop rfl), _,
      hs.setWorker _ a.active a.frames rfl hs.shared hs.active ?_ (hiff nofun),
      .single (Pool.step_run false hw hgone ((hs.calls w).trans hstack) rfl)⟩
    exact hs.frames.trans (hmoved.symm.trans (.of_eq (List.append_nil _)))
  · rw [hframe] at hstack
    cases out with
    | none =>
        have hmoved := hframes { p.workers w with pc := .tries 0 } rfl
        rw [hpush, List.append_nil] at hmoved
        refine ⟨hok { p.workers w with pc := .tries 0 } rfl nofun hstack, a, ?_, .refl⟩
        exact hs.stay rfl rfl rfl (hmoved.symm.trans (.of_eq (List.append_nil _))).symm rfl (hiff nofun)
    | some f =>
        have hmoved := hframes { p.workers w with pc := .loop, stack := [.work (E.start f)] } rfl
        rw [hpush, List.append_nil] at hmoved
        obtain ⟨i, htake, hrest⟩ := Pool.step_take (E := E) hw hgone ((hs.calls w).trans hstack)
          (hs.frames.trans (hmoved.symm.trans (List.perm_append_singleton f _)))
        refine ⟨hok { p.workers w with pc := .loop, stack := [.work (E.start f)] } rfl nofun
          (DfsWorker.fits_loop rfl), _, hs.setWorker _ _ _ rfl hs.shared hs.active hrest (hiff nofun), .single htake⟩

theorem DfsPool.frames_setDeque (hv : v < nd) {d : WsDeque β} {outs : List (DfsFrame β)}
    (h : (d.held (p.ownerOf v) ++ outs).Perm ((p.deques v).held (p.ownerOf v))) :
    ((p.setDeque v d).frames nd ++ outs).Perm (p.frames nd) := by
  have hheld : (fun u => ((p.setDeque v d).deques u).held ((p.setDeque v d).ownerOf u))
      = Function.update (fun u => (p.deques u).held (p.ownerOf u)) v (d.held (p.ownerOf v)) := by
    funext u
    show (Function.update p.deques v d u).held (p.ownerOf u) = _
    by_cases hu : u = v
    · subst hu
      simp only [Function.update_self]
    · simp only [Function.update_of_ne hu]
  have hchange := blocks_change (fun u => (p.deques u).held (p.ownerOf u)) [] hv
    (h.trans (.of_eq (List.append_nil _).symm))
  rw [DfsPool.frames, hheld]
  exact hchange.trans (.of_eq (List.append_nil _))

theorem DfsPool.follows_rob {pc tpc : ThiefPc β} (hp : p.Ok nd) (hs : p.Sim nd a) (hw : w < nw)
    (hpc : (p.workers w).pc = .rob v k pc) (hstep : (p.deques v).steal pc = some (d', tpc)) :
    ((p.setDeque v d').setWorker w ((p.workers w).afterRob E v k tpc)).Follows E nd nw a := by
  have hidle : p.ownerOf w = .idle := by
    rw [DfsPool.ownerOf, hpc]
    rfl
  obtain ⟨hgone, hiff⟩ := hs.present hpc (by simp)
  obtain ⟨hvw, hvd⟩ := hp.robs w v k pc hpc
  have hfits := hp.fits w
  rw [DfsWorker.Fits, hpc] at hfits
  have hstack : (p.workers w).stack = [] := hfits.1
  have hdone := (hp.deques v).steal (hp.thieves w v k pc hpc) hstep
  have hset : (p.setDeque v d').Ok nd := hp.setDeque hdone.ok hdone.kept
  have hmoved := DfsPool.frames_setDeque hvd (List.perm_append_comm.trans hdone.held.symm)
  have hself : (p.setDeque v d').deques v = d' := Function.update_self ..
  -- the worker that it becomes is in no call of its own deque
  have hframes : ∀ me : DfsWorker β W, me.pc.owner = .idle →
      (((p.setDeque v d').setWorker w me).frames nd ++ tpc.out).Perm (p.frames nd) := by
    intro me hme
    rw [DfsPool.frames_setIdle (p := p.setDeque v d') hidle (by rw [hme])]
    exact hmoved
  have hok : ∀ me : DfsWorker β W, me.pc.owner = .idle → me.Fits →
      (∀ x j pc, me.pc = .rob x j pc → x = v ∧ pc = tpc) → ((p.setDeque v d').setWorker w me).Ok nd := by
    intro me hme hfits hrob
    refine hset.setIdle hidle (by rw [hme]; rfl) (by rw [hme]; trivial) (fun x j pc h => ?_) hfits
    obtain ⟨rfl, rfl⟩ := hrob x j pc h
    refine ⟨⟨hvw, hvd⟩, ?_⟩
    rw [hself]
    exact hdone.thief
  have hstays : ∀ {me : DfsWorker β W}, me.pc.owner = .idle → me.Fits →
      (∀ x j pc, me.pc = .rob x j pc → x = v ∧ pc = tpc) → tpc.out = [] → me.stack = (p.workers w).stack →
      me.pc ≠ .gone → ((p.setDeque v d').setWorker w me).Follows E nd nw a := by
    intro me hme hfits hrob hout hsame hne
    have hmoved := hframes me hme
    rw [hout] at hmoved
    refine ⟨hok me hme hfits hrob, a, ?_, .refl⟩
    exact hs.stay rfl rfl rfl ((List.Perm.of_eq (List.append_nil _).symm).trans hmoved) hsame (hiff hne)
  by_cases hresult : ∃ r, tpc = .result r
  · obtain ⟨r, rfl⟩ := hresult
    cases r with
    | ok f =>
        have hmoved := hframes { p.workers w with pc := .loop, stack := [.work (E.start f)] } rfl
        obtain ⟨i, htake, hrest⟩ := Pool.step_take (E := E) hw hgone ((hs.calls w).trans hstack)
          (hs.frames.trans (hmoved.symm.trans (List.perm_append_singleton f _)))
        refine ⟨hok { p.workers w with pc := .loop, stack := [.work (E.start f)] } rfl
          (DfsWorker.fits_loop rfl) nofun, _, hs.setWorker _ _ _ rfl hs.shared hs.active hrest (hiff nofun),
          .single htake⟩
    | empty => exact hstays rfl hstack nofun rfl rfl nofun
    | abort => exact hstays rfl hstack nofun rfl rfl nofun
  · have hafter : (p.workers w).afterRob E v k tpc = { p.workers w with pc := .rob v k tpc } := by
      cases tpc <;> first | exact absurd ⟨_, rfl⟩ hresult | rfl
    have hout : tpc.out = [] := by
      cases tpc <;> first | exact absurd ⟨_, rfl⟩ hresult | rfl
    rw [hafter]
    refine hstays rfl ⟨hstack, fun r h => hresult ⟨r, h⟩⟩ (fun x j pc h => ?_) hout rfl nofun
    cases h
    exact ⟨rfl, rfl⟩

theorem DfsPool.Sim.quit (h : p.Sim nd a)
    (hframes : (p.setWorker w { p.workers w with pc := .gone }).frames nd = p.frames nd) :
    (p.setWorker w { p.workers w with pc := .gone }).Sim nd { a with gone := Function.update a.gone w true } where
  shared := h.shared
  active := h.active
  frames := h.frames.trans (.of_eq hframes.symm)
  calls u := by
    refine (h.calls u).trans ?_
    show _ = (Function.update p.workers w { p.workers w with pc := .gone } u).stack
    by_cases hu : u = w
    · subst hu
      rw [Function.update_self]
    · rw [Function.update_of_ne hu]
  gone u := by
    show Function.update a.gone w true u = true ↔
      (Function.update p.workers w { p.workers w with pc := .gone } u).pc = .gone
    by_cases hu : u = w
    · subst hu
      rw [Function.update_self, Function.update_self]
      exact iff_of_true rfl rfl
    · rw [Function.update_of_ne hu, Function.update_of_ne hu]
      exact h.gone u

/-- **The simulation**: a step of a worker keeps the deques, and is a step of
`Par.Pool` or leaves the pool as it is there. -/
theorem DfsPool.sim_step (hp : p.Ok nd) (hs : p.Sim nd a) (ha : a.Good E I nw) (hw : w < nw) (hnd : nw ≤ nd)
    (hstep : p.step E nd w luck = some p') : p'.Follows E nd nw a := by
  have hidle : (∀ pc, (p.workers w).pc ≠ .own pc) → p.ownerOf w = .idle := by
    intro h
    rw [DfsPool.ownerOf]
    cases hpc : (p.workers w).pc <;> first | exact absurd hpc (h _) | rfl
  have hfits := hp.fits w
  rw [DfsWorker.Fits] at hfits
  rw [DfsPool.step] at hstep
  cases hpc : (p.workers w).pc with
  | loop =>
      rw [hpc] at hstep
      exact DfsPool.follows_loop hp hs ha hw hpc hstep
  | own pc =>
      rw [hpc] at hstep
      obtain ⟨⟨d, pc'⟩, hown, rfl⟩ := Option.map_eq_some_iff.mp hstep
      exact DfsPool.follows_own hp hs hw hnd hpc hown
  | tries k =>
      have hnone := hidle (by rw [hpc]; nofun)
      rw [hpc] at hstep hfits
      dsimp only at hstep
      split at hstep
      · rename_i hmore
        cases hstep
        split
        · exact ⟨hp.setIdle hnone rfl trivial nofun hfits, a,
            hs.stay rfl rfl rfl (.of_eq (DfsPool.frames_setIdle hnone rfl)) rfl (by rw [hpc]; simp), .refl⟩
        · rename_i hne
          refine ⟨hp.setIdle hnone rfl trivial (fun v k pc h => ?_) ⟨hfits, nofun⟩, a,
            hs.stay rfl rfl rfl (.of_eq (DfsPool.frames_setIdle hnone rfl)) rfl (by rw [hpc]; simp), .refl⟩
          cases h
          exact ⟨⟨hne, Nat.mod_lt _ (by omega)⟩, trivial⟩
      · cases hstep
        exact ⟨hp.setIdle hnone rfl trivial nofun hfits, a,
          hs.stay rfl rfl rfl (.of_eq (DfsPool.frames_setIdle hnone rfl)) rfl (by rw [hpc]; simp), .refl⟩
  | rob v k pc =>
      rw [hpc] at hstep
      obtain ⟨⟨d, tpc⟩, hsteal, rfl⟩ := Option.map_eq_some_iff.mp hstep
      exact DfsPool.follows_rob hp hs hw hpc hsteal
  | check =>
      have hnone := hidle (by rw [hpc]; nofun)
      rw [hpc] at hstep hfits
      dsimp only at hstep
      cases hstep
      split
      · rename_i hzero
        have hactive : a.active = 0 := by
          have := hs.active
          omega
        refine ⟨hp.setIdle hnone rfl trivial nofun hfits, _, ?_,
          .single (Pool.step_quit hw (hs.present hpc (by simp)).1 ((hs.calls w).trans hfits) hactive)⟩
        exact hs.quit (DfsPool.frames_setIdle hnone rfl)
      · exact ⟨hp.setIdle hnone rfl trivial nofun (DfsWorker.fits_loop rfl), a,
          hs.stay rfl rfl rfl (.of_eq (DfsPool.frames_setIdle hnone rfl)) rfl (by rw [hpc]; simp), .refl⟩
  | gone =>
      rw [hpc] at hstep
      cases hstep

/-! ## The start -/

theorem WsDeque.ok_ownRun (fuel : Nat) (h : d.Ok pc) :
    (d.ownRun luck fuel pc).1.Ok (d.ownRun luck fuel pc).2 := by
  induction fuel generalizing d pc with
  | zero => exact h
  | succ fuel ih =>
      rw [WsDeque.ownRun]
      cases hstep : d.own luck pc with
      | none => exact h
      | some r =>
          obtain ⟨d', pc'⟩ := r
          exact ih (h.own hstep).ok

/-- A push that nobody disturbs, and that succeeds. -/
theorem WsDeque.held_ownRun {f : DfsFrame β} (fuel : Nat) (h : d.Ok pc) (hf : pc.frame? = some f)
    (hend : (d.ownRun luck fuel pc).2 = .pushed true) :
    ((d.ownRun luck fuel pc).1.held .idle).Perm (d.held pc ++ [f]) := by
  induction fuel generalizing d pc with
  | zero =>
      obtain rfl : pc = .pushed true := hend
      cases hf
  | succ fuel ih =>
      rw [WsDeque.ownRun] at hend ⊢
      cases hstep : d.own luck pc with
      | none =>
          rw [hstep] at hend
          obtain rfl : pc = .pushed true := hend
          cases hf
      | some r =>
          obtain ⟨d', pc'⟩ := r
          rw [hstep] at hend
          have hheld := (h.own hstep).held
          rcases WsDeque.own_cases hstep with ⟨-, hframe, hpush⟩ | ⟨g, hframe, rfl, hpush⟩
              | ⟨g, hframe, rfl, hpush⟩ | ⟨out, hframe, rfl, hpush⟩
          · rw [hpush, List.append_nil] at hheld
            exact (ih (h.own hstep).ok (hframe.trans hf) hend).trans (hheld.append_right _)
          · obtain rfl : g = f := Option.some.inj (hframe.symm.trans hf)
            rw [hpush] at hheld
            cases fuel <;> exact hheld
          · cases fuel <;> cases hend
          · rw [hframe] at hf
            cases hf

theorem seeded_spec (buf : Nat → Nat → DfsFrame β) (root : DfsFrame β) (v : Nat) :
    (seeded buf root v).Ok .idle ∧ (seeded buf root v).held .idle = if v = 0 then [root] else [] := by
  have hinit := WsDeque.ok_init 256 (buf v)
  by_cases hv : v = 0
  · have hcall : (WsDeque.init 256 (buf v)).Ok (.pushBottom root) :=
      ⟨hinit.top_nonneg, hinit.top_le, hinit.fits, trivial⟩
    rw [if_pos hv, seeded, if_pos hv]
    exact ⟨(WsDeque.ok_ownRun 7 hcall).settle, List.perm_singleton.mp (WsDeque.held_ownRun 7 hcall rfl rfl)⟩
  · rw [if_neg hv, seeded, if_neg hv]
    exact ⟨hinit, rfl⟩

theorem DfsPool.ok_start (buf : Nat → Nat → DfsFrame β) (s : S) (root : DfsFrame β) :
    (DfsPool.start buf s root : DfsPool S β W).Ok nd where
  deques v := (seeded_spec buf root v).1
  thieves _ _ _ _ h := absurd h nofun
  robs _ _ _ _ h := absurd h nofun
  fits _ := DfsWorker.fits_loop rfl

theorem blocks_first {α : Type} {x : α} (hnd : 0 < nd) :
    blocks nd (fun v => if v = 0 then [x] else []) = [x] := by
  obtain ⟨m, rfl⟩ := Nat.exists_eq_succ_of_ne_zero hnd.ne'
  have hrest : (List.range' 1 m).flatMap (fun v => if v = 0 then [x] else []) = [] := by
    rw [List.flatMap_eq_nil_iff]
    intro v hv
    have := (List.mem_range'_1.mp hv).1
    exact if_neg (by omega)
  rw [Montauk.Sort.blocks, List.range_eq_range', List.range'_succ, List.flatMap_cons, hrest]
  rfl

theorem DfsPool.sim_start (buf : Nat → Nat → DfsFrame β) (s : S) (root : DfsFrame β) (hnd : 0 < nd) :
    (DfsPool.start buf s root : DfsPool S β W).Sim nd (Pool.init s root) where
  shared := rfl
  active := rfl
  calls _ := rfl
  gone _ := iff_of_false nofun nofun
  frames := by
    have hheld : (fun v => ((DfsPool.start buf s root : DfsPool S β W).deques v).held
        ((DfsPool.start buf s root : DfsPool S β W).ownerOf v)) = fun v => if v = 0 then [root] else [] :=
      funext fun v => (seeded_spec buf root v).2
    rw [DfsPool.frames, hheld, blocks_first hnd]
    exact .refl _

/-! ## Runs of the pool -/

/-- The work that is pending: the frames in the deques and the calls that have
not returned. -/
def DfsPool.pending (E : Engine S (DfsFrame β) W) (nd nw : Nat) (p : DfsPool S β W) : List W :=
  (p.frames nd).map E.start ++ (blocks nw fun w => (p.workers w).stack).flatMap (Item.pending E)

theorem DfsPool.pending_nil (h : p.frames nd = [] ∧ ∀ w < nw, (p.workers w).stack = []) :
    p.pending E nd nw = [] := by
  have hblocks : (blocks nw fun w => (p.workers w).stack) = [] := by
    rw [Montauk.Sort.blocks, List.flatMap_eq_nil_iff]
    exact fun w hw => h.2 w (List.mem_range.mp hw)
  rw [DfsPool.pending, h.1, hblocks]
  rfl

/-- **The run lemma**: whatever is reached is one of `Par.Pool`'s. -/
theorem DfsPool.sim_run (hE : E.Keeps I) (hnd : nw ≤ nd) {moves : List (Fin nw × Luck β)} (hp : p.Ok nd)
    (hs : p.Sim nd a) (ha : a.Good E I nw)
    (hrun : run (fun p (m : Fin nw × Luck β) => DfsPool.step E nd p m.1 m.2) p moves = some p') :
    p'.Ok nd ∧ ∃ b, p'.Sim nd b ∧ b.Good E I nw := by
  refine run_invariant (I := fun p => p.Ok nd ∧ ∃ b, p.Sim nd b ∧ b.Good E I nw) ?_ hrun ⟨hp, a, hs, ha⟩
  rintro q m q' ⟨hq, b, hsim, hgood⟩ hstep
  obtain ⟨hq', c, hsim', hreach⟩ := DfsPool.sim_step hq hsim hgood m.1.isLt hnd hstep
  exact ⟨hq', c, hsim', hgood.reach hE hreach⟩

theorem DfsPool.step_isSome (hE : E.Keeps I) (hp : p.Ok nd) (hs : p.Sim nd a) (ha : a.Good E I nw) (hw : w < nw)
    (hpc : (p.workers w).pc ≠ .gone) (luck : Luck β) : (p.step E nd w luck).isSome := by
  have hfits := hp.fits w
  rw [DfsWorker.Fits] at hfits
  rw [DfsPool.step]
  cases hcase : (p.workers w).pc with
  | loop =>
      show (p.loop E w).isSome
      rw [DfsPool.loop]
      cases hstack : (p.workers w).stack with
      | nil => rfl
      | cons item rest =>
          cases item with
          | work x =>
              have hI := (ha.front hE hw).1
              rw [hs.calls w, hstack, hs.shared] at hI
              obtain ⟨s', act, hstep, -⟩ := hE.step hI
              simp only [hstep]
              rfl
          | pushing f => rfl
          | release => rfl
  | own pc =>
      rw [hcase] at hfits
      show (Option.map _ _).isSome
      rw [Option.isSome_map]
      exact WsDeque.own_isSome hfits.1
  | tries k =>
      dsimp only
      split <;> rfl
  | rob v k pc =>
      rw [hcase] at hfits
      show (Option.map _ _).isSome
      rw [Option.isSome_map]
      exact WsDeque.steal_isSome hfits.2
  | check => rfl
  | gone => exact absurd hcase hpc

/-- **The pool is safe.** In every state that workers and thieves can reach, in
any order of their atomic operations and with any allocation failing, what a
frame function keeps holds of the work that is pending; no worker has left while
a frame is in a deque or a call has not returned; and every worker that has not
left can go on. -/
theorem dfsPool_safe (hE : E.Keeps I) {s : S} {root : DfsFrame β} (hroot : I s [E.start root]) (hnw : 0 < nw)
    (hnd : nw ≤ nd) {buf : Nat → Nat → DfsFrame β} {moves : List (Fin nw × Luck β)}
    (hrun : run (fun p (m : Fin nw × Luck β) => DfsPool.step E nd p m.1 m.2) (DfsPool.start buf s root) moves
      = some p) :
    I p.shared (p.pending E nd nw) ∧
      (∀ w < nw, (p.workers w).pc = .gone → p.frames nd = [] ∧ ∀ u < nw, (p.workers u).stack = []) ∧
      ∀ w < nw, (p.workers w).pc ≠ .gone → ∀ luck, (p.step E nd w luck).isSome := by
  obtain ⟨hp, a, hs, ha⟩ := DfsPool.sim_run hE hnd (DfsPool.ok_start buf s root)
    (DfsPool.sim_start buf s root (hnw.trans_le hnd)) (Pool.Good.init hroot) hrun
  have hcalls : a.calls = fun w => (p.workers w).stack := funext hs.calls
  refine ⟨?_, fun w hw hgone => ?_, fun w hw hpc luck => DfsPool.step_isSome hE hp hs ha hw hpc luck⟩
  · have hkeeps := ha.keeps
    rw [hs.shared, Pool.pending, hcalls] at hkeeps
    exact hE.perm ((hs.frames.map _).append_right _) hkeeps
  · have hzero := ha.gone w ((hs.gone w).mpr hgone)
    have hactive := ha.active
    have hnone : a.frames = [] := List.eq_nil_of_length_eq_zero (by omega)
    refine ⟨List.perm_nil.mp (hnone ▸ hs.frames.symm), fun u hu => ?_⟩
    by_contra hne
    have := ha.active_pos hu ((hs.calls u).trans_ne hne)
    omega

end

end Montauk.Par
