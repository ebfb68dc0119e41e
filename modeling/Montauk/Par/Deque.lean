import Mathlib.Algebra.Order.Ring.Int
import Mathlib.Data.Nat.ModEq
import Montauk.Machine.Run

/-!
# The work-stealing deque

The Chase-Lev deque of `wsdeque.c`, one atomic operation at a time: the owner
pushes and takes at `bottom`, any number of thieves steal at `top`, and their
steps come in every order (sequentially consistent). A frame goes in and out
of its slot field by field, so a thief can read a torn one; a ring that is full
is copied into one of twice the size, and a thief may still be reading the old
one, which is kept. Every allocation may fail.

What the deque holds is not what lies between `top` and `bottom`: while the
owner takes, `bottom` is one too low for the last frame, until the owner has
seen `top` or won it. `OwnerPc.limit` is where the deque ends for the program,
and `duel_linear` says that with it the deque is a sequential one, each
operation at one of its steps.

`top` and `bottom` are integers without a bound: 2^63 pushes are out of reach.
-/

namespace Montauk.Par

open Machine

/-! ## Rings -/

/-- `sub_dfs_frame_t`: `β` is what the pointer points to. -/
structure DfsFrame (β : Type) where
  base : β
  n : Nat
  depth : UInt32
deriving DecidableEq

/-- `sub_wsarray_t`: a ring of `2 ^ log` slots. -/
structure WsArray (β : Type) where
  log : Nat
  buf : Nat → DfsFrame β

section
variable {β : Type}

def WsArray.cap (a : WsArray β) : Nat := 2 ^ a.log

def WsArray.mask (a : WsArray β) : Nat := a.cap - 1

/-- `i & a->mask`. -/
def WsArray.slot (a : WsArray β) (i : Int) : Nat := i.toNat &&& a.mask

def WsArray.get (a : WsArray β) (i : Int) : DfsFrame β := a.buf (a.slot i)

/-- A store into slot `i`. -/
def WsArray.modify (a : WsArray β) (i : Int) (g : DfsFrame β → DfsFrame β) : WsArray β :=
  { a with buf := Function.update a.buf (a.slot i) (g (a.get i)) }

theorem WsArray.cap_pos (a : WsArray β) : 0 < a.cap := Nat.two_pow_pos _

theorem WsArray.slot_eq (a : WsArray β) (i : Int) : a.slot i = i.toNat % a.cap :=
  Nat.and_two_pow_sub_one_eq_mod _ _

theorem WsArray.slot_lt (a : WsArray β) (i : Int) : a.slot i < a.cap := by
  rw [slot_eq]
  exact Nat.mod_lt _ a.cap_pos

theorem WsArray.slot_ne (a : WsArray β) {i j : Int} (hi : 0 ≤ i) (hij : i < j)
    (hcap : j - i < a.cap) : a.slot i ≠ a.slot j := by
  rw [slot_eq, slot_eq]
  intro h
  have hdvd : a.cap ∣ j.toNat - i.toNat := (Nat.modEq_iff_dvd' (by omega)).mp h
  have := Nat.le_of_dvd (by omega) hdvd
  omega

@[simp] theorem WsArray.get_modify_self (a : WsArray β) (i : Int) (g : DfsFrame β → DfsFrame β) :
    (a.modify i g).get i = g (a.get i) :=
  Function.update_self ..

theorem WsArray.get_modify_of_lt (a : WsArray β) {i j : Int} (g : DfsFrame β → DfsFrame β)
    (hi : 0 ≤ i) (hij : i < j) (hcap : j - i < a.cap) : (a.modify j g).get i = a.get i :=
  Function.update_of_ne (a.slot_ne hi hij hcap) ..

end

/-! ## The deque -/

/-- `sub_wsdeque_t`. A ring is named by how many came before it; those before
`array` are retired, and none is freed while the deque is in use. -/
structure WsDeque (β : Type) where
  top : Int
  bottom : Int
  array : Nat
  rings : Nat → WsArray β

def WsDeque.ring {β : Type} (d : WsDeque β) : WsArray β := d.rings d.array

/-- What the machine decides in a step of the owner: whether there is memory
for a ring, and what is in it, and for the list of retired ones. -/
structure Luck (β : Type) where
  arrayNew : Option (Nat → DfsFrame β)
  retire : Bool

/-- Where the owner is in `sub_wsdeque_push` or `sub_wsdeque_take`, with what it
has loaded: in front of the operation that the name says. -/
inductive OwnerPc (β : Type) where
  | idle
  | pushBottom (f : DfsFrame β)
  | pushTop (f : DfsFrame β) (b : Int)
  | pushArray (f : DfsFrame β) (b t : Int)
  | arrayNew (f : DfsFrame β) (b t : Int) (a : Nat)
  | copy (f : DfsFrame β) (b : Int) (a : Nat) (i : Int) (na : WsArray β)
  | publish (f : DfsFrame β) (b : Int) (na : WsArray β)
  | storeBase (f : DfsFrame β) (b : Int) (a : Nat)
  | storeN (f : DfsFrame β) (b : Int) (a : Nat)
  | storeDepth (f : DfsFrame β) (b : Int) (a : Nat)
  | storeBottom (f : DfsFrame β) (b : Int)
  | pushed (ok : Bool)
  | takeBottom
  | takeArray (b : Int)
  | takeStore (b : Int) (a : Nat)
  | takeTop (b : Int) (a : Nat)
  | loadBase (b : Int) (a : Nat) (t : Int)
  | loadN (b : Int) (a : Nat) (t : Int) (base : β)
  | loadDepth (b : Int) (a : Nat) (t : Int) (base : β) (n : Nat)
  | takeCas (b : Int) (t : Int) (f : DfsFrame β)
  | restore (b : Int) (out : Option (DfsFrame β))
  | took (out : Option (DfsFrame β))

/-- `sub_steal_t`, with the frame. -/
inductive Steal (β : Type) where
  | ok (f : DfsFrame β)
  | empty
  | abort

/-- Where a thief is in `sub_wsdeque_steal`. -/
inductive ThiefPc (β : Type) where
  | loadTop
  | loadBottom (t : Int)
  | loadArray (t : Int)
  | loadBase (t : Int) (a : Nat)
  | loadN (t : Int) (a : Nat) (base : β)
  | loadDepth (t : Int) (a : Nat) (base : β) (n : Nat)
  | cas (t : Int) (f : DfsFrame β)
  | result (r : Steal β)

section
variable {β : Type}

/-- A store of the owner into slot `i` of ring `a`. -/
def WsDeque.store (d : WsDeque β) (a : Nat) (i : Int) (g : DfsFrame β → DfsFrame β) : WsDeque β :=
  { d with rings := Function.update d.rings a ((d.rings a).modify i g) }

def WsDeque.own (d : WsDeque β) (luck : Luck β) : OwnerPc β → Option (WsDeque β × OwnerPc β)
  | .idle => none
  | .pushBottom f => some (d, .pushTop f d.bottom)
  | .pushTop f b => some (d, .pushArray f b d.top)
  | .pushArray f b t =>
      if b - t > (d.ring.cap : Int) - 1 then some (d, .arrayNew f b t d.array)
      else some (d, .storeBase f b d.array)
  | .arrayNew f b t a =>
      match luck.arrayNew with
      | none => some (d, .pushed false)
      | some buf => some (d, .copy f b a t ⟨(d.rings a).log + 1, buf⟩)
  -- nobody else writes a ring, and nobody sees the new one yet
  | .copy f b a i na =>
      if i < b then some (d, .copy f b a (i + 1) (na.modify i fun _ => (d.rings a).get i))
      else if luck.retire then some (d, .publish f b na)
      else some (d, .pushed false)
  | .publish f b na =>
      some ({ d with array := d.array + 1, rings := Function.update d.rings (d.array + 1) na },
        .storeBase f b (d.array + 1))
  | .storeBase f b a => some (d.store a b fun s => { s with base := f.base }, .storeN f b a)
  | .storeN f b a => some (d.store a b fun s => { s with n := f.n }, .storeDepth f b a)
  | .storeDepth f b a => some (d.store a b fun s => { s with depth := f.depth }, .storeBottom f b)
  | .storeBottom _ b => some ({ d with bottom := b + 1 }, .pushed true)
  | .pushed _ => none
  | .takeBottom => some (d, .takeArray (d.bottom - 1))
  | .takeArray b => some (d, .takeStore b d.array)
  | .takeStore b a => some ({ d with bottom := b }, .takeTop b a)
  | .takeTop b a =>
      if d.top ≤ b then some (d, .loadBase b a d.top) else some (d, .restore b none)
  | .loadBase b a t => some (d, .loadN b a t ((d.rings a).get b).base)
  | .loadN b a t base => some (d, .loadDepth b a t base ((d.rings a).get b).n)
  | .loadDepth b a t base n =>
      let f := ⟨base, n, ((d.rings a).get b).depth⟩
      if t = b then some (d, .takeCas b t f) else some (d, .took (some f))
  | .takeCas b t f =>
      if d.top = t then some ({ d with top := t + 1 }, .restore b (some f))
      else some (d, .restore b none)
  | .restore b out => some ({ d with bottom := b + 1 }, .took out)
  | .took _ => none

def WsDeque.steal (d : WsDeque β) : ThiefPc β → Option (WsDeque β × ThiefPc β)
  | .loadTop => some (d, .loadBottom d.top)
  | .loadBottom t =>
      if t < d.bottom then some (d, .loadArray t) else some (d, .result .empty)
  | .loadArray t => some (d, .loadBase t d.array)
  | .loadBase t a => some (d, .loadN t a ((d.rings a).get t).base)
  | .loadN t a base => some (d, .loadDepth t a base ((d.rings a).get t).n)
  | .loadDepth t a base n => some (d, .cas t ⟨base, n, ((d.rings a).get t).depth⟩)
  | .cas t f =>
      if d.top = t then some ({ d with top := t + 1 }, .result (.ok f))
      else some (d, .result .abort)
  | .result _ => none

/-! ## What the deque holds -/

/-- Where the deque ends. A take of frame `b` has lowered `bottom` to `b`, but
the frame is there until the owner has seen that `top` is below it, or has won
it. -/
def OwnerPc.limit (bottom : Int) : OwnerPc β → Int
  | .takeTop b _ | .takeCas b _ _ | .restore b _ => b + 1
  | .loadBase b _ t | .loadN b _ t _ | .loadDepth b _ t _ _ => if t = b then b + 1 else b
  | _ => bottom

/-- The frame that the owner has taken out and not returned yet. -/
def OwnerPc.hand (d : WsDeque β) : OwnerPc β → Option (DfsFrame β)
  | .loadBase b _ t | .loadN b _ t _ | .loadDepth b _ t _ _ =>
      if t = b then none else some (d.ring.get b)
  | .restore _ out | .took out => out
  | _ => none

/-- The values of `g` from `lo` up to `hi`. -/
def between {α : Type} (g : Int → α) (lo hi : Int) : List α :=
  (List.range (hi - lo).toNat).map fun k : Nat => g (lo + k)

/-- The frames in the deque, the oldest first. -/
def WsDeque.frames (d : WsDeque β) (pc : OwnerPc β) : List (DfsFrame β) :=
  between d.ring.get d.top (pc.limit d.bottom)

theorem between_nil {α : Type} {g : Int → α} {lo hi : Int} (h : hi ≤ lo) : between g lo hi = [] := by
  rw [between, Int.toNat_of_nonpos (by omega)]
  rfl

theorem between_snoc {α : Type} {g : Int → α} {lo hi : Int} (h : lo ≤ hi) :
    between g lo (hi + 1) = between g lo hi ++ [g hi] := by
  have hsucc : (hi + 1 - lo).toNat = (hi - lo).toNat + 1 := by omega
  have hlast : lo + ((hi - lo).toNat : Int) = hi := by omega
  rw [between, hsucc, List.range_succ, List.map_append, List.map_singleton, hlast]
  rfl

theorem between_cons {α : Type} {g : Int → α} {lo hi : Int} (h : lo < hi) :
    between g lo hi = g lo :: between g (lo + 1) hi := by
  have hsucc : (hi - lo).toNat = (hi - (lo + 1)).toNat + 1 := by omega
  rw [between, hsucc, List.range_succ_eq_map, List.map_cons, List.map_map]
  congr 1
  · simp
  · refine List.map_congr_left fun k _ => congrArg g ?_
    rw [Nat.succ_eq_add_one, Nat.cast_add, Nat.cast_one]
    omega

theorem between_congr {α : Type} {g g' : Int → α} {lo hi : Int}
    (h : ∀ i, lo ≤ i → i < hi → g i = g' i) : between g lo hi = between g' lo hi := by
  refine List.map_congr_left fun k hk => h _ (by omega) ?_
  rw [List.mem_range] at hk
  omega

/-! ## The invariant -/

/-- What the owner knows of the deque. Thieves only raise `top`, and everything
here stays true of a higher one. -/
def OwnerPc.At (d : WsDeque β) : OwnerPc β → Prop
  | .idle | .pushBottom _ | .pushed _ | .takeBottom | .took _ => True
  | .pushTop _ b => b = d.bottom
  | .pushArray _ b t => b = d.bottom ∧ t ≤ d.top
  | .arrayNew _ b t a => b = d.bottom ∧ a = d.array ∧ t ≤ d.top
  | .copy _ b a i na =>
      b = d.bottom ∧ a = d.array ∧ na.cap = 2 * d.ring.cap ∧ i ≤ b
        ∧ ∀ j, d.top ≤ j → j < i → na.get j = d.ring.get j
  | .publish _ b na =>
      b = d.bottom ∧ na.cap = 2 * d.ring.cap ∧ ∀ j, d.top ≤ j → j < b → na.get j = d.ring.get j
  | .storeBase _ b a => b = d.bottom ∧ a = d.array ∧ b - d.top < d.ring.cap
  | .storeN f b a =>
      b = d.bottom ∧ a = d.array ∧ b - d.top < d.ring.cap ∧ (d.ring.get b).base = f.base
  | .storeDepth f b a =>
      b = d.bottom ∧ a = d.array ∧ b - d.top < d.ring.cap ∧ (d.ring.get b).base = f.base
        ∧ (d.ring.get b).n = f.n
  | .storeBottom f b => b = d.bottom ∧ b - d.top < d.ring.cap ∧ d.ring.get b = f
  | .takeArray b => b + 1 = d.bottom
  | .takeStore b a => b + 1 = d.bottom ∧ a = d.array
  | .takeTop b a => b = d.bottom ∧ a = d.array
  | .loadBase b a t => b = d.bottom ∧ a = d.array ∧ t ≤ b ∧ t ≤ d.top
  | .loadN b a t base =>
      b = d.bottom ∧ a = d.array ∧ t ≤ b ∧ t ≤ d.top ∧ base = (d.ring.get b).base
  | .loadDepth b a t base n =>
      b = d.bottom ∧ a = d.array ∧ t ≤ b ∧ t ≤ d.top ∧ base = (d.ring.get b).base
        ∧ n = (d.ring.get b).n
  | .takeCas b t f => b = d.bottom ∧ t = b ∧ t ≤ d.top ∧ f = d.ring.get b
  | .restore b _ => b = d.bottom ∧ b + 1 = d.top

/-- The deque with its owner at `pc`: what it holds fits into the ring. -/
structure WsDeque.Ok (d : WsDeque β) (pc : OwnerPc β) : Prop where
  top_nonneg : 0 ≤ d.top
  top_le : d.top ≤ pc.limit d.bottom
  fits : pc.limit d.bottom - d.top ≤ d.ring.cap
  at_pc : pc.At d

/-- What a thief that has loaded `t` from `top` knows, as long as `top` is what
it was: its frame is in the deque, and `P`. When `top` has moved on, its
exchange fails, and what it has read does not matter. -/
def Current (d : WsDeque β) (limit t : Int) (P : Prop) : Prop :=
  t ≤ d.top ∧ (t = d.top → t < limit ∧ P)

/-- What a thief knows of a deque that ends at `limit`. -/
def ThiefPc.At (d : WsDeque β) (limit : Int) : ThiefPc β → Prop
  | .loadTop | .result _ => True
  | .loadBottom t => t ≤ d.top
  | .loadArray t => Current d limit t True
  | .loadBase t a => a ≤ d.array ∧ Current d limit t ((d.rings a).get t = d.ring.get t)
  | .loadN t a base =>
      a ≤ d.array ∧ Current d limit t
        ((d.rings a).get t = d.ring.get t ∧ base = (d.ring.get t).base)
  | .loadDepth t a base n =>
      a ≤ d.array ∧ Current d limit t
        ((d.rings a).get t = d.ring.get t ∧ base = (d.ring.get t).base ∧ n = (d.ring.get t).n)
  | .cas t f => Current d limit t (f = d.ring.get t)

/-- What a step of another thread leaves to a thief: `top` only rises, and the
frame at `top` stays where it is, in every ring it is in. -/
structure Kept (d : WsDeque β) (limit : Int) (d' : WsDeque β) (limit' : Int) : Prop where
  top : d.top ≤ d'.top
  array : d.array ≤ d'.array
  live : d'.top = d.top → d.top < limit → d.top < limit'
  get : d'.top = d.top → d.top < limit →
    ∀ a, a ≤ d.array → (d'.rings a).get d.top = (d.rings a).get d.top
  ring : d'.top = d.top → d.top < limit → d'.ring.get d.top = d.ring.get d.top

/-! ## The step lemmas -/

variable {d d' : WsDeque β} {pc pc' : OwnerPc β} {luck : Luck β} {limit limit' : Int}

theorem Current.kept {t : Int} {P Q : Prop} (h : Current d limit t P) (hkept : Kept d limit d' limit')
    (hP : d'.top = d.top → t = d.top → d.top < limit → P → Q) : Current d' limit' t Q := by
  refine ⟨h.1.trans hkept.top, fun ht => ?_⟩
  have htop : d'.top = d.top := le_antisymm (ht ▸ h.1) hkept.top
  obtain ⟨hlt, hp⟩ := h.2 (ht.trans htop)
  have hlt' : d.top < limit := by omega
  have := hkept.live htop hlt'
  exact ⟨by omega, hP htop (by omega) hlt' hp⟩

theorem ThiefPc.At.kept {pc : ThiefPc β} (h : pc.At d limit) (hkept : Kept d limit d' limit') :
    pc.At d' limit' := by
  cases pc with
  | loadTop => trivial
  | loadBottom t => exact h.trans hkept.top
  | loadArray t => exact Current.kept h hkept fun _ _ _ _ => trivial
  | loadBase t a =>
      refine ⟨h.1.trans hkept.array, h.2.kept hkept ?_⟩
      rintro htop rfl hlt hget
      rw [hkept.get htop hlt a h.1, hkept.ring htop hlt, hget]
  | loadN t a base =>
      refine ⟨h.1.trans hkept.array, h.2.kept hkept ?_⟩
      rintro htop rfl hlt ⟨hget, hbase⟩
      rw [hkept.get htop hlt a h.1, hkept.ring htop hlt]
      exact ⟨hget, hbase⟩
  | loadDepth t a base n =>
      refine ⟨h.1.trans hkept.array, h.2.kept hkept ?_⟩
      rintro htop rfl hlt ⟨hget, hbase, hn⟩
      rw [hkept.get htop hlt a h.1, hkept.ring htop hlt]
      exact ⟨hget, hbase, hn⟩
  | cas t f =>
      refine Current.kept h hkept ?_
      rintro htop rfl hlt hf
      rw [hkept.ring htop hlt]
      exact hf
  | result r => trivial

theorem Kept.refl (hle : limit ≤ limit') : Kept d limit d limit' where
  top := le_refl _
  array := le_refl _
  live _ h := h.trans_le hle
  get _ _ _ _ := rfl
  ring _ _ := rfl

theorem Kept.bottom {b : Int} (hle : limit ≤ limit') : Kept d limit { d with bottom := b } limit' where
  top := le_refl _
  array := le_refl _
  live _ h := h.trans_le hle
  get _ _ _ _ := rfl
  ring _ _ := rfl

theorem Kept.won : Kept d limit { d with top := d.top + 1 } limit' where
  top := Int.le_add_one (le_refl _)
  array := le_refl _
  live h := absurd h (by show d.top + 1 ≠ d.top; omega)
  get h := absurd h (by show d.top + 1 ≠ d.top; omega)
  ring h := absurd h (by show d.top + 1 ≠ d.top; omega)

theorem WsDeque.ring_store (d : WsDeque β) (b : Int) (g : DfsFrame β → DfsFrame β) :
    (d.store d.array b g).ring = d.ring.modify b g :=
  Function.update_self ..

theorem Kept.store {b : Int} (g : DfsFrame β → DfsFrame β) (htop : 0 ≤ d.top)
    (hcap : b - d.top < d.ring.cap) (hb : d.bottom = b) : Kept d d.bottom (d.store d.array b g) d.bottom := by
  have hget : d.top < d.bottom → (d.ring.modify b g).get d.top = d.ring.get d.top := fun hlt =>
    d.ring.get_modify_of_lt g htop (hb ▸ hlt) hcap
  refine ⟨le_refl _, le_refl _, fun _ h => h, fun _ hlt a _ => ?_, fun _ hlt => ?_⟩
  · by_cases ha : a = d.array
    · subst ha
      show (Function.update d.rings d.array (d.ring.modify b g) d.array).get d.top = _
      rw [Function.update_self]
      exact hget hlt
    · show (Function.update d.rings d.array (d.ring.modify b g) a).get d.top = _
      rw [Function.update_of_ne ha]
  · rw [d.ring_store]
    exact hget hlt

theorem WsDeque.between_store {b : Int} (g : DfsFrame β → DfsFrame β) (htop : 0 ≤ d.top)
    (hcap : b - d.top < d.ring.cap) :
    between (d.store d.array b g).ring.get d.top b = between d.ring.get d.top b := by
  refine between_congr fun i hi hib => ?_
  rw [d.ring_store]
  exact d.ring.get_modify_of_lt g (htop.trans hi) hib (by omega)

/-! ## What a step does to the deque -/

/-- What happens to the sequential deque at a step. -/
inductive Label (β : Type) where
  | none
  | push (f : DfsFrame β)
  | take (f : DfsFrame β)
  | takeNothing
  | steal (f : DfsFrame β)

/-- **The sequential deque**: its owner pushes and takes at the end, and finds
nothing only when it is empty; thieves steal at the front. -/
inductive Label.Does : Label β → List (DfsFrame β) → List (DfsFrame β) → Prop
  | none {q} : Label.none.Does q q
  | push {f q} : (Label.push f).Does q (q ++ [f])
  | take {f q} : (Label.take f).Does (q ++ [f]) q
  | takeNothing : Label.takeNothing.Does [] []
  | steal {f q} : (Label.steal f).Does (f :: q) q

/-- What a step of the owner is on the sequential deque: the store of `bottom`
publishes, and a take is decided where `top` is read, or by the exchange when
one frame was left. -/
def OwnerPc.label (d : WsDeque β) : OwnerPc β → Label β
  | .storeBottom f _ => .push f
  | .takeTop b _ =>
      if d.top < b then .take (d.ring.get b) else if d.top = b then .none else .takeNothing
  | .takeCas _ t f => if d.top = t then .take f else .takeNothing
  | _ => .none

def ThiefPc.label (d : WsDeque β) : ThiefPc β → Label β
  | .cas t f => if d.top = t then .steal f else .none
  | _ => .none

def Label.taken : Label β → List (DfsFrame β)
  | .take f => [f]
  | _ => []

def Label.stolen : Label β → List (DfsFrame β)
  | .steal f => [f]
  | _ => []

/-- What the owner's call returns with a frame. -/
def OwnerPc.out : OwnerPc β → List (DfsFrame β)
  | .took (some f) => [f]
  | _ => []

def Steal.out : Steal β → List (DfsFrame β)
  | .ok f => [f]
  | _ => []

/-- What a thief's call returns with a frame. -/
def ThiefPc.out : ThiefPc β → List (DfsFrame β)
  | .result r => r.out
  | _ => []

/-- What a step of the owner keeps and does. -/
structure WsDeque.Stepped (d : WsDeque β) (pc : OwnerPc β) (d' : WsDeque β) (pc' : OwnerPc β) :
    Prop where
  ok : d'.Ok pc'
  kept : Kept d (pc.limit d.bottom) d' (pc'.limit d'.bottom)
  does : (pc.label d).Does (d.frames pc) (d'.frames pc')
  hand : (pc'.hand d').toList = (pc.hand d).toList ++ (pc.label d).taken

theorem WsDeque.Ok.load (h : d.Ok pc) (hlimit : pc'.limit d.bottom = pc.limit d.bottom)
    (hat : pc'.At d) (hlabel : pc.label d = .none) (hhand : pc'.hand d = pc.hand d) :
    d.Stepped pc d pc' where
  ok := ⟨h.top_nonneg, hlimit ▸ h.top_le, hlimit ▸ h.fits, hat⟩
  kept := .refl hlimit.ge
  does := by
    rw [hlabel, frames, frames, hlimit]
    exact .none
  hand := by
    rw [hlabel, hhand]
    exact (List.append_nil _).symm

theorem WsDeque.Ok.stored {b : Int} (h : d.Ok pc) (g : DfsFrame β → DfsFrame β)
    (hb : b = d.bottom) (hcap : b - d.top < d.ring.cap) (hlimit : pc.limit d.bottom = d.bottom)
    (hlimit' : pc'.limit d.bottom = d.bottom) (hat : pc'.At (d.store d.array b g))
    (hlabel : pc.label d = .none) (hhand : pc.hand d = none)
    (hhand' : pc'.hand (d.store d.array b g) = none) : d.Stepped pc (d.store d.array b g) pc' := by
  have hcap' : (d.store d.array b g).ring.cap = d.ring.cap := by
    rw [d.ring_store]
    rfl
  refine ⟨⟨h.top_nonneg, ?_, ?_, hat⟩, ?_, ?_, ?_⟩
  · show d.top ≤ pc'.limit d.bottom
    rw [hlimit', ← hlimit]
    exact h.top_le
  · rw [hcap']
    show pc'.limit d.bottom - d.top ≤ _
    rw [hlimit', ← hlimit]
    exact h.fits
  · show Kept d _ _ (pc'.limit d.bottom)
    rw [hlimit, hlimit']
    exact .store g h.top_nonneg hcap hb.symm
  · have hsame : (d.store d.array b g).frames pc' = d.frames pc := by
      show between _ d.top (pc'.limit d.bottom) = between _ d.top (pc.limit d.bottom)
      rw [hlimit, hlimit', ← hb]
      exact between_store g h.top_nonneg hcap
    rw [hlabel, hsame]
    exact .none
  · rw [hlabel, hhand, hhand']
    rfl

theorem DfsFrame.eq_of_fields {s f : DfsFrame β} (hbase : s.base = f.base) (hn : s.n = f.n) :
    { s with depth := f.depth } = f := by
  cases s
  cases f
  cases hbase
  cases hn
  rfl

theorem WsDeque.Ok.published {f : DfsFrame β} {b : Int} {na : WsArray β}
    (h : d.Ok (.publish f b na)) :
    d.Stepped (.publish f b na)
      { d with array := d.array + 1, rings := Function.update d.rings (d.array + 1) na }
      (.storeBase f b (d.array + 1)) := by
  obtain ⟨hb, hcap, hcopied⟩ := h.at_pc
  have hle : d.top ≤ d.bottom := h.top_le
  have hfits : d.bottom - d.top ≤ d.ring.cap := h.fits
  have hpos := d.ring.cap_pos
  have hring : (Function.update d.rings (d.array + 1) na) (d.array + 1) = na := Function.update_self ..
  refine ⟨⟨h.top_nonneg, hle, ?_, hb, rfl, ?_⟩,
    ⟨le_refl _, Nat.le_succ _, fun _ hlt => hlt, ?_, ?_⟩, ?_, rfl⟩
  · show d.bottom - d.top ≤ (Function.update d.rings (d.array + 1) na (d.array + 1)).cap
    rw [hring]
    omega
  · show b - d.top < (Function.update d.rings (d.array + 1) na (d.array + 1)).cap
    rw [hring]
    omega
  · intro _ _ a ha
    show (Function.update d.rings (d.array + 1) na a).get d.top = _
    rw [Function.update_of_ne (Nat.ne_of_lt (Nat.lt_succ_of_le ha))]
  · intro _ hlt
    show (Function.update d.rings (d.array + 1) na (d.array + 1)).get d.top = _
    rw [hring]
    exact hcopied _ (le_refl _) (hb ▸ hlt)
  · have hsame : between (Function.update d.rings (d.array + 1) na (d.array + 1)).get d.top d.bottom
        = between d.ring.get d.top d.bottom := by
      rw [hring]
      exact between_congr fun i hi hib => hcopied i hi (hb ▸ hib)
    show Label.none.Does (between d.ring.get d.top d.bottom)
      (between (Function.update d.rings (d.array + 1) na (d.array + 1)).get d.top d.bottom)
    rw [hsame]
    exact .none

theorem WsDeque.Ok.copied {f : DfsFrame β} {b i : Int} {a : Nat} {na : WsArray β}
    (h : d.Ok (.copy f b a i na)) (hi : i < b) :
    d.Stepped (.copy f b a i na) d
      (.copy f b a (i + 1) (na.modify i fun _ => (d.rings a).get i)) := by
  obtain ⟨hb, rfl, hcap, -, hcopied⟩ := h.at_pc
  have hfits : d.bottom - d.top ≤ d.ring.cap := h.fits
  refine h.load rfl ⟨hb, rfl, hcap, hi, fun j hj hji => ?_⟩ rfl rfl
  by_cases hlast : j = i
  · subst hlast
    exact na.get_modify_self ..
  · rw [na.get_modify_of_lt _ (h.top_nonneg.trans hj) (by omega) (by omega)]
    exact hcopied j hj (by omega)

theorem WsDeque.Ok.takeTop {b : Int} {a : Nat} (h : d.Ok (.takeTop b a)) :
    d.Stepped (.takeTop b a) d
      (if d.top ≤ b then .loadBase b a d.top else .restore b none) := by
  obtain ⟨hb, ha⟩ := h.at_pc
  have hle : d.top ≤ b + 1 := h.top_le
  have hfits : b + 1 - d.top ≤ d.ring.cap := h.fits
  rcases lt_trichotomy d.top b with hlt | heq | hgt
  · have hne : d.top ≠ b := hlt.ne
    have hlimit : (OwnerPc.loadBase b a d.top : OwnerPc β).limit d.bottom = b := if_neg hne
    rw [if_pos hlt.le]
    refine ⟨⟨h.top_nonneg, hlimit.symm ▸ hlt.le, ?_, hb, ha, hlt.le, le_refl _⟩, ?_, ?_, ?_⟩
    · rw [hlimit]
      omega
    · exact ⟨le_refl _, le_refl _, fun _ _ => hlimit.symm ▸ hlt, fun _ _ _ _ => rfl, fun _ _ => rfl⟩
    · have hlabel : (OwnerPc.takeTop b a).label d = .take (d.ring.get b) := if_pos hlt
      have hframes : d.frames (.takeTop b a) = d.frames (.loadBase b a d.top) ++ [d.ring.get b] := by
        rw [WsDeque.frames, WsDeque.frames, hlimit]
        exact between_snoc hlt.le
      rw [hlabel, hframes]
      exact .take
    · rw [OwnerPc.hand, OwnerPc.label, if_neg hne, if_pos hlt]
      rfl
  · have hlimit : (OwnerPc.loadBase b a d.top : OwnerPc β).limit d.bottom = b + 1 := if_pos heq
    rw [if_pos heq.le]
    refine h.load hlimit ⟨hb, ha, heq.le, le_refl _⟩ ?_ ?_
    · rw [OwnerPc.label, if_neg heq.not_lt, if_pos heq]
    · exact if_pos heq
  · have hlabel : (OwnerPc.takeTop b a).label d = .takeNothing := by
      rw [OwnerPc.label, if_neg hgt.not_gt, if_neg hgt.ne']
    have hframes : ∀ pc' : OwnerPc β, pc'.limit d.bottom = b + 1 → d.frames pc' = [] := by
      intro pc' hlimit
      exact between_nil (by omega)
    rw [if_neg hgt.not_ge]
    refine ⟨⟨h.top_nonneg, hle, hfits, hb, by omega⟩, .refl (le_refl _), ?_, ?_⟩
    · rw [hlabel, hframes _ rfl, hframes _ rfl]
      exact .takeNothing
    · rw [hlabel]
      rfl

theorem WsDeque.Ok.takeCas {b t : Int} {f : DfsFrame β} (h : d.Ok (.takeCas b t f)) :
    d.top = t ∧ d.Stepped (.takeCas b t f) { d with top := t + 1 } (.restore b (some f))
      ∨ d.top ≠ t ∧ d.Stepped (.takeCas b t f) d (.restore b none) := by
  obtain ⟨hb, rfl, hle', hf⟩ := h.at_pc
  have hle : d.top ≤ t + 1 := h.top_le
  have hfits : t + 1 - d.top ≤ d.ring.cap := h.fits
  by_cases htop : d.top = t
  · refine .inl ⟨htop, ⟨⟨?_, le_refl _, ?_, hb, rfl⟩, ?_, ?_, ?_⟩⟩
    · show 0 ≤ t + 1
      have := h.top_nonneg
      omega
    · show t + 1 - (t + 1) ≤ (d.ring.cap : Int)
      omega
    · have hwon := @Kept.won β d (t + 1) (t + 1)
      rw [htop] at hwon
      exact hwon
    · have hone : d.frames (.takeCas t t f) = [f] := by
        show between d.ring.get d.top (t + 1) = [f]
        rw [htop, between_snoc (le_refl _), between_nil (le_refl _), hf]
        rfl
      have hnone : ({ d with top := t + 1 } : WsDeque β).frames (.restore t (some f)) = [] :=
        between_nil (le_refl _)
      rw [OwnerPc.label, if_pos htop, hone, hnone]
      exact .take (q := [])
    · rw [OwnerPc.label, if_pos htop]
      rfl
  · have hnone : ∀ pc' : OwnerPc β, pc'.limit d.bottom = t + 1 → d.frames pc' = [] := by
      intro pc' hlimit
      exact between_nil (by omega)
    refine .inr ⟨htop, ⟨⟨h.top_nonneg, hle, hfits, hb, by omega⟩, .refl (le_refl _), ?_, ?_⟩⟩
    · rw [OwnerPc.label, if_neg htop, hnone _ rfl, hnone _ rfl]
      exact .takeNothing
    · rw [OwnerPc.label, if_neg htop]
      rfl

theorem WsDeque.Ok.pushArray {f : DfsFrame β} {b t : Int} (h : d.Ok (.pushArray f b t))
    (hstep : d.own luck (.pushArray f b t) = some (d', pc')) : d.Stepped (.pushArray f b t) d' pc' := by
  obtain ⟨rfl, ht⟩ := h.at_pc
  rw [WsDeque.own] at hstep
  split at hstep
  · cases hstep
    exact h.load rfl ⟨rfl, rfl, ht⟩ rfl rfl
  · cases hstep
    refine h.load rfl ⟨rfl, rfl, ?_⟩ rfl rfl
    omega

theorem WsDeque.Ok.arrayNew {f : DfsFrame β} {b t : Int} {a : Nat} (h : d.Ok (.arrayNew f b t a))
    (hstep : d.own luck (.arrayNew f b t a) = some (d', pc')) : d.Stepped (.arrayNew f b t a) d' pc' := by
  obtain ⟨rfl, rfl, ht⟩ := h.at_pc
  rw [WsDeque.own] at hstep
  split at hstep
  · cases hstep
    exact h.load rfl trivial rfl rfl
  · cases hstep
    refine h.load rfl ⟨rfl, rfl, Nat.pow_succ'.trans rfl, ht.trans h.top_le, ?_⟩ rfl rfl
    exact fun j hj hjt => absurd (hj.trans_lt hjt) ht.not_gt

theorem WsDeque.Ok.copy {f : DfsFrame β} {b i : Int} {a : Nat} {na : WsArray β} (h : d.Ok (.copy f b a i na))
    (hstep : d.own luck (.copy f b a i na) = some (d', pc')) : d.Stepped (.copy f b a i na) d' pc' := by
  obtain ⟨hb, ha, hcap, hib, hcopied⟩ := h.at_pc
  rw [WsDeque.own] at hstep
  split at hstep
  · rename_i hi
    cases hstep
    exact h.copied hi
  · rename_i hi
    obtain rfl : i = b := le_antisymm hib (not_lt.mp hi)
    split at hstep
    · cases hstep
      exact h.load rfl ⟨hb, hcap, hcopied⟩ rfl rfl
    · cases hstep
      exact h.load rfl trivial rfl rfl

theorem WsDeque.Ok.storeBase {f : DfsFrame β} {b : Int} {a : Nat} (h : d.Ok (.storeBase f b a)) :
    d.Stepped (.storeBase f b a) (d.store a b fun s => { s with base := f.base }) (.storeN f b a) := by
  obtain ⟨hb, rfl, hcap⟩ := h.at_pc
  refine h.stored _ hb hcap rfl rfl ⟨hb, rfl, ?_⟩ rfl rfl rfl
  rw [d.ring_store, WsArray.get_modify_self]
  exact ⟨hcap, rfl⟩

theorem WsDeque.Ok.storeN {f : DfsFrame β} {b : Int} {a : Nat} (h : d.Ok (.storeN f b a)) :
    d.Stepped (.storeN f b a) (d.store a b fun s => { s with n := f.n }) (.storeDepth f b a) := by
  obtain ⟨hb, rfl, hcap, hbase⟩ := h.at_pc
  refine h.stored _ hb hcap rfl rfl ⟨hb, rfl, ?_⟩ rfl rfl rfl
  rw [d.ring_store, WsArray.get_modify_self]
  exact ⟨hcap, hbase, rfl⟩

theorem WsDeque.Ok.storeDepth {f : DfsFrame β} {b : Int} {a : Nat} (h : d.Ok (.storeDepth f b a)) :
    d.Stepped (.storeDepth f b a) (d.store a b fun s => { s with depth := f.depth }) (.storeBottom f b) := by
  obtain ⟨hb, rfl, hcap, hbase, hn⟩ := h.at_pc
  refine h.stored _ hb hcap rfl rfl ⟨hb, ?_⟩ rfl rfl rfl
  rw [d.ring_store, WsArray.get_modify_self]
  exact ⟨hcap, DfsFrame.eq_of_fields hbase hn⟩

theorem WsDeque.Ok.storeBottom {f : DfsFrame β} {b : Int} (h : d.Ok (.storeBottom f b)) :
    d.Stepped (.storeBottom f b) { d with bottom := b + 1 } (.pushed true) := by
  obtain ⟨rfl, hcap, hf⟩ := h.at_pc
  have hle : d.top ≤ d.bottom := h.top_le
  refine ⟨⟨h.top_nonneg, Int.le_add_one hle, ?_, trivial⟩, .bottom (Int.le_add_one (le_refl _)), ?_, rfl⟩
  · show d.bottom + 1 - d.top ≤ (d.ring.cap : Int)
    omega
  · have hpush : between d.ring.get d.top (d.bottom + 1) = between d.ring.get d.top d.bottom ++ [f] := by
      rw [between_snoc hle, hf]
    show (Label.push f).Does (between d.ring.get d.top d.bottom) (between d.ring.get d.top (d.bottom + 1))
    rw [hpush]
    exact .push

theorem WsDeque.Ok.takeStore {b : Int} {a : Nat} (h : d.Ok (.takeStore b a)) :
    d.Stepped (.takeStore b a) { d with bottom := b } (.takeTop b a) := by
  obtain ⟨hb, ha⟩ := h.at_pc
  have hsame : (OwnerPc.takeTop b a : OwnerPc β).limit b
      = (OwnerPc.takeStore b a : OwnerPc β).limit d.bottom := hb
  refine ⟨⟨h.top_nonneg, hsame ▸ h.top_le, hsame ▸ h.fits, rfl, ha⟩, .bottom hsame.ge, ?_, rfl⟩
  show Label.none.Does (between d.ring.get d.top d.bottom) (between d.ring.get d.top (b + 1))
  rw [hb]
  exact .none

/-- The last field is read: the frame is the owner's, or it was the last one. -/
theorem WsDeque.Ok.loadDepth {b t : Int} {a n : Nat} {base : β} (h : d.Ok (.loadDepth b a t base n))
    (hstep : d.own luck (.loadDepth b a t base n) = some (d', pc')) :
    d.Stepped (.loadDepth b a t base n) d' pc' := by
  obtain ⟨hb, rfl, htb, ht, rfl, rfl⟩ := h.at_pc
  rw [WsDeque.own] at hstep
  split at hstep
  · rename_i heq
    cases hstep
    exact h.load (if_pos heq).symm ⟨hb, heq, ht, rfl⟩ rfl (if_pos heq).symm
  · rename_i hne
    cases hstep
    exact h.load ((if_neg hne).trans hb).symm trivial rfl (if_neg hne).symm

theorem WsDeque.Ok.restore {b : Int} {out : Option (DfsFrame β)} (h : d.Ok (.restore b out)) :
    d.Stepped (.restore b out) { d with bottom := b + 1 } (.took out) := by
  have hle : d.top ≤ b + 1 := h.top_le
  refine ⟨⟨h.top_nonneg, hle, h.fits, trivial⟩, .bottom (le_refl _), .none, ?_⟩
  exact (List.append_nil _).symm

/-- **A step of the owner** keeps the deque, disturbs no thief, and is a step of
the sequential deque. -/
theorem WsDeque.Ok.own (h : d.Ok pc) (hstep : d.own luck pc = some (d', pc')) :
    d.Stepped pc d' pc' := by
  have hat := h.at_pc
  cases pc with
  | idle => cases hstep
  | pushed ok => cases hstep
  | took out => cases hstep
  | pushBottom f =>
      cases hstep
      exact h.load rfl rfl rfl rfl
  | pushTop f b =>
      cases hstep
      exact h.load rfl ⟨hat, le_refl _⟩ rfl rfl
  | pushArray f b t => exact h.pushArray hstep
  | arrayNew f b t a => exact h.arrayNew hstep
  | copy f b a i na => exact h.copy hstep
  | publish f b na =>
      cases hstep
      exact h.published
  | storeBase f b a =>
      cases hstep
      exact h.storeBase
  | storeN f b a =>
      cases hstep
      exact h.storeN
  | storeDepth f b a =>
      cases hstep
      exact h.storeDepth
  | storeBottom f b =>
      cases hstep
      exact h.storeBottom
  | takeBottom =>
      cases hstep
      exact h.load rfl (Int.sub_add_cancel ..) rfl rfl
  | takeArray b =>
      cases hstep
      exact h.load rfl ⟨hat, rfl⟩ rfl rfl
  | takeStore b a =>
      cases hstep
      exact h.takeStore
  | takeTop b a =>
      have htop := h.takeTop
      rw [WsDeque.own] at hstep
      split at hstep
      · rename_i hle
        cases hstep
        rwa [if_pos hle] at htop
      · rename_i hle
        cases hstep
        rwa [if_neg hle] at htop
  | loadBase b a t =>
      obtain ⟨hb, rfl, htb, ht⟩ := hat
      cases hstep
      exact h.load rfl ⟨hb, rfl, htb, ht, rfl⟩ rfl rfl
  | loadN b a t base =>
      obtain ⟨hb, rfl, htb, ht, hbase⟩ := hat
      cases hstep
      exact h.load rfl ⟨hb, rfl, htb, ht, hbase, rfl⟩ rfl rfl
  | loadDepth b a t base n => exact h.loadDepth hstep
  | takeCas b t f =>
      rw [WsDeque.own] at hstep
      rcases h.takeCas with ⟨htop, hdone⟩ | ⟨htop, hdone⟩
      · rw [if_pos htop] at hstep
        cases hstep
        exact hdone
      · rw [if_neg htop] at hstep
        cases hstep
        exact hdone
  | restore b out =>
      cases hstep
      exact h.restore

/-- What a step of a thief keeps and does. -/
structure WsDeque.Robbed (d : WsDeque β) (pc : OwnerPc β) (tpc : ThiefPc β) (d' : WsDeque β)
    (tpc' : ThiefPc β) : Prop where
  ok : d'.Ok pc
  thief : tpc'.At d' (pc.limit d'.bottom)
  kept : Kept d (pc.limit d.bottom) d' (pc.limit d'.bottom)
  does : (tpc.label d).Does (d.frames pc) (d'.frames pc)
  hand : pc.hand d' = pc.hand d
  out : tpc'.out = (tpc.label d).stolen

theorem OwnerPc.At.raise {t : Int} (h : pc.At d) (ht : d.top ≤ t) (hr : ∀ b out, pc ≠ .restore b out) :
    pc.At { d with top := t } := by
  cases pc with
  | idle => trivial
  | pushBottom f => trivial
  | pushed ok => trivial
  | takeBottom => trivial
  | took out => trivial
  | pushTop f b => exact h
  | pushArray f b t' => exact ⟨h.1, h.2.trans ht⟩
  | arrayNew f b t' a => exact ⟨h.1, h.2.1, h.2.2.trans ht⟩
  | copy f b a i na =>
      obtain ⟨hb, ha, hcap, hib, hcopied⟩ := h
      exact ⟨hb, ha, hcap, hib, fun j hj => hcopied j (ht.trans hj)⟩
  | publish f b na =>
      obtain ⟨hb, hcap, hcopied⟩ := h
      exact ⟨hb, hcap, fun j hj => hcopied j (ht.trans hj)⟩
  | storeBase f b a =>
      obtain ⟨hb, ha, hcap⟩ := h
      exact ⟨hb, ha, (Int.sub_le_sub_left ht b).trans_lt hcap⟩
  | storeN f b a =>
      obtain ⟨hb, ha, hcap, hbase⟩ := h
      exact ⟨hb, ha, (Int.sub_le_sub_left ht b).trans_lt hcap, hbase⟩
  | storeDepth f b a =>
      obtain ⟨hb, ha, hcap, hbase⟩ := h
      exact ⟨hb, ha, (Int.sub_le_sub_left ht b).trans_lt hcap, hbase⟩
  | storeBottom f b =>
      obtain ⟨hb, hcap, hf⟩ := h
      exact ⟨hb, (Int.sub_le_sub_left ht b).trans_lt hcap, hf⟩
  | takeArray b => exact h
  | takeStore b a => exact h
  | takeTop b a => exact h
  | loadBase b a t' => exact ⟨h.1, h.2.1, h.2.2.1, h.2.2.2.trans ht⟩
  | loadN b a t' base => exact ⟨h.1, h.2.1, h.2.2.1, h.2.2.2.1.trans ht, h.2.2.2.2⟩
  | loadDepth b a t' base n => exact ⟨h.1, h.2.1, h.2.2.1, h.2.2.2.1.trans ht, h.2.2.2.2⟩
  | takeCas b t' f => exact ⟨h.1, h.2.1, h.2.2.1.trans ht, h.2.2.2⟩
  | restore b out => exact absurd rfl (hr b out)

theorem WsDeque.Ok.look {tpc tpc' : ThiefPc β} (h : d.Ok pc) (hat : tpc'.At d (pc.limit d.bottom))
    (hlabel : tpc.label d = .none) (hout : tpc'.out = []) : d.Robbed pc tpc d tpc' where
  ok := h
  thief := hat
  kept := .refl (le_refl _)
  does := by
    rw [hlabel]
    exact .none
  hand := rfl
  out := by
    rw [hlabel]
    exact hout

theorem OwnerPc.bottom_le_limit (h : pc.At d) : d.bottom ≤ pc.limit d.bottom := by
  have htake : ∀ b t : Int, b = d.bottom → d.bottom ≤ if t = b then b + 1 else b := by
    intro b t hb
    split <;> omega
  cases pc with
  | takeTop b a => exact h.1.ge.trans (Int.le_add_one (le_refl _))
  | takeCas b t f => exact h.1.ge.trans (Int.le_add_one (le_refl _))
  | restore b out => exact h.1.ge.trans (Int.le_add_one (le_refl _))
  | loadBase b a t => exact htake b t h.1
  | loadN b a t base => exact htake b t h.1
  | loadDepth b a t base n => exact htake b t h.1
  | _ => exact le_refl _

/-- **A step of a thief** keeps the deque, disturbs nobody, and is a step of the
sequential deque. -/
theorem WsDeque.Ok.steal {tpc tpc' : ThiefPc β} (h : d.Ok pc) (hthief : tpc.At d (pc.limit d.bottom))
    (hstep : d.steal tpc = some (d', tpc')) : d.Robbed pc tpc d' tpc' := by
  have hbottom := OwnerPc.bottom_le_limit h.at_pc
  cases tpc with
  | result r => cases hstep
  | loadTop =>
      cases hstep
      exact h.look (le_refl _) rfl rfl
  | loadBottom t =>
      rw [WsDeque.steal] at hstep
      split at hstep
      · rename_i hlt
        cases hstep
        exact h.look ⟨hthief, fun _ => ⟨hlt.trans_le hbottom, trivial⟩⟩ rfl rfl
      · cases hstep
        exact h.look trivial rfl rfl
  | loadArray t =>
      cases hstep
      exact h.look ⟨le_refl _, hthief.1, fun ht => ⟨(hthief.2 ht).1, rfl⟩⟩ rfl rfl
  | loadBase t a =>
      obtain ⟨ha, ht, hcur⟩ := hthief
      cases hstep
      refine h.look ⟨ha, ht, fun heq => ?_⟩ rfl rfl
      obtain ⟨hlt, hget⟩ := hcur heq
      exact ⟨hlt, hget, congrArg DfsFrame.base hget⟩
  | loadN t a base =>
      obtain ⟨ha, ht, hcur⟩ := hthief
      cases hstep
      refine h.look ⟨ha, ht, fun heq => ?_⟩ rfl rfl
      obtain ⟨hlt, hget, hbase⟩ := hcur heq
      exact ⟨hlt, hget, hbase, congrArg DfsFrame.n hget⟩
  | loadDepth t a base n =>
      obtain ⟨ha, ht, hcur⟩ := hthief
      cases hstep
      refine h.look ⟨ht, fun heq => ?_⟩ rfl rfl
      obtain ⟨hlt, hget, rfl, rfl⟩ := hcur heq
      rw [hget]
      exact ⟨hlt, rfl⟩
  | cas t f =>
      obtain ⟨ht, hcur⟩ := hthief
      rw [WsDeque.steal] at hstep
      split at hstep
      · rename_i htop
        cases hstep
        obtain ⟨hlt, hf⟩ := hcur htop.symm
        have hrest : ∀ b out, pc ≠ .restore b out := by
          rintro b out rfl
          have := h.at_pc.2
          have : t < b + 1 := hlt
          omega
        have hraise : d.top ≤ t + 1 := by omega
        have hwon := @Kept.won β d (pc.limit d.bottom) (pc.limit d.bottom)
        rw [htop] at hwon
        refine ⟨⟨?_, hlt, ?_, h.at_pc.raise hraise hrest⟩, trivial, hwon, ?_, ?_, ?_⟩
        · have := h.top_nonneg
          show 0 ≤ t + 1
          omega
        · have := h.fits
          show pc.limit d.bottom - (t + 1) ≤ (d.ring.cap : Int)
          omega
        · have hcons : d.frames pc = f :: between d.ring.get (t + 1) (pc.limit d.bottom) := by
            rw [WsDeque.frames, htop, between_cons hlt, hf]
          rw [ThiefPc.label, if_pos htop, hcons]
          exact .steal
        · cases pc <;> rfl
        · rw [ThiefPc.label, if_pos htop]
          rfl
      · rename_i htop
        cases hstep
        refine h.look trivial ?_ rfl
        rw [ThiefPc.label, if_neg htop]

/-! ## One deque, its owner and its thieves -/

/-- The capacity that `sub_wsdeque_init` starts with, as a power of two. -/
def initLog (initialCap : Nat) : Nat → Nat → Nat
  | 0, log => log
  | fuel + 1, log => if 2 ^ log < initialCap then initLog initialCap fuel (log + 1) else log

/-- `sub_wsdeque_init`, with what is in the memory of the ring. -/
def WsDeque.init (initialCap : Nat) (buf : Nat → DfsFrame β) : WsDeque β where
  top := 0
  bottom := 0
  array := 0
  rings := fun _ => ⟨initLog initialCap 64 6, buf⟩

theorem WsDeque.ok_init (initialCap : Nat) (buf : Nat → DfsFrame β) :
    (WsDeque.init initialCap buf).Ok .idle where
  top_nonneg := le_refl _
  top_le := le_refl _
  fits := Int.natCast_nonneg _
  at_pc := trivial

def OwnerPc.settle : OwnerPc β → OwnerPc β
  | .pushed _ | .took _ => .idle
  | pc => pc

theorem WsDeque.Ok.settle (h : d.Ok pc) : d.Ok pc.settle := by
  cases pc with
  | pushed ok => exact ⟨h.top_nonneg, h.top_le, h.fits, trivial⟩
  | took out => exact ⟨h.top_nonneg, h.top_le, h.fits, trivial⟩
  | _ => exact h

@[simp] theorem OwnerPc.limit_settle (pc : OwnerPc β) (b : Int) : pc.settle.limit b = pc.limit b := by
  cases pc <;> rfl

@[simp] theorem WsDeque.frames_settle (d : WsDeque β) (pc : OwnerPc β) : d.frames pc.settle = d.frames pc := by
  rw [frames, OwnerPc.limit_settle]
  rfl

theorem OwnerPc.hand_settle (d : WsDeque β) (pc : OwnerPc β) :
    (pc.hand d).toList = pc.out ++ (pc.settle.hand d).toList := by
  cases pc with
  | took out => cases out <;> rfl
  | _ => rfl

end

/-- A deque, its owner and its thieves, with the history: what was done on the
sequential deque, the frames that takes returned, and those that thefts did. -/
structure Duel (ι β : Type) where
  deque : WsDeque β
  owner : OwnerPc β
  thieves : ι → ThiefPc β
  history : List (Label β)
  taken : List (DfsFrame β)
  stolen : List (DfsFrame β)

/-- The owner calls a push or a take or goes on; thief `i` calls a theft or goes
on. -/
inductive Duel.Move (ι β : Type) where
  | push (f : DfsFrame β)
  | take
  | own (luck : Luck β)
  | rob (i : ι)
  | steal (i : ι)

section
variable {ι β : Type}

def Duel.start (initialCap : Nat) (buf : Nat → DfsFrame β) : Duel ι β where
  deque := .init initialCap buf
  owner := .idle
  thieves := fun _ => .result .empty
  history := []
  taken := []
  stolen := []

/-- The sequential deque comes from `q` to `q'`. -/
def Replays : List (Label β) → List (DfsFrame β) → List (DfsFrame β) → Prop
  | [], q, q' => q = q'
  | l :: ls, q, q' => ∃ r, l.Does q r ∧ Replays ls r q'

theorem replays_concat {ls : List (Label β)} {l : Label β} {q r q' : List (DfsFrame β)}
    (h : Replays ls q r) (hl : l.Does r q') : Replays (ls ++ [l]) q q' := by
  induction ls generalizing q with
  | nil =>
      cases h
      exact ⟨q', hl, rfl⟩
  | cons l' ls ih =>
      obtain ⟨m, hdo, hrest⟩ := h
      exact ⟨m, hdo, ih hrest⟩

def Label.pushes : Label β → List (DfsFrame β)
  | .push f => [f]
  | _ => []

theorem Label.Does.perm {l : Label β} {q q' : List (DfsFrame β)} (h : l.Does q q') :
    (q ++ l.pushes).Perm (l.taken ++ l.stolen ++ q') := by
  cases h with
  | none => exact (List.append_nil _).symm ▸ .refl _
  | push => exact .refl _
  | take => exact (List.append_nil _).symm ▸ List.perm_append_comm
  | takeNothing => exact .refl _
  | steal => exact (List.append_nil _).symm ▸ .refl _

/-- What is pushed is taken, stolen or still there. -/
theorem Replays.perm {ls : List (Label β)} {q q' : List (DfsFrame β)} (h : Replays ls q q') :
    (q ++ ls.flatMap Label.pushes).Perm (ls.flatMap Label.taken ++ ls.flatMap Label.stolen ++ q') := by
  induction ls generalizing q with
  | nil =>
      cases h
      simp
  | cons l ls ih =>
      obtain ⟨r, hdo, hrest⟩ := h
      have hone := hdo.perm
      have hall := ih hrest
      simp only [List.flatMap_cons]
      calc (q ++ (l.pushes ++ ls.flatMap Label.pushes)).Perm
            (l.taken ++ l.stolen ++ r ++ ls.flatMap Label.pushes) := by
            rw [← List.append_assoc]
            exact hone.append_right _
        _ |>.Perm (l.taken ++ l.stolen ++ (ls.flatMap Label.taken ++ ls.flatMap Label.stolen ++ q')) := by
            rw [List.append_assoc]
            exact hall.append_left _
        _ |>.Perm (l.taken ++ ls.flatMap Label.taken ++ (l.stolen ++ ls.flatMap Label.stolen) ++ q') := by
            simp only [List.append_assoc]
            exact (List.perm_append_comm_assoc _ _ _).append_left _

structure Duel.Inv (s : Duel ι β) : Prop where
  ok : s.deque.Ok s.owner
  thieves : ∀ i, (s.thieves i).At s.deque (s.owner.limit s.deque.bottom)
  replays : Replays s.history [] (s.deque.frames s.owner)
  taken : s.history.flatMap Label.taken = s.taken ++ (s.owner.hand s.deque).toList
  stolen : s.history.flatMap Label.stolen = s.stolen

theorem Duel.Inv.start (initialCap : Nat) (buf : Nat → DfsFrame β) :
    (Duel.start initialCap buf : Duel ι β).Inv where
  ok := WsDeque.ok_init ..
  thieves _ := trivial
  replays := (between_nil (le_refl _)).symm
  taken := rfl
  stolen := rfl

theorem Duel.Inv.call {s : Duel ι β} {pc : OwnerPc β} (h : s.Inv) (hidle : s.owner = .idle)
    (hlimit : pc.limit s.deque.bottom = s.deque.bottom) (hat : pc.At s.deque)
    (hhand : pc.hand s.deque = none) : ({ s with owner := pc } : Duel ι β).Inv := by
  have hlimit' : s.owner.limit s.deque.bottom = s.deque.bottom := by
    rw [hidle]
    rfl
  have hsame := hlimit.trans hlimit'.symm
  refine ⟨⟨h.ok.top_nonneg, hsame.symm ▸ h.ok.top_le, hsame.symm ▸ h.ok.fits, hat⟩, fun i => ?_, ?_, ?_,
    h.stolen⟩
  · show (s.thieves i).At s.deque (pc.limit s.deque.bottom)
    rw [hsame]
    exact h.thieves i
  · show Replays s.history [] (between s.deque.ring.get s.deque.top (pc.limit s.deque.bottom))
    rw [hsame]
    exact h.replays
  · show _ = s.taken ++ (pc.hand s.deque).toList
    rw [h.taken, hidle, hhand]
    rfl

theorem OwnerPc.label_stolen (d : WsDeque β) (pc : OwnerPc β) : (pc.label d).stolen = [] := by
  cases pc <;> simp only [OwnerPc.label] <;> try rfl
  · split
    · rfl
    · split <;> rfl
  · split <;> rfl

theorem ThiefPc.label_taken (d : WsDeque β) (pc : ThiefPc β) : (pc.label d).taken = [] := by
  cases pc <;> simp only [ThiefPc.label] <;> try rfl
  split <;> rfl

variable [DecidableEq ι]

def Duel.step (s : Duel ι β) : Duel.Move ι β → Option (Duel ι β)
  | .push f =>
      match s.owner with
      | .idle => some { s with owner := .pushBottom f }
      | _ => none
  | .take =>
      match s.owner with
      | .idle => some { s with owner := .takeBottom }
      | _ => none
  | .own luck =>
      (s.deque.own luck s.owner).map fun (d, pc) =>
        { s with
          deque := d, owner := pc.settle, history := s.history ++ [s.owner.label s.deque],
          taken := s.taken ++ pc.out }
  | .rob i =>
      match s.thieves i with
      | .result _ => some { s with thieves := Function.update s.thieves i .loadTop }
      | _ => none
  | .steal i =>
      (s.deque.steal (s.thieves i)).map fun (d, pc) =>
        { s with
          deque := d, thieves := Function.update s.thieves i pc,
          history := s.history ++ [(s.thieves i).label s.deque],
          stolen := s.stolen ++ pc.out }

theorem Duel.Inv.own {s s' : Duel ι β} {luck : Luck β} (h : s.Inv) (hstep : s.step (.own luck) = some s') :
    s'.Inv := by
  obtain ⟨⟨d, pc⟩, hown, rfl⟩ := Option.map_eq_some_iff.mp hstep
  have hdone := h.ok.own hown
  refine ⟨hdone.ok.settle, fun i => ?_, ?_, ?_, ?_⟩
  · show (s.thieves i).At d (pc.settle.limit d.bottom)
    rw [OwnerPc.limit_settle]
    exact (h.thieves i).kept hdone.kept
  · show Replays (s.history ++ _) [] (d.frames pc.settle)
    rw [WsDeque.frames_settle]
    exact replays_concat h.replays hdone.does
  · show (s.history ++ [s.owner.label s.deque]).flatMap Label.taken
      = s.taken ++ pc.out ++ (pc.settle.hand d).toList
    rw [List.flatMap_append, h.taken, List.flatMap_singleton, List.append_assoc, ← hdone.hand,
      List.append_assoc, ← OwnerPc.hand_settle]
  · show (s.history ++ [s.owner.label s.deque]).flatMap Label.stolen = s.stolen
    rw [List.flatMap_append, h.stolen, List.flatMap_singleton, OwnerPc.label_stolen, List.append_nil]

theorem Duel.Inv.steal {s s' : Duel ι β} {i : ι} (h : s.Inv) (hstep : s.step (.steal i) = some s') :
    s'.Inv := by
  obtain ⟨⟨d, pc⟩, hsteal, rfl⟩ := Option.map_eq_some_iff.mp hstep
  have hdone := h.ok.steal (h.thieves i) hsteal
  refine ⟨hdone.ok, fun j => ?_, replays_concat h.replays hdone.does, ?_, ?_⟩
  · show (Function.update s.thieves i pc j).At d _
    by_cases hj : j = i
    · subst hj
      rw [Function.update_self]
      exact hdone.thief
    · rw [Function.update_of_ne hj]
      exact (h.thieves j).kept hdone.kept
  · show (s.history ++ [(s.thieves i).label s.deque]).flatMap Label.taken
      = s.taken ++ (s.owner.hand d).toList
    rw [List.flatMap_append, h.taken, List.flatMap_singleton, ThiefPc.label_taken, List.append_nil,
      hdone.hand]
  · show (s.history ++ [(s.thieves i).label s.deque]).flatMap Label.stolen = s.stolen ++ pc.out
    rw [List.flatMap_append, h.stolen, List.flatMap_singleton, hdone.out]

/-- **The step lemma**, over the moves of a duel. -/
theorem Duel.Inv.step {s s' : Duel ι β} {m : Duel.Move ι β} (h : s.Inv) (hstep : s.step m = some s') :
    s'.Inv := by
  cases m with
  | push f =>
      rw [Duel.step] at hstep
      split at hstep
      · rename_i hidle
        cases hstep
        exact h.call hidle rfl trivial rfl
      · cases hstep
  | take =>
      rw [Duel.step] at hstep
      split at hstep
      · rename_i hidle
        cases hstep
        exact h.call hidle rfl trivial rfl
      · cases hstep
  | own luck => exact h.own hstep
  | rob i =>
      rw [Duel.step] at hstep
      split at hstep
      · cases hstep
        refine ⟨h.ok, fun j => ?_, h.replays, h.taken, h.stolen⟩
        show (Function.update s.thieves i .loadTop j).At _ _
        by_cases hj : j = i
        · subst hj
          rw [Function.update_self]
          trivial
        · rw [Function.update_of_ne hj]
          exact h.thieves j
      · cases hstep
  | steal i => exact h.steal hstep

/-- **The deque is linearizable.** Under every interleaving of an owner that
pushes and takes with any number of thieves, whatever allocations fail, what was
done up to now is a run of the sequential deque, which then holds what the deque
holds; takes and thefts return the frames it gave, in that order. So a frame
whose push is published is returned once, or in the owner's hand, or still there. -/
theorem duel_linear {initialCap : Nat} {buf : Nat → DfsFrame β} {moves : List (Duel.Move ι β)}
    {s : Duel ι β} (h : run Duel.step (Duel.start initialCap buf) moves = some s) :
    Replays s.history [] (s.deque.frames s.owner) ∧
      s.history.flatMap Label.taken = s.taken ++ (s.owner.hand s.deque).toList ∧
      s.history.flatMap Label.stolen = s.stolen ∧
      (s.history.flatMap Label.pushes).Perm
        (s.taken ++ (s.owner.hand s.deque).toList ++ s.stolen ++ s.deque.frames s.owner) := by
  have hinv : s.Inv := run_invariant (fun _ _ _ hs hstep => hs.step hstep) h (Duel.Inv.start ..)
  refine ⟨hinv.replays, hinv.taken, hinv.stolen, ?_⟩
  have hperm := hinv.replays.perm
  rwa [List.nil_append, hinv.taken, hinv.stolen] at hperm

end

/-- The moves of a duel over one frame: the thief has read it when the owner
takes it, and is the first at the exchange. -/
def duelMoves (f : DfsFrame Unit) : List (Duel.Move Unit Unit) :=
  .push f :: List.replicate 7 (.own ⟨none, false⟩) ++ .rob () :: List.replicate 6 (.steal ()) ++
    .take :: List.replicate 7 (.own ⟨none, false⟩) ++ [.steal (), .own ⟨none, false⟩, .own ⟨none, false⟩]

/-- The thief has the frame, and the take returns none. -/
theorem duel_linear_one : ∃ s,
    run Duel.step (Duel.start 256 fun _ => ⟨(), 0, 0⟩) (duelMoves ⟨(), 3, 1⟩) = some s ∧
    s.stolen = [⟨(), 3, 1⟩] ∧ Replays s.history [] (s.deque.frames s.owner) ∧
      s.history.flatMap Label.taken = s.taken ++ (s.owner.hand s.deque).toList ∧
      s.history.flatMap Label.stolen = s.stolen ∧
      (s.history.flatMap Label.pushes).Perm
        (s.taken ++ (s.owner.hand s.deque).toList ++ s.stolen ++ s.deque.frames s.owner) :=
  ⟨_, rfl, rfl, @duel_linear Unit Unit _ 256 (fun _ => ⟨(), 0, 0⟩) (duelMoves ⟨(), 3, 1⟩) _ rfl⟩

end Montauk.Par
