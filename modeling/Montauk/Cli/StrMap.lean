import Mathlib.Data.List.Induction
import Montauk.Machine.Probing

/-!
# The string map of the command line

`StrMap` is the table behind `join`, `group`, `tally` and `setop`: the first
value put under a key stays, and a key that is interned has a number that its
user changes. The two kinds of use share the slots (`Binding`).

`binding` is the finite map that a list of calls means, `smapRun_spec` that the
table is that map, whatever the hash function.
-/

namespace Montauk.Cli

open Probing

/-! ## The table -/

/-- `keys[i]`, `vals[i]` and `nums[i]` of an occupied slot. In a free one the
value is NULL and the number 0, as `calloc` left them. -/
structure StrEntry where
  key : List UInt8
  val : Option (List UInt8)
  num : Nat

/-- `StrMap`; `cap` is the number of slots. A key is the bytes before its NUL. -/
structure StrMap where
  slots : List (Option StrEntry)
  used : Nat

def strFnv (s : List UInt8) : UInt64 :=
  s.foldl (fun h c => (h ^^^ c.toUInt64) * 1099511628211) 1469598103934665603

def smapInit : StrMap := ⟨List.replicate 1024 none, 0⟩

variable (hash : List UInt8 → UInt64)

def smapSlot (m : StrMap) (k : List UInt8) : Option Nat := findSlot hash StrEntry.key m.slots k

def smapHas (m : StrMap) (k : List UInt8) : Option Bool := do
  let i ← smapSlot hash m k
  let s ← m.slots[i]?
  some s.isSome

def smapGet (m : StrMap) (k : List UInt8) : Option (Option (List UInt8)) := do
  let i ← smapSlot hash m k
  let s ← m.slots[i]?
  some (s.bind StrEntry.val)

/-- `nums[smap_slot(m, k)]`. -/
def smapNum (m : StrMap) (k : List UInt8) : Option Nat := do
  let i ← smapSlot hash m k
  let s ← m.slots[i]?
  some ((s.map StrEntry.num).getD 0)

def smapGrow (m : StrMap) : Option StrMap := do
  let slots ← grow hash StrEntry.key m.slots
  some { m with slots }

/-- `if ((m->used + 1) * 2 >= m->cap) smap_grow(m);` -/
def smapReserve (m : StrMap) : Option StrMap :=
  if m.slots.length ≤ (m.used + 1) * 2 then smapGrow hash m else some m

def smapPut (m : StrMap) (k : List UInt8) (v : Option (List UInt8)) : Option StrMap := do
  let m ← smapReserve hash m
  let i ← smapSlot hash m k
  let s ← m.slots[i]?
  if s.isSome then some m
  else some ⟨m.slots.set i (some ⟨k, v, 0⟩), m.used + 1⟩

/-- `smap_intern`: the slot, and `*created`. -/
def smapIntern (m : StrMap) (k : List UInt8) : Option (StrMap × Nat × Bool) := do
  let m ← smapReserve hash m
  let i ← smapSlot hash m k
  let s ← m.slots[i]?
  if s.isSome then some (m, i, false)
  else some (⟨m.slots.set i (some ⟨k, none, 0⟩), m.used + 1⟩, i, true)

/-- `m->nums[slot] = f(m->nums[slot])`. -/
def StrMap.setNum (m : StrMap) (slot : Nat) (f : Nat → Nat) : StrMap :=
  match m.slots[slot]? with
  | some (some e) => { m with slots := m.slots.set slot (some { e with num := f e.num }) }
  | _ => m

/-! ## Calls -/

/-- A call; after `smap_intern` the caller may change the number of the slot. -/
inductive SmapOp where
  | put (k : List UInt8) (v : Option (List UInt8))
  | intern (k : List UInt8) (f : Bool → Nat → Nat)
  | has (k : List UInt8)
  | get (k : List UInt8)

def smapStep (m : StrMap) : SmapOp → Option StrMap
  | .put k v => smapPut hash m k v
  | .intern k f => do
      let (m, slot, created) ← smapIntern hash m k
      some (m.setNum slot (f created))
  | .has k => do
      let _ ← smapHas hash m k
      some m
  | .get k => do
      let _ ← smapGet hash m k
      some m

/-- The calls one after the other; a probe that does not end has no result. -/
def smapRun (ops : List SmapOp) : Option StrMap := ops.foldlM (smapStep hash) smapInit

/-! ## The finite map -/

/-- What a key is bound to: its value and its number. -/
abbrev Binding := Option (List UInt8) × Nat

/-- The call may insert `k`. -/
def SmapOp.inserts (k : List UInt8) : SmapOp → Bool
  | .put k' _ => decide (k' = k)
  | .intern k' _ => decide (k' = k)
  | .has _ => false
  | .get _ => false

/-- The value a call inserts a key with. -/
def SmapOp.value : SmapOp → Option (List UInt8)
  | .put _ v => v
  | _ => none

/-- What a call that inserts the key binds it to. -/
def SmapOp.bind : SmapOp → Option Binding → Binding
  | .intern _ f, none => (none, f true 0)
  | .intern _ f, some (v, n) => (v, f false n)
  | op, none => (op.value, 0)
  | _, some b => b

/-- What a call does to the binding of `k`. -/
def bindStep (k : List UInt8) (b : Option Binding) (op : SmapOp) : Option Binding :=
  if op.inserts k then some (op.bind b) else b

def binding (ops : List SmapOp) (k : List UInt8) : Option Binding := ops.foldl (bindStep k) none

theorem binding_concat (ops : List SmapOp) (op : SmapOp) (k : List UInt8) :
    binding (ops ++ [op]) k = bindStep k (binding ops k) op := by
  rw [binding, List.foldl_append]
  rfl

theorem bindStep_of_not {k : List UInt8} {op : SmapOp} (h : op.inserts k = false) (b : Option Binding) :
    bindStep k b op = b := by
  rw [bindStep, if_neg (by rw [h]; exact Bool.false_ne_true)]

theorem SmapOp.bind_none (op : SmapOp) : (op.bind none).1 = op.value := by
  cases op <;> rfl

theorem SmapOp.bind_some (op : SmapOp) (b : Binding) : (op.bind (some b)).1 = b.1 := by
  cases op <;> rfl

theorem binding_isSome (ops : List SmapOp) (k : List UInt8) :
    (binding ops k).isSome = ops.any (SmapOp.inserts k) := by
  induction ops using List.reverseRecOn with
  | nil => rfl
  | append_singleton ops op ih =>
      rw [binding_concat, List.any_append, List.any_cons, List.any_nil, Bool.or_false, ← ih]
      cases hins : op.inserts k with
      | false => rw [bindStep_of_not hins, Bool.or_false]
      | true => rw [bindStep, if_pos hins, Bool.or_true, Option.isSome_some]

theorem binding_value (ops : List SmapOp) (k : List UInt8) :
    (binding ops k).map Prod.fst = (ops.find? (SmapOp.inserts k)).map SmapOp.value := by
  induction ops using List.reverseRecOn with
  | nil => rfl
  | append_singleton ops op ih =>
      rw [binding_concat, List.find?_append]
      cases hins : op.inserts k with
      | false =>
          rw [bindStep_of_not hins, ih, List.find?_singleton, if_neg (by rw [hins]; exact Bool.false_ne_true),
            Option.or_none]
      | true =>
          rw [bindStep, if_pos hins, Option.map_some, List.find?_singleton, if_pos hins]
          cases hb : binding ops k with
          | none =>
              rw [hb, Option.map_none, eq_comm, Option.map_eq_none_iff] at ih
              rw [ih, Option.none_or, Option.map_some, op.bind_none]
          | some b =>
              rw [hb, Option.map_some] at ih
              obtain ⟨op', hfind, -⟩ := Option.map_eq_some_iff.mp ih.symm
              rw [op.bind_some, ih, hfind, Option.some_or]

/-! ## The table is the map -/

/-- The table holds the bindings `b` and has more than half of its slots free. -/
structure Binds (hash : List UInt8 → UInt64) (m : StrMap) (b : List UInt8 → Option Binding) :
    Prop where
  placed : Placed hash StrEntry.key m.slots
  count : m.used = (entries m.slots).length
  large : 1024 ≤ m.slots.length
  room : m.used * 2 < m.slots.length
  holds : ∀ k v, b k = some v ↔ ∃ e ∈ entries m.slots, e.key = k ∧ (e.val, e.num) = v

variable {hash} {m : StrMap} {b : List UInt8 → Option Binding} {k : List UInt8} {p : Nat}

theorem binds_init : Binds hash smapInit fun _ => none where
  placed := placed_empty (m := 10) rfl
  count := by rw [smapInit, entries_replicate]; rfl
  large := by rw [smapInit, List.length_replicate]
  room := by
    show 0 * 2 < (List.replicate 1024 none).length
    rw [List.length_replicate]
    omega
  holds k v := by
    rw [smapInit, entries_replicate]
    exact iff_of_false nofun fun ⟨_, he, _⟩ => List.not_mem_nil he

/-- The probe for a key ends at its entry, or at the slot to put it. -/
theorem Binds.slot (h : Binds hash m b) (k : List UInt8) :
    ∃ p s, smapSlot hash m k = some p ∧ m.slots[p]? = some s
      ∧ s.map (fun e => (e.val, e.num)) = b k ∧ (∀ e, s = some e → e.key = k)
      ∧ (s = none → OnWay hash m.slots k p) := by
  cases hb : b k with
  | some v =>
      obtain ⟨e, he, rfl, rfl⟩ := (h.holds k v).mp hb
      obtain ⟨p, hp⟩ := mem_entries.mp he
      refine ⟨p, some e, h.placed.findSlot_eq hp, hp, rfl, fun e' he' => ?_, nofun⟩
      rw [← Option.some.inj he']
  | none =>
      have habsent : ∀ e ∈ entries m.slots, e.key ≠ k := by
        intro e he hkey
        have hsome := (h.holds k (e.val, e.num)).mpr ⟨e, he, hkey, rfl⟩
        rw [hb] at hsome
        exact absurd hsome nofun
      have hfew : (entries m.slots).length < m.slots.length := by
        have := h.room
        have := h.count
        omega
      have hfree := free_of_length hfew
      obtain ⟨p, hfind, hp, hway⟩ := h.placed.findSlot_free hfree habsent
      exact ⟨p, none, hfind, hp, rfl, nofun, fun _ => hway⟩

theorem Binds.has (h : Binds hash m b) (k : List UInt8) : smapHas hash m k = some (b k).isSome := by
  obtain ⟨p, s, hslot, hp, hs, -⟩ := h.slot k
  rw [smapHas, hslot, Option.bind_eq_bind, Option.bind_some, hp, Option.bind_eq_bind, Option.bind_some,
    ← hs, Option.isSome_map]

theorem Binds.get (h : Binds hash m b) (k : List UInt8) :
    smapGet hash m k = some ((b k).bind Prod.fst) := by
  obtain ⟨p, s, hslot, hp, hs, -⟩ := h.slot k
  rw [smapGet, hslot, Option.bind_eq_bind, Option.bind_some, hp, Option.bind_eq_bind, Option.bind_some,
    ← hs, Option.bind_map]
  rfl

theorem Binds.num (h : Binds hash m b) (k : List UInt8) :
    smapNum hash m k = some (((b k).map Prod.snd).getD 0) := by
  obtain ⟨p, s, hslot, hp, hs, -⟩ := h.slot k
  rw [smapNum, hslot, Option.bind_eq_bind, Option.bind_some, hp, Option.bind_eq_bind, Option.bind_some,
    ← hs, Option.map_map]
  rfl

/-- **Growing** keeps the bindings. -/
theorem Binds.grow (h : Binds hash m b) :
    ∃ m', smapGrow hash m = some m' ∧ Binds hash m' b ∧ m'.used = m.used
      ∧ m'.slots.length = m.slots.length * 2 := by
  obtain ⟨slots, hrun, hplaced, hlen, hent⟩ := h.placed.grow
  refine ⟨{ m with slots }, ?_, ⟨hplaced, ?_, ?_, ?_, fun k v => ?_⟩, rfl, hlen⟩
  · rw [smapGrow, hrun]
    rfl
  · exact h.count.trans hent.length_eq.symm
  · have := h.large
    show 1024 ≤ slots.length
    omega
  · have := h.room
    show m.used * 2 < slots.length
    omega
  · rw [h.holds]
    simp only [hent.mem_iff]

theorem Binds.reserve (h : Binds hash m b) :
    ∃ m', smapReserve hash m = some m' ∧ Binds hash m' b ∧ (m'.used + 1) * 2 < m'.slots.length := by
  rw [smapReserve]
  have hroom := h.room
  by_cases hfull : m.slots.length ≤ (m.used + 1) * 2
  · obtain ⟨m', hrun, hbinds, hused, hlen⟩ := h.grow
    refine ⟨m', by rw [if_pos hfull, hrun], hbinds, ?_⟩
    have := h.large
    omega
  · exact ⟨m, by rw [if_neg hfull], h, by omega⟩

theorem Binds.insert (h : Binds hash m b) (hroom : (m.used + 1) * 2 < m.slots.length)
    (hp : m.slots[p]? = some none) (hway : OnWay hash m.slots k p) (hb : b k = none)
    (v : Option (List UInt8)) (n : Nat) :
    Binds hash ⟨m.slots.set p (some ⟨k, v, n⟩), m.used + 1⟩ (Function.update b k (some (v, n))) := by
  have habsent : ∀ e ∈ entries m.slots, e.key ≠ k := by
    intro e he hkey
    have hsome := (h.holds k (e.val, e.num)).mpr ⟨e, he, hkey, rfl⟩
    rw [hb] at hsome
    exact absurd hsome nofun
  have hfill := entries_fill hp (StrEntry.mk k v n)
  refine ⟨h.placed.insert hp hway habsent, ?_, ?_, ?_, fun k' v' => ?_⟩
  · show m.used + 1 = _
    rw [hfill.length_eq, List.length_cons, h.count]
  · show 1024 ≤ (m.slots.set p _).length
    rw [List.length_set]
    exact h.large
  · show (m.used + 1) * 2 < (m.slots.set p _).length
    rw [List.length_set]
    exact hroom
  · show _ ↔ ∃ e ∈ entries (m.slots.set p _), _
    simp only [hfill.mem_iff, List.mem_cons, or_and_right, exists_or, exists_eq_left]
    by_cases hk : k' = k
    · rw [hk, Function.update_self]
      constructor
      · exact fun heq => Or.inl ⟨rfl, Option.some.inj heq⟩
      · rintro (⟨-, heq⟩ | ⟨e, he, hkey, -⟩)
        · rw [heq]
        · exact absurd hkey (habsent e he)
    · rw [Function.update_of_ne hk, h.holds]
      constructor
      · exact Or.inr
      · rintro (⟨hkey, -⟩ | hold)
        · exact absurd hkey.symm hk
        · exact hold

theorem Binds.setNum (h : Binds hash m b) {e : StrEntry} (hp : m.slots[p]? = some (some e))
    (f : Nat → Nat) :
    Binds hash (m.setNum p f) (Function.update b e.key (some (e.val, f e.num))) := by
  have hset : m.setNum p f = { m with slots := m.slots.set p (some { e with num := f e.num }) } := by
    rw [StrMap.setNum, hp]
  have hent := h.placed.entries_update hp fun e' : StrEntry => { e' with num := f e'.num }
  rw [hset]
  refine ⟨h.placed.update hp rfl, ?_, ?_, ?_, fun k' v' => ?_⟩
  · rw [hent, List.length_map]
    exact h.count
  · show 1024 ≤ (m.slots.set p _).length
    rw [List.length_set]
    exact h.large
  · show m.used * 2 < (m.slots.set p _).length
    rw [List.length_set]
    exact h.room
  · have hmem : e ∈ entries m.slots := mem_entries.mpr ⟨p, hp⟩
    rw [hent]
    simp only [List.mem_map, exists_exists_and_eq_and]
    by_cases hk : k' = e.key
    · rw [hk, Function.update_self]
      constructor
      · intro heq
        exact ⟨e, hmem, by rw [if_pos rfl], by rw [if_pos rfl]; exact Option.some.inj heq⟩
      · rintro ⟨e', he', hkey, rfl⟩
        have hsame : e' = e := by
          by_cases heq : e'.key = e.key
          · obtain ⟨q, hq⟩ := mem_entries.mp he'
            obtain rfl := h.placed.unique q p e' e hq hp heq
            exact Option.some.inj (Option.some.inj (hq.symm.trans hp))
          · rw [if_neg heq] at hkey
            exact absurd hkey heq
        rw [hsame, if_pos rfl]
    · rw [Function.update_of_ne hk, h.holds]
      have hother : ∀ e' : StrEntry, (if e'.key = e.key then { e' with num := f e'.num } else e').key = e'.key := by
        intro e'
        split <;> rfl
      constructor
      · rintro ⟨e', he', hkey, rfl⟩
        refine ⟨e', he', (hother e').trans hkey, ?_⟩
        rw [if_neg fun heq : e'.key = e.key => hk (hkey.symm.trans heq)]
      · rintro ⟨e', he', hkey, rfl⟩
        rw [hother] at hkey
        refine ⟨e', he', hkey, ?_⟩
        rw [if_neg fun heq : e'.key = e.key => hk (hkey.symm.trans heq)]

/-! ## The calls -/

theorem bindStep_eq_update {op : SmapOp} (hop : ∀ k', op.inserts k' = decide (k = k')) :
    (fun k' => bindStep k' (b k') op) = Function.update b k (some (op.bind (b k))) := by
  funext k'
  rw [bindStep, hop]
  by_cases hk : k = k'
  · rw [if_pos (decide_eq_true hk), ← hk, Function.update_self]
  · rw [if_neg (by rw [decide_eq_false hk]; exact Bool.false_ne_true),
      Function.update_of_ne fun h => hk h.symm]

theorem Binds.put (h : Binds hash m b) (k : List UInt8) (v : Option (List UInt8)) :
    ∃ m', smapPut hash m k v = some m' ∧ Binds hash m' fun k' => bindStep k' (b k') (.put k v) := by
  obtain ⟨m₁, hreserve, h₁, hroom⟩ := h.reserve
  obtain ⟨p, s, hslot, hp, hs, -, hway⟩ := h₁.slot k
  rw [smapPut, hreserve, Option.bind_eq_bind, Option.bind_some, hslot, Option.bind_eq_bind,
    Option.bind_some, hp, Option.bind_eq_bind, Option.bind_some,
    bindStep_eq_update (k := k) fun _ => rfl, ← hs]
  cases s with
  | some e =>
      have hsame : Function.update b k (some (e.val, e.num)) = b := by
        rw [Option.map_some] at hs
        rw [hs, Function.update_eq_self]
      refine ⟨m₁, rfl, ?_⟩
      show Binds hash m₁ (Function.update b k (some (e.val, e.num)))
      rw [hsame]
      exact h₁
  | none => exact ⟨_, rfl, h₁.insert hroom hp (hway rfl) hs.symm v 0⟩

theorem Binds.intern (h : Binds hash m b) (k : List UInt8) (f : Bool → Nat → Nat) :
    ∃ m', smapStep hash m (.intern k f) = some m'
      ∧ Binds hash m' fun k' => bindStep k' (b k') (.intern k f) := by
  obtain ⟨m₁, hreserve, h₁, hroom⟩ := h.reserve
  obtain ⟨p, s, hslot, hp, hs, hkey, hway⟩ := h₁.slot k
  rw [smapStep, smapIntern, hreserve, Option.bind_eq_bind, Option.bind_eq_bind, Option.bind_some, hslot,
    Option.bind_eq_bind, Option.bind_some, hp, Option.bind_eq_bind, Option.bind_some,
    bindStep_eq_update (k := k) fun _ => rfl, ← hs]
  cases s with
  | some e =>
      obtain rfl := hkey e rfl
      exact ⟨_, rfl, h₁.setNum hp (f false)⟩
  | none =>
      obtain ⟨hplt, -⟩ := List.getElem?_eq_some_iff.mp hp
      have hins := h₁.insert hroom hp (hway rfl) hs.symm none 0
      have hnum := hins.setNum (e := ⟨k, none, 0⟩) (p := p) (List.getElem?_set_self hplt) (f true)
      rw [Function.update_idem] at hnum
      exact ⟨_, rfl, hnum⟩

theorem Binds.step (h : Binds hash m b) (op : SmapOp) :
    ∃ m', smapStep hash m op = some m' ∧ Binds hash m' fun k => bindStep k (b k) op := by
  cases op with
  | put k v => exact h.put k v
  | intern k f => exact h.intern k f
  | has k =>
      refine ⟨m, ?_, h⟩
      rw [smapStep, h.has]
      rfl
  | get k =>
      refine ⟨m, ?_, h⟩
      rw [smapStep, h.get]
      rfl

/-- **The table is the finite map** of the calls made on it. -/
theorem smapRun_binds (hash : List UInt8 → UInt64) (ops : List SmapOp) :
    ∃ m, smapRun hash ops = some m ∧ Binds hash m (binding ops) := by
  induction ops using List.reverseRecOn with
  | nil => exact ⟨smapInit, rfl, binds_init⟩
  | append_singleton ops op ih =>
      obtain ⟨m, hrun, hbinds⟩ := ih
      obtain ⟨m', hstep, hbinds'⟩ := hbinds.step op
      refine ⟨m', ?_, ?_⟩
      · rw [smapRun] at hrun ⊢
        rw [List.foldlM_append, hrun]
        show (smapStep hash m op).bind pure = _
        rw [hstep]
        rfl
      · have hsame : binding (ops ++ [op]) = fun k => bindStep k (binding ops k) op :=
          funext fun k => binding_concat ops op k
        rw [hsame]
        exact hbinds'

/-! ## What the calls say -/

/-- The number of an interned key after calls that may put it but do not intern it. -/
theorem binding_num_append {ops ops' : List SmapOp} (hins : (binding ops k).isSome = true)
    (h : ∀ f, SmapOp.intern k f ∉ ops') :
    (binding (ops ++ ops') k).map Prod.snd = (binding ops k).map Prod.snd := by
  induction ops' using List.reverseRecOn with
  | nil => rw [List.append_nil]
  | append_singleton ops' op ih =>
      have hrest := ih fun f hf => h f (List.mem_append_left _ hf)
      rw [← List.append_assoc, binding_concat, ← hrest]
      obtain ⟨v, hv⟩ : ∃ v, binding (ops ++ ops') k = some v := by
        rw [← Option.isSome_iff_exists, binding_isSome, List.any_append, ← binding_isSome, hins,
          Bool.true_or]
      rw [hv, bindStep]
      by_cases hop : op.inserts k = true
      · rw [if_pos hop]
        cases op with
        | put k' v' => rfl
        | intern k' f =>
            obtain rfl : k' = k := of_decide_eq_true hop
            exact absurd (List.mem_append_right _ List.mem_cons_self) (h f)
        | has k' => exact absurd hop Bool.false_ne_true
        | get k' => exact absurd hop Bool.false_ne_true
      · rw [if_neg hop]

/-- **`StrMap` is a finite map**, for any hash function: every probe of every
list of calls ends; a key is there when it was inserted before; its value is
the one of its first insertion, which is NULL when that was `smap_intern`; its
number is what interning it made it and stays until it is interned again;
growing keeps all of that. -/
theorem smapRun_spec (hash : List UInt8 → UInt64) (ops : List SmapOp) :
    ∃ m, smapRun hash ops = some m
      ∧ (∀ k, smapHas hash m k = some (ops.any (SmapOp.inserts k)))
      ∧ (∀ k, smapGet hash m k = some ((ops.find? (SmapOp.inserts k)).bind SmapOp.value))
      ∧ (∀ k, smapNum hash m k = some (((binding ops k).map Prod.snd).getD 0))
      ∧ (∀ k ops' m', ops.any (SmapOp.inserts k) = true → (∀ f, SmapOp.intern k f ∉ ops') →
        smapRun hash (ops ++ ops') = some m' → smapNum hash m' k = smapNum hash m k)
      ∧ ∃ m', smapGrow hash m = some m' ∧ ∀ k, smapHas hash m' k = smapHas hash m k
        ∧ smapGet hash m' k = smapGet hash m k ∧ smapNum hash m' k = smapNum hash m k := by
  obtain ⟨m, hrun, hbinds⟩ := smapRun_binds hash ops
  obtain ⟨m₁, hgrow, hbinds₁, -⟩ := hbinds.grow
  refine ⟨m, hrun, fun k => ?_, fun k => ?_, hbinds.num, fun k ops' m' hins hno hrun' => ?_, m₁, hgrow,
    fun k => ⟨?_, ?_, ?_⟩⟩
  · rw [hbinds.has, binding_isSome]
  · have hvalue := binding_value ops k
    rw [hbinds.get]
    cases hb : binding ops k with
    | none =>
        rw [hb, Option.map_none, eq_comm, Option.map_eq_none_iff] at hvalue
        rw [hvalue]
        rfl
    | some v =>
        rw [hb, Option.map_some] at hvalue
        obtain ⟨op, hfind, hop⟩ := Option.map_eq_some_iff.mp hvalue.symm
        rw [hfind, Option.bind_some, Option.bind_some, hop]
  · obtain ⟨m₂, hrun₂, hbinds₂⟩ := smapRun_binds hash (ops ++ ops')
    obtain rfl := Option.some.inj (hrun₂.symm.trans hrun')
    rw [hbinds₂.num, hbinds.num, binding_num_append (by rw [binding_isSome]; exact hins) hno]
  · rw [hbinds₁.has, hbinds.has]
  · rw [hbinds₁.get, hbinds.get]
  · rw [hbinds₁.num, hbinds.num]

/-- The value of the first `smap_put` of a key. -/
def firstPut (ops : List SmapOp) (k : List UInt8) : Option (List UInt8) :=
  (ops.find? fun op => match op with
    | .put k' _ => decide (k' = k)
    | _ => false).bind SmapOp.value

/-- `smap_intern` of a key and then `smap_put`: there is no value. -/
theorem not_smapGet_firstPut :
    ¬ ∀ (hash : List UInt8 → UInt64) (ops : List SmapOp) (k : List UInt8), ∃ m,
      smapRun hash ops = some m ∧ smapGet hash m k = some (firstPut ops k) := by
  intro h
  obtain ⟨m, hrun, hget⟩ := h strFnv [.intern [0x61] fun _ n => n, .put [0x61] (some [0x78])] [0x61]
  obtain ⟨m', hrun', hbinds⟩ :=
    smapRun_binds strFnv [.intern [0x61] fun _ n => n, .put [0x61] (some [0x78])]
  obtain rfl := Option.some.inj (hrun.symm.trans hrun')
  rw [hbinds.get] at hget
  exact absurd (Option.some.inj hget) (by decide)

end Montauk.Cli
