import Mathlib.Data.List.Perm.Basic
import Mathlib.Algebra.Order.Ring.Int
import Mathlib.Data.Int.ModEq
import Mathlib.Data.Nat.Find

/-!
# Open addressing

A hash table in one array of slots, a power of two many. A key is looked for
from the slot its hash names, one slot after the other and around the end,
until it or a free slot is found. `Placed` says what makes that right: no key
twice, and no free slot between the home of a key and the slot it is in.
It holds of any hash function; that a probe ends only takes a free slot.
-/

namespace Montauk.Probing

variable {ε κ : Type}

/-! ## Probing -/

/-- Slot `t` of the probe that starts at `i`. -/
def at_ (n i t : Nat) : Nat := (i + t) % n

/-- `while (!stop(slots[i])) i = (i + 1) & (cap - 1);` -/
def probe (stop : Option ε → Bool) (slots : List (Option ε)) : Nat → Nat → Option Nat
  | 0, _ => none
  | fuel + 1, i => do
      let s ← slots[i]?
      if stop s then some i else probe stop slots fuel ((i + 1) &&& (slots.length - 1))

def home (hash : κ → UInt64) (cap : Nat) (k : κ) : Nat := (hash k).toNat &&& (cap - 1)

/-- A free slot, or the one that holds `k`. -/
def stopsAt [DecidableEq κ] (key : ε → κ) (k : κ) (s : Option ε) : Bool :=
  match s with
  | none => true
  | some e => key e == k

/-- The slot of a key, or the free slot where it would go. -/
def findSlot [DecidableEq κ] (hash : κ → UInt64) (key : ε → κ) (slots : List (Option ε)) (k : κ) : Option Nat :=
  probe (stopsAt key k) slots slots.length (home hash slots.length k)

/-- The first free slot on the way of a key. -/
def freeSlot (hash : κ → UInt64) (slots : List (Option ε)) (k : κ) : Option Nat :=
  probe Option.isNone slots slots.length (home hash slots.length k)

def entries (slots : List (Option ε)) : List ε := slots.filterMap id

/-- Every entry of a table put into another one. -/
def moveAll (hash : κ → UInt64) (key : ε → κ) : List (Option ε) → List (Option ε) →
    Option (List (Option ε))
  | [], slots => some slots
  | none :: old, slots => moveAll hash key old slots
  | some e :: old, slots => do
      let p ← freeSlot hash slots (key e)
      moveAll hash key old (slots.set p (some e))

/-- A table of twice the size with the same entries. -/
def grow (hash : κ → UInt64) (key : ε → κ) (slots : List (Option ε)) : Option (List (Option ε)) :=
  moveAll hash key slots (List.replicate (slots.length * 2) none)

variable {hash : κ → UInt64} {key : ε → κ} {slots : List (Option ε)} {k : κ} {e : ε} {i n p t m : Nat}

theorem and_pred_eq_mod (h : n = 2 ^ m) (x : Nat) : x &&& (n - 1) = x % n := by
  rw [h, Nat.and_two_pow_sub_one_eq_mod]

theorem home_lt (hash : κ → UInt64) (k : κ) (h : n = 2 ^ m) : home hash n k < n := by
  rw [home, and_pred_eq_mod h]
  exact Nat.mod_lt _ (by rw [h]; exact Nat.two_pow_pos m)

theorem at_zero (h : i < n) : at_ n i 0 = i := Nat.mod_eq_of_lt h

theorem at_succ (n i t : Nat) : at_ n ((i + 1) % n) t = at_ n i (t + 1) := by
  rw [at_, at_, Nat.mod_add_mod]
  congr 1
  omega

theorem at_inj {t t' : Nat} (ht : t < n) (ht' : t' < n) (h : at_ n i t = at_ n i t') : t = t' := by
  have hmod : (i + t) % n = (i + t') % n := h
  have hcancel : t % n = t' % n := Nat.ModEq.add_left_cancel' i hmod
  rwa [Nat.mod_eq_of_lt ht, Nat.mod_eq_of_lt ht'] at hcancel

theorem exists_at (hi : i < n) (hp : p < n) : ∃ t, t < n ∧ at_ n i t = p := by
  by_cases hle : i ≤ p
  · refine ⟨p - i, by omega, ?_⟩
    rw [at_, Nat.add_sub_cancel' hle, Nat.mod_eq_of_lt hp]
  · refine ⟨p + n - i, by omega, ?_⟩
    have hsum : i + (p + n - i) = p + n := by omega
    rw [at_, hsum, Nat.add_mod_right, Nat.mod_eq_of_lt hp]

theorem probe_eq {stop : Option ε → Bool} (hn : slots.length = 2 ^ m) {s : Option ε} {fuel : Nat}
    (hi : i < slots.length) (hs : slots[at_ slots.length i t]? = some s) (hstop : stop s = true)
    (hfirst : ∀ t' < t, ∀ s', slots[at_ slots.length i t']? = some s' → stop s' = false)
    (hfuel : t < fuel) : probe stop slots fuel i = some (at_ slots.length i t) := by
  induction fuel generalizing i t with
  | zero => exact absurd hfuel (Nat.not_lt_zero _)
  | succ fuel ih =>
      rw [probe]
      cases t with
      | zero =>
          rw [at_zero hi] at hs ⊢
          rw [hs, Option.bind_eq_bind, Option.bind_some, if_pos hstop]
      | succ t =>
          have hnow := hfirst 0 (Nat.succ_pos t) (slots[i])
            (by rw [at_zero hi, List.getElem?_eq_getElem hi])
          rw [List.getElem?_eq_getElem hi, Option.bind_eq_bind, Option.bind_some,
            if_neg (by rw [hnow]; exact Bool.false_ne_true), and_pred_eq_mod hn, ← at_succ]
          refine ih (Nat.mod_lt _ (by omega)) (by rwa [at_succ]) (fun t' ht' s' hs' => ?_) (by omega)
          rw [at_succ] at hs'
          exact hfirst (t' + 1) (by omega) s' hs'

theorem exists_probe (stop : Option ε → Bool) (hn : slots.length = 2 ^ m) {s : Option ε}
    (hi : i < slots.length) (hp : slots[p]? = some s) (hstop : stop s = true) :
    ∃ t s', t < slots.length ∧ probe stop slots slots.length i = some (at_ slots.length i t)
      ∧ slots[at_ slots.length i t]? = some s' ∧ stop s' = true
      ∧ ∀ t' < t, ∀ s', slots[at_ slots.length i t']? = some s' → stop s' = false := by
  obtain ⟨hplt, -⟩ := List.getElem?_eq_some_iff.mp hp
  obtain ⟨t₀, ht₀, hat⟩ := exists_at hi hplt
  have hex : ∃ t s', slots[at_ slots.length i t]? = some s' ∧ stop s' = true :=
    ⟨t₀, s, by rw [hat, hp], hstop⟩
  classical
  obtain ⟨s', hs', hstop'⟩ := Nat.find_spec hex
  have hle : Nat.find hex ≤ t₀ := Nat.find_min' hex ⟨s, by rw [hat, hp], hstop⟩
  have hfirst : ∀ t' < Nat.find hex, ∀ s', slots[at_ slots.length i t']? = some s' →
      stop s' = false := by
    intro t' ht' s₁ hs₁
    by_contra hne
    exact Nat.find_min hex ht' ⟨s₁, hs₁, by rwa [Bool.not_eq_false] at hne⟩
  exact ⟨Nat.find hex, s', by omega, probe_eq hn hi hs' hstop' hfirst (by omega), hs', hstop',
    hfirst⟩

/-! ## The invariant -/

/-- Slot `p` is on the way of `k`, behind occupied slots only. -/
def OnWay (hash : κ → UInt64) (slots : List (Option ε)) (k : κ) (p : Nat) : Prop :=
  ∃ t < slots.length, at_ slots.length (home hash slots.length k) t = p
    ∧ ∀ t' < t, slots[at_ slots.length (home hash slots.length k) t']? ≠ some none

/-- No key twice, every key on its way. -/
structure Placed (hash : κ → UInt64) (key : ε → κ) (slots : List (Option ε)) : Prop where
  size : ∃ m, slots.length = 2 ^ m
  reach : ∀ (p : Nat) (e : ε), slots[p]? = some (some e) → OnWay hash slots (key e) p
  unique : ∀ (p q : Nat) (e e' : ε), slots[p]? = some (some e) → slots[q]? = some (some e') → key e = key e' → p = q

def Free (slots : List (Option ε)) : Prop := none ∈ slots

theorem mem_entries : e ∈ entries slots ↔ ∃ p : Nat, slots[p]? = some (some e) := by
  rw [entries, List.mem_filterMap]
  constructor
  · rintro ⟨s, hs, rfl⟩
    exact List.mem_iff_getElem?.mp hs
  · rintro ⟨p, hp⟩
    exact ⟨some e, List.mem_of_getElem? hp, rfl⟩

theorem placed_empty (hn : n = 2 ^ m) : Placed hash key (List.replicate n (none : Option ε)) where
  size := ⟨m, by rw [List.length_replicate, hn]⟩
  reach p e he := by
    obtain ⟨hp, he⟩ := List.getElem?_eq_some_iff.mp he
    rw [List.getElem_replicate] at he
    exact absurd he nofun
  unique p q e e' he := by
    obtain ⟨hp, he⟩ := List.getElem?_eq_some_iff.mp he
    rw [List.getElem_replicate] at he
    exact absurd he nofun

theorem entries_replicate (n : Nat) : entries (List.replicate n (none : Option ε)) = [] := by
  induction n with
  | zero => rfl
  | succ n ih => exact ih

variable [DecidableEq κ]

theorem Placed.findSlot_eq (h : Placed hash key slots) (hp : slots[p]? = some (some e)) :
    findSlot hash key slots (key e) = some p := by
  obtain ⟨m, hm⟩ := h.size
  obtain ⟨t, ht, hat, hway⟩ := h.reach p e hp
  rw [findSlot, ← hat]
  refine probe_eq hm (home_lt hash (key e) hm) (s := some e) (by rw [hat, hp]) (beq_self_eq_true _) ?_ ht
  intro t' ht' s' hs'
  cases s' with
  | none => exact absurd hs' (hway t' ht')
  | some e' =>
      rw [stopsAt, beq_eq_false_iff_ne]
      intro hkey
      have hsame := h.unique _ p e' e hs' hp hkey
      rw [← hat] at hsame
      exact absurd (at_inj (by omega) ht hsame) (by omega)

theorem Placed.findSlot_free (h : Placed hash key slots) (hfree : Free slots)
    (habsent : ∀ e ∈ entries slots, key e ≠ k) :
    ∃ p : Nat, findSlot hash key slots k = some p ∧ slots[p]? = some none ∧ OnWay hash slots k p := by
  obtain ⟨m, hm⟩ := h.size
  obtain ⟨q, hq⟩ := List.mem_iff_getElem?.mp hfree
  obtain ⟨t, s, ht, hprobe, hs, hstop, hfirst⟩ :=
    exists_probe (stopsAt key k) hm (home_lt hash k hm) hq rfl
  refine ⟨_, hprobe, ?_, t, ht, rfl, fun t' ht' hnone => ?_⟩
  · cases s with
    | none => exact hs
    | some e => exact absurd (beq_iff_eq.mp hstop) (habsent e (mem_entries.mpr ⟨_, hs⟩))
  · exact absurd (hfirst t' ht' none hnone) (nofun : true ≠ false)

omit [DecidableEq κ] in
theorem Placed.freeSlot (h : Placed hash key slots) (hfree : Free slots) (k : κ) :
    ∃ p : Nat, freeSlot hash slots k = some p ∧ slots[p]? = some none ∧ OnWay hash slots k p := by
  obtain ⟨m, hm⟩ := h.size
  obtain ⟨q, hq⟩ := List.mem_iff_getElem?.mp hfree
  obtain ⟨t, s, ht, hprobe, hs, hstop, hfirst⟩ := exists_probe Option.isNone hm (home_lt hash k hm) hq rfl
  rw [Option.isNone_iff_eq_none] at hstop
  rw [hstop] at hs
  exact ⟨_, hprobe, hs, t, ht, rfl, fun t' ht' hnone =>
    absurd (hfirst t' ht' none hnone) (nofun : true ≠ false)⟩

omit [DecidableEq κ]

/-! ## Writing a slot -/

theorem exists_split {s : Option ε} (h : slots[p]? = some s) :
    ∃ l l', slots = l ++ s :: l' ∧ ∀ s', slots.set p s' = l ++ s' :: l' := by
  obtain ⟨hp, rfl⟩ := List.getElem?_eq_some_iff.mp h
  refine ⟨slots.take p, slots.drop (p + 1), ?_, fun s' => ?_⟩
  · rw [← List.drop_eq_getElem_cons hp, List.take_append_drop]
  · rw [List.set_eq_take_append_cons_drop, if_pos hp]

theorem entries_append (l l' : List (Option ε)) : entries (l ++ l') = entries l ++ entries l' :=
  List.filterMap_append

theorem entries_some (e : ε) (l : List (Option ε)) : entries (some e :: l) = e :: entries l := rfl

theorem entries_none (l : List (Option ε)) : entries (none :: l) = entries l := rfl

theorem entries_fill (h : slots[p]? = some none) (e : ε) :
    (entries (slots.set p (some e))).Perm (e :: entries slots) := by
  obtain ⟨l, l', rfl, hset⟩ := exists_split h
  rw [hset, entries_append, entries_append, entries_some, entries_none]
  exact List.perm_middle

theorem free_of_length (h : (entries slots).length < slots.length) : Free slots := by
  by_contra hfull
  have hall : ∀ l : List (Option ε), none ∉ l → (entries l).length = l.length := by
    intro l hl
    induction l with
    | nil => rfl
    | cons s l ih =>
        cases s with
        | none => exact absurd List.mem_cons_self hl
        | some e =>
            rw [entries_some, List.length_cons, List.length_cons,
              ih fun hmem => hl (List.mem_cons_of_mem _ hmem)]
  rw [hall slots hfull] at h
  exact Nat.lt_irrefl _ h

theorem getElem?_set_some_ne_none {q : Nat} (h : slots[q]? ≠ some none) (e : ε) :
    (slots.set p (some e))[q]? ≠ some none := by
  rw [List.getElem?_set]
  split
  · split
    · exact fun hnone => absurd (Option.some.inj hnone) nofun
    · exact nofun
  · exact h

/-- Slots that are filled stay out of nobody's way. -/
theorem OnWay.set {q : Nat} (h : OnWay hash slots k q) (e : ε) :
    OnWay hash (slots.set p (some e)) k q := by
  obtain ⟨t, ht, hat, hway⟩ := h
  rw [OnWay, List.length_set]
  exact ⟨t, ht, hat, fun t' ht' => getElem?_set_some_ne_none (hway t' ht') e⟩

theorem Placed.insert (h : Placed hash key slots) (hp : slots[p]? = some none)
    (hway : OnWay hash slots (key e) p) (habsent : ∀ e' ∈ entries slots, key e' ≠ key e) :
    Placed hash key (slots.set p (some e)) := by
  have hcases : ∀ {q : Nat} {e₁}, (slots.set p (some e))[q]? = some (some e₁) →
      q = p ∧ e₁ = e ∨ slots[q]? = some (some e₁) := by
    intro q e₁ hq
    rw [List.getElem?_set] at hq
    by_cases hqp : p = q
    · rw [if_pos hqp] at hq
      split at hq
      · exact Or.inl ⟨hqp.symm, (Option.some.inj (Option.some.inj hq)).symm⟩
      · exact absurd hq nofun
    · rw [if_neg hqp] at hq
      exact Or.inr hq
  have hnew : ∀ {q : Nat} {e₁}, slots[q]? = some (some e₁) → key e₁ ≠ key e :=
    fun hq => habsent _ (mem_entries.mpr ⟨_, hq⟩)
  refine ⟨?_, fun q e₁ hq => ?_, fun q q' e₁ e₂ hq hq' hkey => ?_⟩
  · rw [List.length_set]
    exact h.size
  · rcases hcases hq with ⟨rfl, rfl⟩ | hold
    · exact hway.set _
    · exact (h.reach q e₁ hold).set e
  · rcases hcases hq with ⟨rfl, rfl⟩ | hold
    · rcases hcases hq' with ⟨rfl, rfl⟩ | hold'
      · rfl
      · exact absurd hkey.symm (hnew hold')
    · rcases hcases hq' with ⟨rfl, rfl⟩ | hold'
      · exact absurd hkey (hnew hold)
      · exact h.unique q q' e₁ e₂ hold hold' hkey

theorem Placed.update (h : Placed hash key slots) (hp : slots[p]? = some (some e)) {e' : ε}
    (hkey : key e' = key e) : Placed hash key (slots.set p (some e')) := by
  have hcases : ∀ {q : Nat} {e₁}, (slots.set p (some e'))[q]? = some (some e₁) →
      ∃ e₀, slots[q]? = some (some e₀) ∧ key e₁ = key e₀ := by
    intro q e₁ hq
    rw [List.getElem?_set] at hq
    by_cases hqp : p = q
    · rw [if_pos hqp] at hq
      split at hq
      · refine ⟨e, hqp ▸ hp, ?_⟩
        rw [← Option.some.inj (Option.some.inj hq), hkey]
      · exact absurd hq nofun
    · rw [if_neg hqp] at hq
      exact ⟨e₁, hq, rfl⟩
  refine ⟨?_, fun q e₁ hq => ?_, fun q q' e₁ e₂ hq hq' hsame => ?_⟩
  · rw [List.length_set]
    exact h.size
  · obtain ⟨e₀, hold, hk⟩ := hcases hq
    rw [hk]
    exact (h.reach q e₀ hold).set e'
  · obtain ⟨e₀, hold, hk⟩ := hcases hq
    obtain ⟨e₃, hold', hk'⟩ := hcases hq'
    exact h.unique q q' e₀ e₃ hold hold' (by rw [← hk, hsame, hk'])

theorem Placed.nodup (h : Placed hash key slots) : ((entries slots).map key).Nodup := by
  have haux : ∀ (l : List (Option ε)), (∀ (p q : Nat) (e e' : ε), l[p]? = some (some e) →
      l[q]? = some (some e') → key e = key e' → p = q) → ((entries l).map key).Nodup := by
    intro l hl
    induction l with
    | nil => exact List.nodup_nil
    | cons s l ih =>
        have htail := ih fun p q e e' hp hq hkey =>
          Nat.succ_injective (hl (p + 1) (q + 1) e e' (by rwa [List.getElem?_cons_succ])
            (by rwa [List.getElem?_cons_succ]) hkey)
        cases s with
        | none => exact htail
        | some e =>
            rw [entries_some, List.map_cons, List.nodup_cons]
            refine ⟨fun hmem => ?_, htail⟩
            obtain ⟨e', he', hkey⟩ := List.mem_map.mp hmem
            obtain ⟨q, hq⟩ := mem_entries.mp he'
            exact absurd (hl 0 (q + 1) e e' rfl (by rwa [List.getElem?_cons_succ]) hkey.symm) nofun
  exact haux slots h.unique

theorem Placed.entries_update (h : Placed hash key slots) [DecidableEq κ]
    (hp : slots[p]? = some (some e)) (f : ε → ε) :
    entries (slots.set p (some (f e)))
      = (entries slots).map fun x => if key x = key e then f x else x := by
  have hnodup := h.nodup
  obtain ⟨l, l', rfl, hset⟩ := exists_split hp
  rw [hset, entries_append, entries_append, entries_some, entries_some, List.map_append,
    List.map_cons, if_pos rfl]
  rw [entries_append, entries_some, List.map_append, List.map_cons, List.nodup_append,
    List.nodup_cons] at hnodup
  have hfront : ∀ x ∈ entries l, (if key x = key e then f x else x) = x := fun x hx =>
    if_neg (hnodup.2.2 _ (List.mem_map_of_mem hx) _ List.mem_cons_self)
  have hback : ∀ x ∈ entries l', (if key x = key e then f x else x) = x := fun x hx =>
    if_neg fun hkey : key x = key e => hnodup.2.1.1 (hkey ▸ List.mem_map_of_mem hx)
  rw [List.map_congr_left hfront, List.map_congr_left hback, List.map_id', List.map_id']

/-! ## Growing -/

theorem moveAll_spec (old : List (Option ε)) (h : Placed hash key slots)
    (hnodup : ((entries old ++ entries slots).map key).Nodup)
    (hroom : (entries old).length + (entries slots).length < slots.length) :
    ∃ slots', moveAll hash key old slots = some slots' ∧ Placed hash key slots'
      ∧ slots'.length = slots.length ∧ (entries slots').Perm (entries old ++ entries slots) := by
  induction old generalizing slots with
  | nil => exact ⟨slots, rfl, h, rfl, List.Perm.refl _⟩
  | cons s old ih =>
      cases s with
      | none => exact ih h hnodup hroom
      | some e =>
          rw [entries_some, List.length_cons] at hroom
          rw [entries_some, List.cons_append, List.map_cons, List.nodup_cons] at hnodup
          obtain ⟨p, hfree, hp, hway⟩ := h.freeSlot (free_of_length (by omega)) (key e)
          have habsent : ∀ e' ∈ entries slots, key e' ≠ key e := fun e' he' hkey =>
            hnodup.1 (hkey ▸ List.mem_map_of_mem (List.mem_append_right _ he'))
          have hfill := entries_fill hp e
          have hperm : (entries old ++ entries (slots.set p (some e))).Perm
              (e :: (entries old ++ entries slots)) :=
            (hfill.append_left _).trans List.perm_middle
          obtain ⟨slots', hrun, hplaced, hlen, hent⟩ := ih (h.insert hp hway habsent)
            ((hperm.map key).nodup_iff.mpr (List.nodup_cons.mpr hnodup))
            (by rw [hfill.length_eq, List.length_set, List.length_cons]; omega)
          refine ⟨slots', ?_, hplaced, by rw [hlen, List.length_set], hent.trans hperm⟩
          rw [moveAll, hfree, Option.bind_eq_bind, Option.bind_some, hrun]

/-- **Growing** keeps every entry. -/
theorem Placed.grow (h : Placed hash key slots) :
    ∃ slots', grow hash key slots = some slots' ∧ Placed hash key slots'
      ∧ slots'.length = slots.length * 2 ∧ (entries slots').Perm (entries slots) := by
  obtain ⟨m, hm⟩ := h.size
  have hpos : 0 < slots.length := by rw [hm]; exact Nat.two_pow_pos m
  have hle : (entries slots).length ≤ slots.length := List.length_filterMap_le _ _
  have hempty : Placed hash key (List.replicate (slots.length * 2) (none : Option ε)) :=
    placed_empty (m := m + 1) (by rw [hm, Nat.pow_succ])
  obtain ⟨slots', hrun, hplaced, hlen, hent⟩ := moveAll_spec slots hempty
    (by rw [entries_replicate, List.append_nil]; exact h.nodup)
    (by rw [entries_replicate, List.length_replicate, List.length_nil]; omega)
  rw [List.length_replicate] at hlen
  rw [entries_replicate, List.append_nil] at hent
  exact ⟨slots', hrun, hplaced, hlen, hent⟩

end Montauk.Probing
