import Mathlib.Order.Basic
import Montauk.Sort.Buffer

/-!
# Joining neighbours with union-find

A row of `m` things is joined pairwise into groups of neighbours: boundary `j`
separates `j` and `j + 1`, and once it has been joined the two are in one
group. The groups are kept in a union-find array in which every root is the
first of its group (`Roots`); `uf_find` follows the parents and halves the path
on its way. It finds the first of the group (`ufFind_spec`), and joining the
group that ends at a boundary with the one that starts there keeps the array
(`Roots.join`).
-/

namespace Montauk.Sort

/-- `uf_find`: the root, and the array with the path halved. -/
def ufFind : Nat → List Nat → Nat → Option (Nat × List Nat)
  | 0, _, _ => none
  | n + 1, parent, x => do
      let p ← load parent x
      if p ≠ x then
        let g ← load parent p
        let parent ← store parent x g
        ufFind n parent g
      else some (x, parent)

/-! ## Groups -/

variable {D : Nat → Prop} {m a b c e x y : Nat} {parent : List Nat}

/-- Everything from `a` to `b` is in one group. -/
def Joined (D : Nat → Prop) (a b : Nat) : Prop := ∀ j, a ≤ j → j < b → D j

/-- A group starts at `x`. -/
def Start (D : Nat → Prop) (x : Nat) : Prop := x = 0 ∨ ¬ D (x - 1)

/-- The group from `x` up to `e`. -/
structure Group (D : Nat → Prop) (m x e : Nat) : Prop where
  lt : x < e
  le : e ≤ m
  start : Start D x
  joined : Joined D x (e - 1)
  stop : e = m ∨ ¬ D (e - 1)

theorem Joined.trans (h : Joined D a b) (h' : Joined D b c) : Joined D a c := by
  intro j ha hc
  rcases Nat.lt_or_ge j b with hj | hj
  · exact h j ha hj
  · exact h' j hj hc

theorem Joined.refl (a : Nat) : Joined D a a := fun _ h h' => absurd h' (Nat.not_lt.mpr h)

theorem Start.eq_of_joined (ha : Start D a) (hb : Start D b) (hax : a ≤ x) (hbx : b ≤ x)
    (hja : Joined D a x) (hjb : Joined D b x) : a = b := by
  rcases Nat.lt_trichotomy a b with hab | hab | hab
  · rcases hb with hb | hb
    · omega
    · exact absurd (hja (b - 1) (by omega) (by omega)) hb
  · exact hab
  · rcases ha with ha | ha
    · omega
    · exact absurd (hjb (a - 1) (by omega) (by omega)) ha

theorem exists_group_end (hx : x < m) :
    ∃ e, x < e ∧ e ≤ m ∧ Joined D x (e - 1) ∧ (e = m ∨ ¬ D (e - 1)) := by
  obtain ⟨d, hd⟩ : ∃ d, m = x + 1 + d := ⟨m - (x + 1), by omega⟩
  induction d generalizing x with
  | zero => exact ⟨m, hx, Nat.le_refl m, fun j h h' => by omega, .inl rfl⟩
  | succ d ih =>
      by_cases hD : D x
      · obtain ⟨e, hlt, hle, hjoin, hstop⟩ := ih (x := x + 1) (by omega) (by omega)
        refine ⟨e, by omega, hle, fun j h h' => ?_, hstop⟩
        rcases Nat.eq_or_lt_of_le h with rfl | h
        · exact hD
        · exact hjoin j h h'
      · exact ⟨x + 1, by omega, by omega, fun j h h' => by omega, .inr hD⟩

theorem Start.exists_group (h : Start D x) (hx : x < m) : ∃ e, Group D m x e := by
  obtain ⟨e, hlt, hle, hjoin, hstop⟩ := exists_group_end (D := D) hx
  exact ⟨e, hlt, hle, h, hjoin, hstop⟩

/-- With boundary `b` joined. -/
def joinAt (D : Nat → Prop) (b : Nat) : Nat → Prop := fun j => D j ∨ j = b

theorem Start.of_joinAt (h : Start (joinAt D b) x) : Start D x :=
  h.imp id fun hx hD => hx (.inl hD)

theorem Joined.joinAt (h : Joined D x y) (b : Nat) : Joined (joinAt D b) x y :=
  fun j hx hy => .inl (h j hx hy)

/-- Joining boundary `b` joins the group that ends there with the one that
starts there, and no others. -/
theorem Group.of_joinAt {r : Nat} (hr : Group D m r (b + 1)) (he : Group D m (b + 1) e)
    (h : Group (joinAt D b) m x y) :
    (x = r ∧ y = e) ∨ (Group D m x y ∧ (y ≤ r ∨ e ≤ x)) := by
  have hrb := hr.lt
  have heb := he.lt
  -- inside the two groups every boundary is joined now
  have hinside : ∀ j, r ≤ j → j < e - 1 → Montauk.Sort.joinAt D b j := by
    intro j hj hje
    rcases Nat.lt_trichotomy j b with hlt | heq | hgt
    · exact .inl (hr.joined j hj (by omega))
    · exact .inr heq
    · exact .inl (he.joined j (by omega) hje)
  by_cases hapart : y ≤ r ∨ e ≤ x
  · refine .inr ⟨⟨h.lt, h.le, h.start.of_joinAt, fun j hx hy => ?_, ?_⟩, hapart⟩
    · rcases h.joined j hx hy with hD | rfl
      · exact hD
      · omega
    · exact h.stop.imp id fun hno hD => hno (.inl hD)
  · left
    have hxr : x = r := by
      rcases Nat.lt_trichotomy x r with hlt | heq | hgt
      · rcases h.joined (r - 1) (by omega) (by omega) with hD | hb
        · rcases hr.start with hzero | hno
          · omega
          · exact absurd hD hno
        · omega
      · exact heq
      · rcases h.start with hzero | hno
        · omega
        · exact absurd (hinside (x - 1) (by omega) (by omega)) hno
    have hle := he.le
    have hle' := h.le
    have hlt' := h.lt
    refine ⟨hxr, ?_⟩
    rcases Nat.lt_trichotomy y e with hlt | heq | hgt
    · rcases h.stop with hend | hno
      · omega
      · exact absurd (hinside (y - 1) (by omega) (by omega)) hno
    · exact heq
    · rcases h.joined (e - 1) (by omega) (by omega) with hD | hb
      · rcases he.stop with hend | hno
        · omega
        · exact absurd hD hno
      · omega

/-! ## The array -/

/-- Every parent is in the same group and not behind, and a root is the first
of its group. -/
def Roots (D : Nat → Prop) (m : Nat) (parent : List Nat) : Prop :=
  ∀ x < m, ∃ p, load parent x = some p ∧ p ≤ x ∧ Joined D p x ∧ (p = x → Start D x)

theorem Roots.range (m : Nat) : Roots (fun _ => False) m (List.range m) := by
  intro x hx
  refine ⟨x, ?_, Nat.le_refl x, .refl x, fun _ => .inr id⟩
  rw [load, List.getElem?_range hx]

theorem Roots.length_le (h : Roots D m parent) : m ≤ parent.length := by
  by_contra hlen
  obtain ⟨p, hp, -⟩ := h parent.length (by omega)
  rw [load, List.getElem?_eq_none (Nat.le_refl _)] at hp
  cases hp

theorem Roots.store (h : Roots D m parent) {p : Nat} (hx : x < m) (hp : p ≤ x)
    (hjoin : Joined D p x) (hroot : p = x → Start D x) :
    ∃ parent', Montauk.Sort.store parent x p = some parent' ∧ Roots D m parent' := by
  have hlen := h.length_le
  refine ⟨parent.set x p, if_pos (by omega), fun y hy => ?_⟩
  by_cases hyx : y = x
  · subst hyx
    exact ⟨p, by rw [load, List.getElem?_set_self (by omega)], hp, hjoin, hroot⟩
  · obtain ⟨q, hq, hrest⟩ := h y hy
    exact ⟨q, by rw [load, List.getElem?_set_ne (fun h => hyx h.symm)]; exact hq, hrest⟩

/-- **`uf_find` finds the first of the group.** -/
theorem ufFind_spec {n : Nat} (h : Roots D m parent) (hx : x < m) (hn : x < n) :
    ∃ r parent', ufFind n parent x = some (r, parent') ∧ Roots D m parent' ∧ r ≤ x
      ∧ Start D r ∧ Joined D r x := by
  induction n generalizing parent x with
  | zero => exact absurd hn (Nat.not_lt_zero _)
  | succ n ih =>
      obtain ⟨p, hp, hpx, hjoin, hroot⟩ := h x hx
      rw [ufFind, hp]
      show ∃ r parent', (if p ≠ x then _ else _) = _ ∧ _
      by_cases hne : p ≠ x
      · obtain ⟨g, hg, hgp, hjoin', hroot'⟩ := h p (by omega)
        have hgx : Joined D g x := hjoin'.trans hjoin
        obtain ⟨parent₁, hset, h₁⟩ := h.store hx (by omega) hgx (by omega)
        obtain ⟨r, parent₂, hrun, h₂, hr, hstart, hjoin₂⟩ := ih h₁ (x := g) (by omega) (by omega)
        refine ⟨r, parent₂, ?_, h₂, by omega, hstart, hjoin₂.trans hgx⟩
        rw [if_pos hne, hg]
        show (Montauk.Sort.store parent x g).bind _ = _
        rw [hset]
        exact hrun
      · rw [if_neg hne]
        have hpx' : p = x := not_not.mp hne
        exact ⟨x, parent, rfl, h, Nat.le_refl x, hroot hpx', .refl x⟩

/-- Hanging the group behind boundary `b` under the one in front of it. -/
theorem Roots.join {r : Nat} (h : Roots D m parent) (hb : b + 1 < m) (hr : r ≤ b)
    (hjoin : Joined D r b) :
    ∃ parent', Montauk.Sort.store parent (b + 1) r = some parent'
      ∧ Roots (joinAt D b) m parent' := by
  have hlen := h.length_le
  refine ⟨parent.set (b + 1) r, if_pos (by omega), fun y hy => ?_⟩
  by_cases hyb : y = b + 1
  · subst hyb
    refine ⟨r, by rw [load, List.getElem?_set_self (by omega)], by omega, ?_, by omega⟩
    intro j hj hjb
    rcases Nat.eq_or_lt_of_le (Nat.le_of_lt_succ hjb) with rfl | hlt
    · exact .inr rfl
    · exact .inl (hjoin j hj hlt)
  · obtain ⟨p, hp, hpy, hjoin', hroot⟩ := h y hy
    refine ⟨p, by rw [load, List.getElem?_set_ne (fun h => hyb h.symm)]; exact hp, hpy,
      hjoin'.joinAt b, fun heq => ?_⟩
    rcases Nat.eq_zero_or_pos y with hzero | hpos
    · exact .inl hzero
    · rcases hroot heq with hzero | hno
      · exact .inl hzero
      · refine .inr fun hD => ?_
        rcases hD with hD | hD
        · exact hno hD
        · omega

end Montauk.Sort
