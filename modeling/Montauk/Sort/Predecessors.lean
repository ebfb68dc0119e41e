import Montauk.Sort.Stable

/-!
# Sorting by the number of predecessors

A comparator that is a strict weak order on the elements of a list is as good
as a key: how many elements stand before an element tells its place, and equal
numbers are the comparator's ties (`predecessors_lt_iff`). So the stable sort by
that number is the stable sort under the comparator
(`StableSort.of_predecessors`). Nothing is asked of the comparator elsewhere.
-/

namespace Montauk.Sort

variable {α : Type*} (less : α → α → Bool)

def Tied (x y : α) : Prop := less x y = false ∧ less y x = false

instance (x y : α) : Decidable (Tied less x y) := inferInstanceAs (Decidable (_ ∧ _))

/-- A strict weak order on the elements of a list. -/
structure WeakOrderOn (v : List α) : Prop where
  irrefl : ∀ x ∈ v, less x x = false
  trans : ∀ x ∈ v, ∀ y ∈ v, ∀ z ∈ v, less x y = true → less y z = true → less x z = true
  ties : ∀ x ∈ v, ∀ y ∈ v, ∀ z ∈ v, Tied less x y → Tied less y z → Tied less x z

/-- `out` is the stable sort of `v`: in order, ties as they were. -/
structure SortedUnder (v out : List α) : Prop where
  perm : out.Perm v
  ordered : out.Pairwise fun x y => less y x = false
  stable : ∀ z ∈ v, out.filter (fun x => Tied less z x) = v.filter (fun x => Tied less z x)

/-- How many elements stand before `x`. -/
def predecessors (v : List α) (x : α) : Nat := v.countP fun y => less y x

variable {less} {v out : List α} {x y z : α}

/-- What does not stand before the middle one, which does not stand before the
last one, does not stand before the last one. -/
theorem WeakOrderOn.not_less (h : WeakOrderOn less v) (hx : x ∈ v) (hy : y ∈ v) (hz : z ∈ v)
    (hxy : less x y = false) (hyz : less y z = false) : less x z = false := by
  rw [Bool.eq_false_iff]
  intro hxz
  have hyx : less y x = false := Bool.eq_false_iff.mpr fun hyx => Bool.eq_false_iff.mp hyz (h.trans y hy x hx z hz hyx hxz)
  have hzy : less z y = false := Bool.eq_false_iff.mpr fun hzy => Bool.eq_false_iff.mp hxy (h.trans x hx z hz y hy hxz hzy)
  exact Bool.eq_false_iff.mp (h.ties x hx y hy z hz ⟨hxy, hyx⟩ ⟨hyz, hzy⟩).1 hxz

theorem countP_lt_countP {p q : α → Bool} {l : List α} (hsub : ∀ y ∈ l, p y = true → q y = true) (hx : x ∈ l)
    (hp : p x = false) (hq : q x = true) : l.countP p < l.countP q := by
  obtain ⟨l1, l2, rfl⟩ := List.append_of_mem hx
  have h1 : l1.countP p ≤ l1.countP q :=
    List.countP_mono_left fun y hy => hsub y (List.mem_append_left _ hy)
  have h2 : l2.countP p ≤ l2.countP q :=
    List.countP_mono_left fun y hy => hsub y (List.mem_append_right _ (List.mem_cons_of_mem _ hy))
  rw [List.countP_append, List.countP_append, List.countP_cons, List.countP_cons, if_neg (Bool.eq_false_iff.mp hp),
    if_pos hq]
  omega

/-- **The number of predecessors orders like the comparator.** -/
theorem predecessors_lt_iff (h : WeakOrderOn less v) (hx : x ∈ v) (hy : y ∈ v) :
    predecessors less v x < predecessors less v y ↔ less x y = true := by
  constructor
  · intro hlt
    by_contra hnot
    have hle : predecessors less v y ≤ predecessors less v x := by
      refine List.countP_mono_left fun z hz hzy => ?_
      by_contra hzx
      rw [h.not_less hz hx hy (Bool.eq_false_iff.mpr hzx) (Bool.eq_false_iff.mpr hnot)] at hzy
      exact Bool.false_ne_true hzy
    omega
  · intro hxy
    exact countP_lt_countP (fun z hz hzx => h.trans z hz x hx y hy hzx hxy) hx (h.irrefl x hx) hxy

theorem predecessors_eq_iff (h : WeakOrderOn less v) (hx : x ∈ v) (hy : y ∈ v) :
    predecessors less v x = predecessors less v y ↔ Tied less x y := by
  have hxy := predecessors_lt_iff h hx hy
  have hyx := predecessors_lt_iff h hy hx
  rw [Tied, Bool.eq_false_iff, Bool.eq_false_iff]
  constructor
  · intro heq
    exact ⟨fun hless => absurd (hxy.mpr hless) (by omega), fun hless => absurd (hyx.mpr hless) (by omega)⟩
  · rintro ⟨hnot, hnot'⟩
    have h1 := mt hxy.mp hnot
    have h2 := mt hyx.mp hnot'
    omega

theorem StableSort.of_predecessors (h : WeakOrderOn less v) (hsort : StableSort (predecessors less v) v out) :
    SortedUnder less v out where
  perm := hsort.perm
  ordered := by
    refine hsort.sorted.imp_of_mem fun {x y} hx hy hle => ?_
    rw [Bool.eq_false_iff]
    intro hyx
    have hlt := (predecessors_lt_iff h (hsort.perm.mem_iff.mp hy) (hsort.perm.mem_iff.mp hx)).mpr hyx
    omega
  stable z hz := by
    have hties : ∀ l : List α, (∀ x ∈ l, x ∈ v) →
        l.filter (fun x => Tied less z x) = ofKey (predecessors less v) (predecessors less v z) l := by
      intro l hl
      refine List.filter_congr fun x hx => decide_eq_decide.mpr ?_
      rw [← predecessors_eq_iff h hz (hl x hx), eq_comm]
    rw [hties out fun x hx => hsort.perm.mem_iff.mp hx, hties v fun x hx => hx, hsort.stable]

end Montauk.Sort
