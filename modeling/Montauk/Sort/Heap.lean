import Montauk.Sort.Ranges

/-!
# Heaps in a range

A binary heap in the cells from `lo` on: the children of cell `x` are
`2 * (x - lo) + 1 + lo` and the next one. `HeapExcept` is what holds while an
element is sifted down: the order is broken at one cell at most, and that
cell's children are not above its parent. `heapSort_spec` is for any comparison
that agrees with the keys.
-/

namespace Montauk.Sort

variable {α κ : Type} [LinearOrder κ] {key : α → κ} {a a' : List α} {lo s e root c x y : Int}

/-- Cell `c` is a child of cell `x`. -/
def Child (lo x c : Int) : Prop := c = 2 * (x - lo) + 1 + lo ∨ c = 2 * (x - lo) + 2 + lo

theorem Child.gt (h : Child lo x c) (hx : lo ≤ x) : x < c := by
  rcases h with rfl | rfl
  · omega
  · omega

theorem Child.unique (h : Child lo x c) (h' : Child lo y c) : x = y := by
  rcases h with rfl | rfl
  · rcases h' with h' | h'
    · omega
    · omega
  · rcases h' with h' | h'
    · omega
    · omega

/-- The parents from `s` on are in order with their children up to `e`. -/
def Heap (key : α → κ) (a : List α) (lo s e : Int) : Prop :=
  ∀ x c, s ≤ x → Child lo x c → c ≤ e → LeAt key a c x

structure HeapExcept (key : α → κ) (a : List α) (lo s e root : Int) : Prop where
  except : ∀ x c, s ≤ x → x ≠ root → Child lo x c → c ≤ e → LeAt key a c x
  grand : ∀ x c, s ≤ x → Child lo x root → Child lo root c → c ≤ e → LeAt key a c x

theorem Heap.extend (h : Heap key a lo (s + 1) e) (hlo : lo ≤ s) : HeapExcept key a lo s e s where
  except x c hx hne := h x c (by omega)
  grand x c hx hchild := absurd (hchild.gt (by omega)) (by omega)

theorem HeapExcept.heap (h : HeapExcept key a lo s e root)
    (hroot : ∀ c, Child lo root c → c ≤ e → LeAt key a c root) : Heap key a lo s e := by
  intro x c hx hchild hc
  by_cases hne : x = root
  · rw [hne]
    exact hroot c (hne ▸ hchild) hc
  · exact h.except x c hx hne hchild hc

/-- The step down: the larger child moves up, the break moves down. -/
theorem HeapExcept.down (h : HeapExcept key a lo s e root) (hlo : lo ≤ s) (hs : s ≤ root)
    (hchild : Child lo root c) (hc : c ≤ e) (hlarge : ∀ d, Child lo root d → d ≤ e → LeAt key a d c)
    (hless : LeAt key a root c) (hx : exchange a root c = some a') : HeapExcept key a' lo s e c := by
  have hgt := hchild.gt (by omega)
  have hmove : ∀ x, x ≠ root → x ≠ c → cell a' x = cell a x :=
    fun x hr hc => cell_exchange_of_ne hx hr hc
  have hroot := cell_exchange_left hx
  have hdown := cell_exchange_right hx
  constructor
  · intro x d hxs hne hd hde
    by_cases hxr : x = root
    · rw [hxr] at hd ⊢
      by_cases hdc : d = c
      · rw [LeAt, hdc, hdown, hroot]
        exact hless
      · rw [LeAt, hmove d (by have := hd.gt (by omega); omega) hdc, hroot]
        exact hlarge d hd hde
    · by_cases hdr : d = root
      · rw [LeAt, hdr, hroot, hmove x hxr hne]
        exact h.grand x c hxs (hdr ▸ hd) hchild hc
      · have hdc : d ≠ c := by
          rintro rfl
          exact hxr (hd.unique hchild)
        rw [LeAt, hmove d hdr hdc, hmove x hxr hne]
        exact h.except x d hxs hxr hd hde
  · intro x d hxs hxc hcd hde
    obtain rfl := hxc.unique hchild
    have hd := hcd.gt (by omega)
    rw [LeAt, hmove d (by omega) (by omega), hroot]
    exact h.except c d (by omega) (by omega) hcd hde

theorem Heap.le_top (h : Heap key a lo lo e) (h0 : 0 ≤ lo) (he : e < a.length) (hx : lo ≤ x)
    (hxe : x ≤ e) : LeAt key a x lo := by
  obtain ⟨n, hn⟩ : ∃ n : Nat, x = lo + n := ⟨(x - lo).toNat, by omega⟩
  induction n using Nat.strongRecOn generalizing x with
  | ind n ih =>
      cases n with
      | zero =>
          obtain rfl : x = lo := by omega
          intro u v hu hv
          rw [hu] at hv
          exact le_of_eq (congrArg key (Option.some.inj hv))
      | succ n =>
          have hchild : Child lo (lo + (n / 2 : Nat)) x := by
            rw [Child]
            omega
          have hup := ih (n / 2) (by omega) (x := lo + (n / 2 : Nat)) (by omega) (by omega) rfl
          exact (h _ x (by omega) hchild hxe).trans hup (by omega) (by omega)

/-! ## Heapsort -/

/-- The next child, if it is there and the larger one. -/
def largerChild (lt : α → α → Bool) (end_ child : Int) (arr : List α) : Option Int :=
  if child < end_ then do
    let x ← cell arr child
    let y ← cell arr (child + 1)
    some (if lt x y then child + 1 else child)
  else some child

/-- An element goes down as long as a child is larger. -/
def siftDown (lt : α → α → Bool) (lo end_ : Int) : Nat → Int → List α → Option (List α)
  | 0, _, _ => none
  | fuel + 1, root, arr => do
      let child := 2 * (root - lo) + 1 + lo
      if end_ < child then some arr
      else
        let child ← largerChild lt end_ child arr
        let x ← cell arr root
        let y ← cell arr child
        if lt x y then
          let arr ← exchange arr root child
          siftDown lt lo end_ fuel child arr
        else some arr

/-- The cells below `lo + n` go down, the last one first. -/
def heapify (lt : α → α → Bool) (lo hi : Int) : Nat → List α → Option (List α)
  | 0, arr => some arr
  | n + 1, arr => do
      let arr ← siftDown lt lo hi (arr.length + 1) (lo + n) arr
      heapify lt lo hi n arr

/-- The largest element goes behind the others, `n` times. -/
def popHeap (lt : α → α → Bool) (lo : Int) : Nat → List α → Option (List α)
  | 0, arr => some arr
  | n + 1, arr => do
      let arr ← exchange arr lo (lo + (n + 1 : Nat))
      let arr ← siftDown lt lo (lo + n) (arr.length + 1) lo arr
      popHeap lt lo n arr

/-- Heapsort of the range `[lo, hi]`. -/
def heapSort (lt : α → α → Bool) (lo hi : Int) (arr : List α) : Option (List α) :=
  if hi ≤ lo then some arr
  else do
    let arr ← heapify lt lo hi ((hi - lo - 1) / 2 + 1).toNat arr
    popHeap lt lo (hi - lo).toNat arr

variable {lt : α → α → Bool} {hi : Int}

theorem largerChild_spec (hlt : ∀ x y, lt x y = true ↔ key x < key y) (h0 : 0 ≤ lo) (hroot : lo ≤ root)
    (hchild : 2 * (root - lo) + 1 + lo ≤ e) (he : e < a.length) :
    ∃ c, largerChild lt e (2 * (root - lo) + 1 + lo) a = some c ∧ Child lo root c ∧ c ≤ e
      ∧ ∀ d, Child lo root d → d ≤ e → LeAt key a d c := by
  have hsame : 2 * (root - lo) + 2 + lo = 2 * (root - lo) + 1 + lo + 1 := by omega
  obtain ⟨u, hu⟩ := exists_cell (a := a) (i := 2 * (root - lo) + 1 + lo) (by omega) (by omega)
  rw [largerChild]
  by_cases htwo : 2 * (root - lo) + 1 + lo < e
  · obtain ⟨v, hv⟩ := exists_cell (a := a) (i := 2 * (root - lo) + 1 + lo + 1) (by omega) (by omega)
    rw [if_pos htwo, hu, Option.bind_eq_bind, Option.bind_some, hv, Option.bind_some]
    by_cases hless : lt u v = true
    · rw [if_pos hless]
      refine ⟨_, rfl, Or.inr hsame.symm, by omega, fun d hd _ w z hw hz => ?_⟩
      obtain rfl := Option.some.inj (hv.symm.trans hz)
      rcases hd with rfl | rfl
      · obtain rfl := Option.some.inj (hu.symm.trans hw)
        exact le_of_lt ((hlt u v).mp hless)
      · rw [hsame] at hw
        obtain rfl := Option.some.inj (hv.symm.trans hw)
        exact le_refl _
    · rw [if_neg hless]
      refine ⟨_, rfl, Or.inl rfl, by omega, fun d hd _ w z hw hz => ?_⟩
      obtain rfl := Option.some.inj (hu.symm.trans hz)
      rcases hd with rfl | rfl
      · obtain rfl := Option.some.inj (hu.symm.trans hw)
        exact le_refl _
      · rw [hsame] at hw
        obtain rfl := Option.some.inj (hv.symm.trans hw)
        exact not_lt.mp fun h => hless ((hlt u v).mpr h)
  · rw [if_neg htwo]
    refine ⟨_, rfl, Or.inl rfl, by omega, fun d hd hde w z hw hz => ?_⟩
    rcases hd with rfl | rfl
    · obtain rfl := Option.some.inj (hw.symm.trans hz)
      exact le_refl _
    · omega

theorem siftDown_spec (hlt : ∀ x y, lt x y = true ↔ key x < key y) (fuel : Nat)
    (h : HeapExcept key a lo s e root) (h0 : 0 ≤ lo) (hlo : lo ≤ s) (hs : s ≤ root)
    (hre : root ≤ e) (he : e < a.length) (hfuel : e - root < fuel) :
    ∃ a', siftDown lt lo e fuel root a = some a' ∧ Heap key a' lo s e
      ∧ Shuffled lo e a a' := by
  induction fuel generalizing root a with
  | zero => omega
  | succ fuel ih =>
      rw [siftDown]
      by_cases hleaf : e < 2 * (root - lo) + 1 + lo
      · refine ⟨a, if_pos hleaf, h.heap fun c hc hce => ?_, Shuffled.refl lo e a⟩
        rcases hc with rfl | rfl
        · omega
        · omega
      · rw [if_neg hleaf]
        obtain ⟨c, hpick, hchild, hce, hlarge⟩ :=
          largerChild_spec hlt h0 (by omega) (not_lt.mp hleaf) he
        have hgt := hchild.gt (by omega)
        obtain ⟨p, hp⟩ := exists_cell (a := a) (i := root) (by omega) (by omega)
        obtain ⟨q, hq⟩ := exists_cell (a := a) (i := c) (by omega) (by omega)
        simp only [hpick, hp, hq, Option.bind_eq_bind, Option.bind_some]
        by_cases hless : lt p q = true
        · rw [if_pos hless]
          obtain ⟨a₁, ha₁⟩ := exists_exchange hp hq
          have hle : LeAt key a root c := by
            intro w z hw hz
            obtain rfl := Option.some.inj (hp.symm.trans hw)
            obtain rfl := Option.some.inj (hq.symm.trans hz)
            exact le_of_lt ((hlt p q).mp hless)
          have hshuf := shuffled_exchange (l := lo) (r := e) ha₁ (by omega) hre (by omega) hce
          obtain ⟨a₂, hrun, hheap, hshuf₂⟩ := ih (h.down hlo hs hchild hce hlarge hle ha₁)
            (by omega) hce (by rw [hshuf.length_eq]; exact he) (by omega)
          refine ⟨a₂, ?_, hheap, hshuf.trans hshuf₂⟩
          rw [ha₁, Option.bind_some, hrun]
        · rw [if_neg hless]
          refine ⟨a, rfl, h.heap fun d hd hde => (hlarge d hd hde).trans ?_ (by omega) (by omega),
            Shuffled.refl lo e a⟩
          intro w z hw hz
          obtain rfl := Option.some.inj (hq.symm.trans hw)
          obtain rfl := Option.some.inj (hp.symm.trans hz)
          exact not_lt.mp fun h => hless ((hlt p q).mpr h)

theorem heapify_spec (hlt : ∀ x y, lt x y = true ↔ key x < key y) {n : Nat} (h : Heap key a lo (lo + n) hi) (h0 : 0 ≤ lo)
    (hn : n = 0 ∨ lo + n ≤ hi + 1) (hhi : hi < a.length) :
    ∃ a', heapify lt lo hi n a = some a' ∧ Heap key a' lo lo hi
      ∧ Shuffled lo hi a a' := by
  induction n generalizing a with
  | zero =>
      have hlo : lo + ((0 : Nat) : Int) = lo := by omega
      rw [hlo] at h
      exact ⟨a, rfl, h, Shuffled.refl lo hi a⟩
  | succ n ih =>
      have hstep : lo + ((n + 1 : Nat) : Int) = lo + n + 1 := by omega
      rw [hstep] at h
      obtain ⟨a₁, hsift, hheap, hshuf⟩ := siftDown_spec hlt (a.length + 1)
        (h.extend (by omega)) h0 (by omega) (le_refl _) (by omega) hhi (by omega)
      obtain ⟨a₂, hrun, hheap₂, hshuf₂⟩ := ih hheap (by omega) (by rw [hshuf.length_eq]; exact hhi)
      refine ⟨a₂, ?_, hheap₂, hshuf.trans hshuf₂⟩
      rw [heapify, hsift, Option.bind_eq_bind, Option.bind_some, hrun]

/-- The heap in front, and behind it the largest elements in order. -/
structure Popped (key : α → κ) (a : List α) (lo mid hi : Int) : Prop where
  heap : Heap key a lo lo mid
  above : ∀ x y, lo ≤ x → x ≤ mid → mid < y → y ≤ hi → LeAt key a x y
  sorted : SortedIn key a (mid + 1) hi

theorem popHeap_spec (hlt : ∀ x y, lt x y = true ↔ key x < key y) {n : Nat} (h : Popped key a lo (lo + n) hi) (h0 : 0 ≤ lo)
    (hn : lo + n ≤ hi) (hhi : hi < a.length) :
    ∃ a', popHeap lt lo n a = some a' ∧ SortedIn key a' lo hi ∧ Shuffled lo hi a a' := by
  induction n generalizing a with
  | zero =>
      refine ⟨a, rfl, fun x y hx hxy hy => ?_, Shuffled.refl lo hi a⟩
      by_cases hxl : x = lo
      · exact h.above x y hx (by omega) (by omega) hy
      · exact h.sorted x y (by omega) hxy hy
  | succ n ih =>
      have hstep : lo + ((n + 1 : Nat) : Int) = lo + n + 1 := by omega
      rw [hstep] at h hn
      obtain ⟨u, hu⟩ := exists_cell (a := a) (i := lo) h0 (by omega)
      obtain ⟨v, hv⟩ := exists_cell (a := a) (i := lo + n + 1) (by omega) (by omega)
      obtain ⟨a₁, ha₁⟩ := exists_exchange hu hv
      have hshuf := shuffled_exchange (l := lo) (r := lo + n + 1) ha₁ (le_refl _) (by omega)
        (by omega) (le_refl _)
      have hmove : ∀ x, x ≠ lo → x ≠ lo + n + 1 → cell a₁ x = cell a x :=
        fun x hx hx' => cell_exchange_of_ne ha₁ hx hx'
      have hexcept : HeapExcept key a₁ lo lo (lo + n) lo := by
        constructor
        · intro x c hx hne hchild hc
          have hgt := hchild.gt hx
          rw [leAt_congr (hmove c (by omega) (by omega)) (hmove x hne (by omega))]
          exact h.heap x c hx hchild (by omega)
        · exact fun x c hx hchild => absurd (hchild.gt hx) (by omega)
      have hlen₁ := hshuf.length_eq
      obtain ⟨a₂, hsift, hheap, hshuf₂⟩ := siftDown_spec hlt (a₁.length + 1) hexcept h0
        (le_refl _) (le_refl _) (by omega) (by omega) (by omega)
      have hlen₂ := hshuf₂.length_eq
      -- the largest element is at its place, and sifting leaves it there
      have htop : ∀ x, lo ≤ x → x ≤ lo + n → LeAt key a₂ x (lo + n + 1) := by
        intro x hx hxn w z hw hz
        obtain ⟨y, hy, hw⟩ := hshuf₂.mem h0 (by omega) ⟨hx, hxn⟩ hw
        obtain ⟨y', hy', hw⟩ := hshuf.mem h0 (by omega) ⟨hy.1, by omega⟩ hw
        rw [hshuf₂.outside _ (by omega), cell_exchange_right ha₁] at hz
        exact h.heap.le_top h0 (by omega) hy'.1 hy'.2 w z hw hz
      have hbehind : ∀ x, lo + n + 1 < x → cell a₂ x = cell a x := by
        intro x hx
        rw [hshuf₂.outside x (by omega), hmove x (by omega) (by omega)]
      have hpop : Popped key a₂ lo (lo + n) hi := by
        refine ⟨hheap, fun x y hx hxn hy hyh => ?_, fun x y hx hxy hyh => ?_⟩
        · by_cases hyn : y = lo + n + 1
          · rw [hyn]
            exact htop x hx hxn
          · intro w z hw hz
            obtain ⟨x', hx', hw⟩ := hshuf₂.mem h0 (by omega) ⟨hx, hxn⟩ hw
            obtain ⟨x'', hx'', hw⟩ := hshuf.mem h0 (by omega) ⟨hx'.1, by omega⟩ hw
            rw [hbehind y (by omega)] at hz
            exact h.above x'' y hx''.1 hx''.2 (by omega) hyh w z hw hz
        · by_cases hxn : x = lo + n + 1
          · intro w z hw hz
            rw [hbehind y (by omega)] at hz
            rw [hxn, hshuf₂.outside _ (by omega), cell_exchange_right ha₁] at hw
            exact h.above lo y (le_refl _) (by omega) (by omega) hyh w z hw hz
          · exact (leAt_congr (hbehind x (by omega)) (hbehind y (by omega))).mpr
              (h.sorted x y (by omega) hxy hyh)
      obtain ⟨a₃, hrun, hsorted, hshuf₃⟩ := ih hpop (by omega) (by omega)
      refine ⟨a₃, ?_, hsorted, ((hshuf.mono (le_refl _) hn).trans
        (hshuf₂.mono (le_refl _) (by omega))).trans hshuf₃⟩
      rw [popHeap, hstep, ha₁, Option.bind_eq_bind, Option.bind_some, hsift, Option.bind_some, hrun]

/-- **Heapsort** sorts the range. -/
theorem heapSort_spec (hlt : ∀ x y, lt x y = true ↔ key x < key y) (h0 : 0 ≤ lo) (hhi : hi < a.length) :
    ∃ a', heapSort lt lo hi a = some a' ∧ Shuffled lo hi a a'
      ∧ SortedIn key a' lo hi := by
  rw [heapSort]
  by_cases hle : hi ≤ lo
  · exact ⟨a, if_pos hle, Shuffled.refl lo hi a, SortedIn.of_le hle⟩
  · rw [if_neg hle]
    have hleaves : Heap key a lo (lo + ((hi - lo - 1) / 2 + 1).toNat) hi := by
      intro x c hx hchild hc
      rcases hchild with rfl | rfl
      · omega
      · omega
    obtain ⟨a₁, hheapify, hheap, hshuf⟩ := heapify_spec hlt hleaves h0 (by omega) hhi
    have hall : lo + ((hi - lo).toNat : Int) = hi := by omega
    have hpop : Popped key a₁ lo (lo + (hi - lo).toNat) hi := by
      rw [hall]
      exact ⟨hheap, fun x y _ _ hy hyh => absurd hyh (by omega), SortedIn.of_le (by omega)⟩
    obtain ⟨a₂, hrun, hsorted, hshuf₂⟩ := popHeap_spec hlt hpop h0 (by omega)
      (by rw [hshuf.length_eq]; exact hhi)
    refine ⟨a₂, ?_, hshuf.trans hshuf₂, hsorted⟩
    rw [hheapify, Option.bind_eq_bind, Option.bind_some, hrun]

end Montauk.Sort
