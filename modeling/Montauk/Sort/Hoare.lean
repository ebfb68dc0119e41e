import Montauk.Sort.Ranges

/-!
# Hoare's partition

Two scans move towards each other, stop at elements on the wrong side of the
pivot, exchange them and go on. The pivot is a value: neither scan leaves the
range, because in the first round both stop at the pivot at the latest and
every exchange leaves an element behind that stops the other scan.

A read outside of the range is a failure here, so that a partition that
returns has kept both scans inside (`partitionLoop_spec`).
-/

namespace Montauk.Sort

variable {α : Type}

/-- `arr[i]` for an index of the range `[l, r]`. -/
def cellIn (a : List α) (l r i : Int) : Option α := if l ≤ i ∧ i ≤ r then cell a i else none

/-- `while (before(arr[i])) i++;` -/
def scanUp (before : α → Bool) (a : List α) (l r : Int) : Nat → Int → Option Int
  | 0, _ => none
  | fuel + 1, i => do
      let x ← cellIn a l r i
      if before x then scanUp before a l r fuel (i + 1) else some i

/-- `while (after(arr[j])) j--;` -/
def scanDown (after : α → Bool) (a : List α) (l r : Int) : Nat → Int → Option Int
  | 0, _ => none
  | fuel + 1, j => do
      let x ← cellIn a l r j
      if after x then scanDown after a l r fuel (j - 1) else some j

/-- The loop of a partition of `[l, r]`. With unsigned indices the step down is
guarded: `if (j > 0) j--; else break;`. -/
def partitionLoop (unsigned : Bool) (before after : α → Bool) (l r : Int) :
    Nat → Int → Int → List α → Option (Int × Int × List α)
  | 0, _, _, _ => none
  | fuel + 1, i, j, a =>
      if i ≤ j then do
        let i ← scanUp before a l r (a.length + 1) i
        let j ← scanDown after a l r (a.length + 1) j
        if i ≤ j then do
          let a ← exchange a i j
          if unsigned && j == 0 then some (i + 1, j, a)
          else partitionLoop unsigned before after l r fuel (i + 1) (j - 1) a
        else partitionLoop unsigned before after l r fuel i j a
      else some (i, j, a)

variable {κ : Type} [LinearOrder κ] {key : α → κ} {p : κ} {before after : α → Bool}
  {a a₀ : List α} {l r i j : Int}

/-! ## The scans -/

theorem scanUp_spec (before : α → Bool) (fuel : Nat) (h0 : 0 ≤ l) (hr : r < a.length) {x : Int}
    {u : α} (hli : l ≤ i)
    (hix : i ≤ x) (hxr : x ≤ r) (hu : cell a x = some u) (hstop : before u = false)
    (hfuel : x - i < fuel) :
    ∃ i', scanUp before a l r fuel i = some i' ∧ i ≤ i' ∧ i' ≤ x
      ∧ (∀ y, i ≤ y → y < i' → ∀ v, cell a y = some v → before v = true)
      ∧ ∃ v, cell a i' = some v ∧ before v = false := by
  induction fuel generalizing i with
  | zero => omega
  | succ fuel ih =>
      obtain ⟨v, hv⟩ := exists_cell (a := a) (by omega : 0 ≤ i) (by omega)
      rw [scanUp, cellIn, if_pos ⟨hli, by omega⟩, hv]
      by_cases hb : before v = true
      · have hne : i ≠ x := by
          rintro rfl
          rw [hu] at hv
          rw [Option.some.inj hv, hb] at hstop
          exact Bool.false_ne_true hstop.symm
        obtain ⟨i', hscan, hle, hx, hbefore, hend⟩ := ih (i := i + 1) (by omega) (by omega) (by omega)
        refine ⟨i', ?_, by omega, hx, fun y hy hyi' w hw => ?_, hend⟩
        · show (if before v then _ else _) = _
          rw [if_pos hb, hscan]
        · by_cases hyi : y = i
          · rw [hyi, hv] at hw
            rwa [← Option.some.inj hw]
          · exact hbefore y (by omega) hyi' w hw
      · have hbf : before v = false := Bool.eq_false_iff.mpr hb
        refine ⟨i, ?_, by omega, hix, fun y hy hyi => absurd hyi (by omega), v, hv, hbf⟩
        show (if before v then _ else _) = _
        rw [if_neg hb]

theorem scanDown_spec (after : α → Bool) (fuel : Nat) (h0 : 0 ≤ l) (hr : r < a.length) {x : Int}
    {u : α} (hjr : j ≤ r)
    (hxj : x ≤ j) (hlx : l ≤ x) (hu : cell a x = some u) (hstop : after u = false)
    (hfuel : j - x < fuel) :
    ∃ j', scanDown after a l r fuel j = some j' ∧ j' ≤ j ∧ x ≤ j'
      ∧ (∀ y, j' < y → y ≤ j → ∀ v, cell a y = some v → after v = true)
      ∧ ∃ v, cell a j' = some v ∧ after v = false := by
  induction fuel generalizing j with
  | zero => omega
  | succ fuel ih =>
      obtain ⟨v, hv⟩ := exists_cell (a := a) (by omega : 0 ≤ j) (by omega)
      rw [scanDown, cellIn, if_pos ⟨by omega, hjr⟩, hv]
      by_cases hb : after v = true
      · have hne : j ≠ x := by
          rintro rfl
          rw [hu] at hv
          rw [Option.some.inj hv, hb] at hstop
          exact Bool.false_ne_true hstop.symm
        obtain ⟨j', hscan, hle, hx, hafter, hend⟩ := ih (j := j - 1) (by omega) (by omega) (by omega)
        refine ⟨j', ?_, by omega, hx, fun y hy hyj w hw => ?_, hend⟩
        · show (if after v then _ else _) = _
          rw [if_pos hb, hscan]
        · by_cases hyj' : y = j
          · rw [hyj', hv] at hw
            rwa [← Option.some.inj hw]
          · exact hafter y hy (by omega) w hw
      · have hbf : after v = false := Bool.eq_false_iff.mpr hb
        refine ⟨j, ?_, by omega, hxj, fun y hy hyj => absurd hyj (by omega), v, hv, hbf⟩
        show (if after v then _ else _) = _
        rw [if_neg hb]

/-! ## The loop -/

/-- What the loop keeps: everything in front of `i` and behind `j` is on its
side of the pivot, and each scan has an element in front of it to stop at. -/
structure Parting (key : α → κ) (p : κ) (l r : Int) (a₀ a : List α) (i j : Int) : Prop where
  shuffled : Shuffled l r a₀ a
  left : l ≤ i ∧ i ≤ r + 1
  right : l - 1 ≤ j ∧ j ≤ r
  low : ∀ x, l ≤ x → x < i → ∀ u, cell a x = some u → key u ≤ p
  high : ∀ x, j < x → x ≤ r → ∀ u, cell a x = some u → p ≤ key u
  stopsUp : i ≤ j → ∃ x u, i ≤ x ∧ x ≤ r ∧ cell a x = some u ∧ p ≤ key u
  stopsDown : i ≤ j → ∃ x u, l ≤ x ∧ x ≤ j ∧ cell a x = some u ∧ key u ≤ p

/-- What is left of the range afterwards: two smaller ranges, and between them
elements that equal the pivot. -/
structure Parted (key : α → κ) (p : κ) (l r : Int) (a₀ a : List α) (i j : Int) : Prop where
  shuffled : Shuffled l r a₀ a
  left : l < i ∧ i ≤ r + 1
  right : l - 1 ≤ j ∧ j < r
  crossed : j < i
  low : ∀ x, l ≤ x → x < i → ∀ u, cell a x = some u → key u ≤ p
  high : ∀ x, j < x → x ≤ r → ∀ u, cell a x = some u → p ≤ key u

theorem Parted.between (h : Parted key p l r a₀ a i j) {x : Int} (hj : j < x) (hi : x < i) {u : α}
    (hu : cell a x = some u) : key u = p :=
  le_antisymm (h.low x (by have := h.right.1; omega) hi u hu)
    (h.high x hj (by have := h.left.2; omega) u hu)

/-- The first round: the whole range, with the pivot in it. -/
def AtStart (key : α → κ) (p : κ) (l r : Int) (a : List α) (i j : Int) (m : Int) : Prop :=
  i = l ∧ j = r ∧ l ≤ m ∧ m ≤ r ∧ ∃ u, cell a m = some u ∧ key u = p

theorem Parting.start {m : Int} {u : α} (hlm : l ≤ m) (hmr : m ≤ r) (hu : cell a m = some u) :
    Parting key (key u) l r a a l r where
  shuffled := Shuffled.refl l r a
  left := by omega
  right := by omega
  low x hx hxl := absurd hx (by omega)
  high x hx hxr := absurd hx (by omega)
  stopsUp _ := ⟨m, u, hlm, hmr, hu, le_refl _⟩
  stopsDown _ := ⟨m, u, hlm, hmr, hu, le_refl _⟩

theorem partitionLoop_spec {unsigned : Bool} (hbefore : ∀ x, before x = true ↔ key x < p)
    (hafter : ∀ x, after x = true ↔ p < key x) (h0 : 0 ≤ l) (hr : r < a₀.length) {m : Int}
    (hm : unsigned = true → 0 < m) {fuel : Nat} (hfuel : (j - i + 2).toNat < fuel)
    (h : Parting key p l r a₀ a i j) (hfirst : AtStart key p l r a i j m ∨ l < i ∧ j < r) :
    ∃ i' j' a', partitionLoop unsigned before after l r fuel i j a = some (i', j', a')
      ∧ Parted key p l r a₀ a' i' j' := by
  have hnotBefore : ∀ {x}, before x = false ↔ p ≤ key x := by
    intro x
    rw [Bool.eq_false_iff, ne_eq, hbefore, not_lt]
  have hnotAfter : ∀ {x}, after x = false ↔ key x ≤ p := by
    intro x
    rw [Bool.eq_false_iff, ne_eq, hafter, not_lt]
  induction fuel generalizing i j a with
  | zero => exact absurd hfuel (Nat.not_lt_zero _)
  | succ fuel ih =>
      rw [partitionLoop]
      have hlen : a.length = a₀.length := h.shuffled.length_eq
      by_cases hij : i ≤ j
      · rw [if_pos hij]
        obtain ⟨x, u, hix, hxr, hu, hpu⟩ := h.stopsUp hij
        obtain ⟨y, v, hly, hyj, hv, hvp⟩ := h.stopsDown hij
        obtain ⟨i', hup, hii', hi'x, hpassed, w, hw, hstop⟩ :=
          scanUp_spec before (a.length + 1) h0 (by omega) h.left.1 hix hxr hu
            (hnotBefore.mpr hpu) (by have := h.left.1; omega)
        obtain ⟨j', hdown, hj'j, hyj', hpassed', w', hw', hstop'⟩ :=
          scanDown_spec after (a.length + 1) h0 (by omega) h.right.2 hyj hly hv
            (hnotAfter.mpr hvp) (by have := h.right.2; omega)
        rw [hup, Option.bind_eq_bind, Option.bind_some, hdown, Option.bind_some]
        have hlow : ∀ x, l ≤ x → x < i' → ∀ u, cell a x = some u → key u ≤ p := by
          intro x hx hxi u hu
          by_cases hxi₀ : x < i
          · exact h.low x hx hxi₀ u hu
          · exact le_of_lt ((hbefore u).mp (hpassed x (by omega) hxi u hu))
        have hhigh : ∀ x, j' < x → x ≤ r → ∀ u, cell a x = some u → p ≤ key u := by
          intro x hx hxr u hu
          by_cases hxj : j < x
          · exact h.high x hxj hxr u hu
          · exact le_of_lt ((hafter u).mp (hpassed' x hx (by omega) u hu))
        -- in the first round the pivot stops both scans, so that they do not cross
        have hmeet : AtStart key p l r a i j m → i' ≤ m ∧ m ≤ j' := by
          rintro ⟨rfl, rfl, hlm, hmr, c, hc, rfl⟩
          constructor
          · by_contra hlt
            have hb := hpassed m hlm (by omega) c hc
            exact absurd ((hbefore c).mp hb) (lt_irrefl _)
          · by_contra hlt
            have hb := hpassed' m (by omega) hmr c hc
            exact absurd ((hafter c).mp hb) (lt_irrefl _)
        have hleft := h.left
        have hright := h.right
        by_cases hcross : i' ≤ j'
        · rw [if_pos hcross]
          obtain ⟨a', ha'⟩ := exists_exchange hw hw'
          rw [ha', Option.bind_eq_bind, Option.bind_some]
          have hguard : (unsigned && j' == 0) = false := by
            cases hun : unsigned with
            | false => rfl
            | true =>
                have hmpos := hm hun
                rw [Bool.true_and, beq_eq_false_iff_ne]
                rcases hfirst with hs | hs
                · have := hmeet hs
                  omega
                · omega
          rw [if_neg (by rw [hguard]; exact Bool.false_ne_true)]
          have hmove : ∀ x, x ≠ i' → x ≠ j' → cell a' x = cell a x :=
            fun x hx hx' => cell_exchange_of_ne ha' hx hx'
          have hcl : cell a' i' = some w' := (cell_exchange_left ha').trans hw'
          have hcr : cell a' j' = some w := (cell_exchange_right ha').trans hw
          refine ih (by omega) ?_ (Or.inr ⟨by omega, by omega⟩)
          refine ⟨h.shuffled.trans (shuffled_exchange ha' (by omega) (by omega) (by omega) (by omega)),
            by omega, by omega, fun x hx hxi u hu => ?_, fun x hx hxr u hu => ?_, fun hle => ?_,
            fun hle => ?_⟩
          · by_cases hxi' : x = i'
            · rw [hxi', hcl] at hu
              rw [← Option.some.inj hu]
              exact hnotAfter.mp hstop'
            · exact hlow x hx (by omega) u (by rwa [hmove x hxi' (by omega)] at hu)
          · by_cases hxj' : x = j'
            · rw [hxj', hcr] at hu
              rw [← Option.some.inj hu]
              exact hnotBefore.mp hstop
            · exact hhigh x (by omega) hxr u (by rwa [hmove x (by omega) hxj'] at hu)
          · exact ⟨j', w, by omega, by omega, hcr, hnotBefore.mp hstop⟩
          · exact ⟨i', w', by omega, by omega, hcl, hnotAfter.mp hstop'⟩
        · rw [if_neg hcross]
          have hlate : l < i ∧ j < r := by
            rcases hfirst with hs | hs
            · have := hmeet hs
              omega
            · exact hs
          cases fuel with
          | zero => omega
          | succ fuel =>
              rw [partitionLoop, if_neg hcross]
              exact ⟨i', j', a, rfl, h.shuffled, by omega, by omega, by omega, hlow, hhigh⟩
      · rw [if_neg hij]
        have hlate : l < i ∧ j < r := by
          rcases hfirst with hs | hs
          · obtain ⟨rfl, rfl, hlm, hmr, -⟩ := hs
            omega
          · exact hs
        exact ⟨i, j, a, rfl, h.shuffled, ⟨hlate.1, h.left.2⟩, ⟨h.right.1, hlate.2⟩, by omega, h.low,
          h.high⟩

/-! ## What is done to the parts -/

theorem Parted.of_shuffled {b : List α} (h : Parted key p l r b a i j) (hs : Shuffled l r a₀ b) :
    Parted key p l r a₀ a i j :=
  { h with shuffled := hs.trans h.shuffled }

theorem Parted.shuffleLeft {b : List α} (h : Parted key p l r a₀ a i j) (h0 : 0 ≤ l)
    (hr : r < a.length) (hs : Shuffled l j a b) : Parted key p l r a₀ b i j := by
  have hcross := h.crossed
  have hright := h.right
  refine { h with
    shuffled := h.shuffled.trans (hs.mono (Int.le_refl l) (by omega)), low := ?_, high := ?_ }
  · intro x hx hxi u hu
    by_cases hxj : x ≤ j
    · obtain ⟨y, hy, hu⟩ := hs.mem h0 (by omega) ⟨hx, hxj⟩ hu
      exact h.low y hy.1 (by omega) u hu
    · rw [hs.outside x (by omega)] at hu
      exact h.low x hx hxi u hu
  · intro x hx hxr u hu
    rw [hs.outside x (by omega)] at hu
    exact h.high x hx hxr u hu

theorem Parted.shuffleRight {b : List α} (h : Parted key p l r a₀ a i j) (h0 : 0 ≤ l)
    (hr : r < a.length) (hs : Shuffled i r a b) : Parted key p l r a₀ b i j := by
  have hcross := h.crossed
  have hleft := h.left
  refine { h with
    shuffled := h.shuffled.trans (hs.mono (by omega) (Int.le_refl r)), low := ?_, high := ?_ }
  · intro x hx hxi u hu
    rw [hs.outside x (by omega)] at hu
    exact h.low x hx hxi u hu
  · intro x hx hxr u hu
    by_cases hxi : i ≤ x
    · obtain ⟨y, hy, hu⟩ := hs.mem (by omega) hr ⟨hxi, hxr⟩ hu
      exact h.high y (by omega) hy.2 u hu
    · rw [hs.outside x (by omega)] at hu
      exact h.high x hx hxr u hu

theorem Parted.sortedIn (h : Parted key p l r a₀ a i j) (hleft : SortedIn key a l j)
    (hright : SortedIn key a i r) : SortedIn key a l r := by
  intro x y hx hxy hy
  have hcross := h.crossed
  by_cases hyj : y ≤ j
  · exact hleft x y hx hxy hyj
  · by_cases hxi : i ≤ x
    · exact hright x y hxi hxy hy
    · exact LeAt.of_bounds (h.low x hx (by omega)) (h.high y (by omega) hy)

theorem partition_spec (unsigned : Bool) (key : α → κ) {m : Int} {u : α} (h0 : 0 ≤ l) (hr : r < a.length)
    (hlm : l ≤ m) (hmr : m ≤ r) (hm : unsigned = true → 0 < m) (hu : cell a m = some u)
    (hbefore : ∀ x, before x = true ↔ key x < key u) (hafter : ∀ x, after x = true ↔ key u < key x) :
    ∃ i j a', partitionLoop unsigned before after l r (a.length + 3) l r a = some (i, j, a')
      ∧ Parted key (key u) l r a a' i j :=
  partitionLoop_spec hbefore hafter h0 hr hm (by omega) (Parting.start hlm hmr hu)
    (Or.inl ⟨rfl, rfl, hlm, hmr, u, hu, rfl⟩)

end Montauk.Sort
