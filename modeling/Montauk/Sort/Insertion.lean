import Montauk.Sort.Gallop

/-!
# Insertion sorts

Two insertion sorts over one array: the plain one, which shifts the larger
elements up one at a time, and the one that finds the place by halving and
moves the rest with one `memmove`. The plain one is stated for any comparison;
for the order of a key either is a stable sort.
-/

namespace Montauk.Sort

variable {α κ : Type}

/-! ## Shifting -/

/-- `while (j > 0 && a[j-1] > k) { a[j] = a[j-1]; j--; }`: the array and `j`. -/
def shiftLoop (gt : α → α → Bool) (k : α) : Nat → List α → Option (List α × Nat)
  | 0, a => some (a, 0)
  | j + 1, a => do
      let x ← load a j
      if gt x k then
        let a ← store a (j + 1) x
        shiftLoop gt k j a
      else some (a, j + 1)

/-- The insertion of `a[i]` into the elements in front of it. -/
def shiftInsert (gt : α → α → Bool) (i : Nat) (a : List α) : Option (List α) := do
  let k ← load a i
  let (a, j) ← shiftLoop gt k i a
  store a j k

/-- The steps `i`, `i + 1`, ... of an insertion sort, as many as `n`. -/
def insertSteps (step : Nat → List α → Option (List α)) : Nat → Nat → List α → Option (List α)
  | 0, _, a => some a
  | n + 1, i, a => do
      let a ← step i a
      insertSteps step n (i + 1) a

def insertionSort (gt : α → α → Bool) (a : List α) : Option (List α) :=
  insertSteps (shiftInsert gt) (a.length - 1) 1 a

variable {gt : α → α → Bool} {k x : α} {P S rest a : List α}

theorem shiftLoop_spec (gt : α → α → Bool) (P : List α) (g : α) (rest : List α) :
    ∃ P1 P2 g', P = P1 ++ P2 ∧ shiftLoop gt k P.length (P ++ g :: rest)
        = some (P1 ++ g' :: (P2 ++ rest), P1.length)
      ∧ (∀ y ∈ P2, gt y k = true) ∧ ∀ Q z, P1 = Q ++ [z] → gt z k = false := by
  induction P using List.reverseRecOn generalizing g rest with
  | nil => exact ⟨[], [], g, rfl, rfl, by simp, by simp⟩
  | append_singleton P x ih =>
      have hread : load (P ++ [x] ++ g :: rest) P.length = some x := by
        rw [List.append_assoc]
        exact load_append rfl
      rw [List.length_append, List.length_singleton, shiftLoop, hread]
      show ∃ P1 P2 g', _ ∧ (if gt x k = true then _ else _) = _ ∧ _
      by_cases hx : gt x k = true
      · rw [if_pos hx, store_append (by rw [List.length_append, List.length_singleton]),
          List.append_assoc]
        obtain ⟨P1, P2, g', hP, hrun, hP2, hP1⟩ := ih x (x :: rest)
        refine ⟨P1, P2 ++ [x], g', by rw [hP, List.append_assoc], ?_, ?_, hP1⟩
        · show shiftLoop gt k P.length (P ++ x :: x :: rest) = _
          rw [hrun, List.append_assoc]
          rfl
        · intro y hy
          rcases List.mem_append.mp hy with hy | hy
          · exact hP2 y hy
          · rw [List.mem_singleton.mp hy]
            exact hx
      · rw [if_neg hx]
        refine ⟨P ++ [x], [], g, (List.append_nil _).symm, ?_, by simp, ?_⟩
        · rw [List.nil_append, List.length_append, List.length_singleton]
        · intro Q z hz
          have hlast := (List.append_inj' hz rfl).2
          rw [List.singleton_inj] at hlast
          rw [← hlast]
          exact Bool.eq_false_iff.mpr hx

theorem shiftInsert_spec (gt : α → α → Bool) (P : List α) (x : α) (rest : List α) :
    ∃ P1 P2, P = P1 ++ P2 ∧ shiftInsert gt P.length (P ++ x :: rest)
        = some (P1 ++ x :: (P2 ++ rest))
      ∧ (∀ y ∈ P2, gt y x = true) ∧ ∀ Q z, P1 = Q ++ [z] → gt z x = false := by
  obtain ⟨P1, P2, g, hP, hrun, hP2, hP1⟩ := shiftLoop_spec gt P x rest (k := x)
  refine ⟨P1, P2, hP, ?_, hP2, hP1⟩
  rw [shiftInsert, load_append rfl]
  show (shiftLoop gt x P.length (P ++ x :: rest)).bind _ = _
  rw [hrun]
  exact store_append rfl

/-- An insertion sort whose step takes a prefix from one good result to the
next is good for the whole array. -/
theorem insertSteps_spec {step : Nat → List α → Option (List α)}
    {Good : List α → List α → Prop}
    (hstep : ∀ P0 P x rest, Good P0 P → ∃ P', step P.length (P ++ x :: rest) = some (P' ++ rest)
      ∧ P'.length = P.length + 1 ∧ Good (P0 ++ [x]) P') :
    ∀ {P0 P : List α} (rest : List α), Good P0 P →
      ∃ out, insertSteps step rest.length P.length (P ++ rest) = some out ∧ Good (P0 ++ rest) out
  | P0, P, [], h => ⟨P, by rw [List.append_nil]; rfl, by rwa [List.append_nil]⟩
  | P0, P, x :: rest, h => by
      obtain ⟨P', hrun, hlen, hgood⟩ := hstep P0 P x rest h
      obtain ⟨out, hout, hgood'⟩ := insertSteps_spec hstep rest hgood
      refine ⟨out, ?_, by rwa [List.append_assoc] at hgood'⟩
      rw [List.length_cons, insertSteps, hrun]
      show insertSteps step rest.length (P.length + 1) (P' ++ rest) = _
      rw [← hlen, hout]

theorem insertSteps_all {step : Nat → List α → Option (List α)} {Good : List α → List α → Prop}
    (hstep : ∀ P0 P x rest, Good P0 P → ∃ P', step P.length (P ++ x :: rest) = some (P' ++ rest)
      ∧ P'.length = P.length + 1 ∧ Good (P0 ++ [x]) P')
    (hnil : Good [] []) (hone : ∀ x, Good [x] [x]) (a : List α) :
    ∃ out, insertSteps step (a.length - 1) 1 a = some out ∧ Good a out := by
  cases a with
  | nil => exact ⟨[], rfl, hnil⟩
  | cons x rest =>
      rw [List.length_cons, Nat.add_sub_cancel]
      exact insertSteps_spec hstep rest (hone x)

theorem insertionSort_perm (gt : α → α → Bool) (a : List α) :
    ∃ out, insertionSort gt a = some out ∧ out.Perm a := by
  have hstep : ∀ P0 P x rest, P.Perm P0 → ∃ P', shiftInsert gt P.length (P ++ x :: rest)
      = some (P' ++ rest) ∧ P'.length = P.length + 1 ∧ P'.Perm (P0 ++ [x]) := ?_
  · exact insertSteps_all hstep (List.Perm.refl _) (fun x => List.Perm.refl _) a
  intro P0 P x rest h
  obtain ⟨P1, P2, hP, hrun, -, -⟩ := shiftInsert_spec gt P x rest
  refine ⟨P1 ++ x :: P2, ?_, ?_, ?_⟩
  · rw [hrun, List.append_assoc]
    rfl
  · rw [hP]
    simp only [List.length_append, List.length_cons]
    omega
  · refine (List.perm_middle.trans ?_).trans (List.perm_append_singleton x P0).symm
    exact List.Perm.cons x (hP ▸ h)

section
variable [LinearOrder κ] {key : α → κ}

theorem StableSort.insert_front {P0 P1 P2 : List α} {x : α} (h : StableSort key P0 (P1 ++ P2))
    (h1 : ∀ z ∈ P1, key z ≤ key x) (h2 : ∀ z ∈ P2, key x < key z) :
    StableSort key (P0 ++ [x]) (P1 ++ x :: P2) :=
  StableSort.of_append h (.refl (List.pairwise_singleton _ x)) (.insert h.sorted h1 h2)

/-- **The plain insertion sort is a stable sort.** -/
theorem insertionSort_stable (key : α → κ) (a : List α) :
    ∃ out, insertionSort (fun x y => key y < key x) a = some out ∧ StableSort key a out := by
  refine insertSteps_all ?_ (.refl List.Pairwise.nil) (fun x => .refl (List.pairwise_singleton _ x)) a
  intro P0 P x rest h
  obtain ⟨P1, P2, hP, hrun, hP2, hP1⟩ :=
    shiftInsert_spec (fun x y => decide (key y < key x)) P x rest
  refine ⟨P1 ++ x :: P2, ?_, ?_, ?_⟩
  · rw [hrun, List.append_assoc]
    rfl
  · rw [hP]
    simp only [List.length_append, List.length_cons]
    omega
  · rw [hP] at h
    refine h.insert_front ?_ fun y hy => of_decide_eq_true (hP2 y hy)
    intro z hz
    obtain ⟨Q, w, hw⟩ := exists_concat (List.length_pos_of_mem hz)
    have hlast := of_decide_eq_false (hP1 Q w hw)
    have hasc := h.sorted.left
    rw [hw] at hasc hz
    exact (hasc.le_last z hz).trans (not_lt.mp hlast)

end

/-! ## Halving -/

section
variable [LinearOrder κ]

/-- The insertion of `a[i]` by a binary search in front of it. -/
def binaryInsert (key : α → κ) (i : Nat) (a : List α) : Option (List α) := do
  let x ← load a i
  let pre ← loadN a 0 i
  let lo ← gallopBisect (fun y => !(key x < key y)) pre (i + 1) 0 i
  if lo < i then
    let vs ← loadN a lo (i - lo)
    let a ← storeN a (lo + 1) vs
    store a lo x
  else some a

def binaryInsertionSort (key : α → κ) (a : List α) : Option (List α) :=
  insertSteps (binaryInsert key) (a.length - 1) 1 a

variable {key : α → κ}

theorem binaryInsert_spec {P1 P2 : List α} {x : α} (rest : List α)
    (h1 : ∀ z ∈ P1, key z ≤ key x) (h2 : ∀ z ∈ P2, key x < key z) :
    binaryInsert key (P1 ++ P2).length (P1 ++ P2 ++ x :: rest)
      = some (P1 ++ x :: P2 ++ rest) := by
  have hcut : Cut (fun y => !decide (key x < key y)) P1 P2 :=
    ⟨fun z hz => by simpa using h1 z hz, fun z hz => by simpa using h2 z hz⟩
  have hlo : gallopBisect (fun y => !decide (key x < key y)) (P1 ++ P2) ((P1 ++ P2).length + 1) 0
      (P1 ++ P2).length = some P1.length :=
    gallopBisect_spec hcut (by omega) (Nat.zero_le _)
      (by rw [List.length_append]; omega) (Nat.le_refl _)
  rw [binaryInsert, load_append rfl]
  show (loadN (P1 ++ P2 ++ x :: rest) 0 (P1 ++ P2).length).bind _ = _
  rw [loadN_front rfl]
  show (gallopBisect _ (P1 ++ P2) _ 0 _).bind _ = _
  rw [hlo]
  show (if P1.length < (P1 ++ P2).length then _ else _) = _
  have hlen : (P1 ++ P2).length - P1.length = P2.length := by
    rw [List.length_append, Nat.add_sub_cancel_left]
  by_cases hmove : P1.length < (P1 ++ P2).length
  · obtain ⟨w, P2', hw⟩ : ∃ w P2', P2 = w :: P2' := by
      refine List.exists_cons_of_length_pos ?_
      rw [← hlen]
      omega
    have hread : loadN (P1 ++ P2 ++ x :: rest) P1.length P2.length = some P2 :=
      loadN_append rfl rfl
    -- the block moves up by one over `x`
    have hwrite : storeN (P1 ++ P2 ++ x :: rest) (P1.length + 1) P2
        = some (P1 ++ w :: P2 ++ rest) := by
      have hsplit : P1 ++ P2 ++ x :: rest = (P1 ++ [w]) ++ (P2' ++ [x]) ++ rest := by
        rw [hw]
        simp
      rw [hsplit, storeN_append (by rw [List.length_append]; rfl)
        (by rw [hw, List.length_append]; rfl)]
      simp
    rw [if_pos hmove, hlen, hread]
    show (storeN (P1 ++ P2 ++ x :: rest) (P1.length + 1) P2).bind _ = _
    rw [hwrite, List.append_assoc]
    show store (P1 ++ w :: (P2 ++ rest)) P1.length x = _
    rw [store_append rfl, List.append_assoc]
    rfl
  · have hnil : P2 = [] := List.eq_nil_of_length_eq_zero (by omega)
    rw [if_neg hmove, hnil, List.append_nil, List.append_assoc]
    rfl

/-- **`binary_insertion_sort` is a stable sort.** -/
theorem binaryInsertionSort_spec (key : α → κ) (a : List α) :
    ∃ out, binaryInsertionSort key a = some out ∧ StableSort key a out := by
  refine insertSteps_all ?_ (.refl List.Pairwise.nil) (fun x => .refl (List.pairwise_singleton _ x)) a
  intro P0 P x rest h
  obtain ⟨P1, P2, rfl, h1, h2⟩ := h.sorted.split_le (key x)
  refine ⟨P1 ++ x :: P2, binaryInsert_spec rest h1 h2, ?_, h.insert_front h1 h2⟩
  simp only [List.length_append, List.length_cons]
  omega

end

end Montauk.Sort
