/-!
# Runs of a machine

A machine is a partial step function on its states; a run is the list of the
actions it takes, in order. Invariants are proved one step at a time
(`run_keeps`), under a condition on the steps where there is one
(`Meets`); where the condition is the exact one, a property holds throughout a
run exactly if the steps meet it (`throughout_iff_meets`).
-/

namespace Montauk.Machine

variable {σ α : Type} (step : σ → α → Option σ)

/-- The state behind a list of actions, if all of them can be taken. -/
def run : σ → List α → Option σ
  | s, [] => some s
  | s, a :: as => (step s a).bind fun s' => run s' as

/-- Every step of a run is taken in a state where `ok` holds of it. -/
def Meets (ok : σ → α → Prop) : σ → List α → Prop
  | _, [] => True
  | s, a :: as => ok s a ∧ ∀ s', step s a = some s' → Meets ok s' as

/-- A property holds of every state of a run. -/
def Throughout (Q : σ → Prop) : σ → List α → Prop
  | s, [] => Q s
  | s, a :: as => Q s ∧ ∀ s', step s a = some s' → Throughout Q s' as

variable {step} {ok : σ → α → Prop} {s s' : σ} {a : α} {as : List α}

theorem run_nil (h : run step s [] = some s') : s = s' :=
  Option.some.inj h

theorem run_cons (h : run step s (a :: as) = some s') :
    ∃ t, step s a = some t ∧ run step t as = some s' :=
  Option.bind_eq_some_iff.mp h

theorem meets_nil : Meets step ok s [] := trivial

theorem meets_cons {t : σ} (ha : ok s a) (hstep : step s a = some t) (hrest : Meets step ok t as) :
    Meets step ok s (a :: as) := by
  refine ⟨ha, fun s' hs' => ?_⟩
  rw [hstep] at hs'
  cases hs'
  exact hrest

theorem run_keeps {I : σ → Prop} (hstep : ∀ s a s', I s → ok s a → step s a = some s' → I s')
    (hok : Meets step ok s as) (h : run step s as = some s') (hs : I s) : I s' := by
  induction as generalizing s with
  | nil =>
    cases run_nil h
    exact hs
  | cons a as ih =>
    obtain ⟨t, ht, hrest⟩ := run_cons h
    exact ih (hok.2 t ht) hrest (hstep s a t hs hok.1 ht)

theorem meets_of_forall (h : ∀ s a, ok s a) : Meets step ok s as := by
  induction as generalizing s with
  | nil => trivial
  | cons a as ih => exact ⟨h s a, fun _ _ => ih⟩

/-- The case without a condition on the steps. -/
theorem run_invariant {I : σ → Prop} (hstep : ∀ s a s', I s → step s a = some s' → I s')
    (h : run step s as = some s') (hs : I s) : I s' :=
  run_keeps (fun s a s' hI _ => hstep s a s' hI)
    (meets_of_forall fun _ _ => trivial) h hs

/-- A property that a step keeps exactly if `ok` holds of it stays true
throughout a run exactly if every step meets `ok`. -/
theorem throughout_iff_meets {I Q : σ → Prop} (hI : ∀ s a s', I s → step s a = some s' → I s')
    (hQ : ∀ s a s', I s → Q s → step s a = some s' → (Q s' ↔ ok s a))
    (h : run step s as = some s') (hs : I s) (hq : Q s) : Throughout step Q s as ↔ Meets step ok s as := by
  induction as generalizing s with
  | nil => exact iff_of_true hq trivial
  | cons a as ih =>
    obtain ⟨t, ht, hrest⟩ := run_cons h
    constructor
    · intro hall
      have hrestQ : Throughout step Q t as := hall.2 t ht
      have hqt : Q t := by
        cases as with
        | nil => exact hrestQ
        | cons b bs => exact hrestQ.1
      exact meets_cons ((hQ s a t hs hq ht).mp hqt) ht ((ih hrest (hI s a t hs ht) hqt).mp hrestQ)
    · intro hmeets
      have hqt : Q t := (hQ s a t hs hq ht).mpr hmeets.1
      refine ⟨hq, fun t' ht' => ?_⟩
      obtain rfl : t = t' := Option.some.inj (ht.symm.trans ht')
      exact (ih hrest (hI s a t hs ht) hqt).mpr (hmeets.2 t ht)

end Montauk.Machine
