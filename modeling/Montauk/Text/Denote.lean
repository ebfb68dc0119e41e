import Mathlib.Data.List.TakeWhile
import Montauk.Automata.PowerShape
import Montauk.Text.FieldSound
import Montauk.Text.Match

/-!
# What an accepted pattern denotes

The field against the textbook reading of a pattern. A bounded repeat
copies the byte set of the atom's only position; that atom denotes one of
four languages over the set (`Re.shape`), so the copies amount to the
bounded powers as long as the bounds are in order and a lower bound of two
or more stands behind no atom that matches the empty word
(`fieldLang_eq_lang`). Together with `buildGnfaAt_spec` this is the
denotation theorem of the whole-input match (`gnfaFull_denotes`).
-/

open scoped Computability

namespace Montauk

open PosAutomaton

namespace Re

/-- Bounded repeats stand behind one-position atoms only, and a character
folded by alternation takes at least two positions. -/
def wf : Re → Bool
  | pos _ _ => true
  | folds ws => decide (2 ≤ ws.flatten.length)
  | empty => true
  | group a => a.wf
  | cat a b => a.wf && b.wf
  | alt a b => a.wf && b.wf
  | star a => a.wf
  | plus a => a.wf
  | opt a => a.wf
  | rep _ _ a => a.wf && a.sets.length == 1
  | stacked a => a.wf

/-- The copies of a bounded repeat over any language. -/
def copies (L : Language UInt8) (lo : Nat) : Nat → Nat → Language UInt8
  | 0, _ => 1
  | n + 1, ci => (if lo ≤ ci then 1 + L else L) * copies L lo n (ci + 1)

theorem copiesLang_eq (S : ByteSet) (lo : Nat) :
    ∀ n ci, copiesLang S lo n ci = copies (setLang S) lo n ci
  | 0, _ => rfl
  | n + 1, ci => by rw [copiesLang, copies, copiesLang_eq S lo n (ci + 1)]

theorem copies_mono {L M : Language UInt8} (h : L ≤ M) (lo : Nat) :
    ∀ n ci, copies L lo n ci ≤ copies M lo n ci
  | 0, _ => le_rfl
  | n + 1, ci => by
      rw [copies, copies]
      have ih := copies_mono h lo n (ci + 1)
      split
      · gcongr
      · gcongr

/-- A copy that may be left out, and `j` more: `j` copies or one more. -/
theorem pow_of_copy {L : Language UInt8} {opt : Prop} [Decidable opt] {a b : List UInt8} {j : Nat}
    (ha : a ∈ if opt then 1 + L else L) (hb : b ∈ L ^ j) :
    a ++ b ∈ L ^ (j + 1) ∨ (opt ∧ a ++ b ∈ L ^ j) := by
  have hstep : a ∈ L → a ++ b ∈ L ^ (j + 1) := by
    intro ha
    rw [pow_succ']
    exact Language.append_mem_mul ha hb
  split at ha
  · rename_i hopt
    rw [Language.mem_add, Language.mem_one] at ha
    rcases ha with rfl | ha
    · exact Or.inr ⟨hopt, hb⟩
    · exact Or.inl (hstep ha)
  · exact Or.inl (hstep ha)

/-- A word of the copies takes between the mandatory ones and all of them. -/
theorem pow_of_mem_copies {L : Language UInt8} {lo : Nat} :
    ∀ {n ci : Nat} {u : List UInt8}, u ∈ copies L lo n ci →
      ∃ j, min n (lo - ci) ≤ j ∧ j ≤ n ∧ u ∈ L ^ j
  | 0, _, u, h => ⟨0, by omega, le_rfl, by rwa [pow_zero]⟩
  | n + 1, ci, u, h => by
      rw [copies, Language.mem_mul] at h
      obtain ⟨a, ha, b, hb, rfl⟩ := h
      obtain ⟨j, hj, hjn, hbj⟩ := pow_of_mem_copies hb
      rcases pow_of_copy ha hbj with hmore | ⟨hlo, hsame⟩
      · exact ⟨j + 1, by omega, by omega, hmore⟩
      · exact ⟨j, by omega, by omega, hsame⟩

/-- Every power between the mandatory copies and all of them is covered. -/
theorem pow_le_copies {L : Language UInt8} {lo : Nat} :
    ∀ {n ci j : Nat}, min n (lo - ci) ≤ j → j ≤ n → L ^ j ≤ copies L lo n ci
  | 0, _, j, _, hj => by
      obtain rfl : j = 0 := by omega
      rw [pow_zero]
      exact le_rfl
  | n + 1, ci, 0, h, _ => by
      rw [copies, if_pos (by omega), pow_zero]
      have ih : L ^ 0 ≤ copies L lo n (ci + 1) := pow_le_copies (by omega) (Nat.zero_le n)
      rw [pow_zero] at ih
      calc (1 : Language UInt8) = 1 * 1 := (one_mul 1).symm
        _ ≤ (1 + L) * copies L lo n (ci + 1) := by
          gcongr
          exact le_add_of_nonneg_right zero_le
  | n + 1, ci, j + 1, h, hj => by
      rw [copies, pow_succ']
      have ih : L ^ j ≤ copies L lo n (ci + 1) := pow_le_copies (by omega) (by omega)
      split
      · gcongr
        exact le_add_of_nonneg_left zero_le
      · gcongr

theorem opt_pow_le_copies {L : Language UInt8} {lo : Nat} :
    ∀ {n ci j : Nat}, lo ≤ ci → j ≤ n → (1 + L) ^ j ≤ copies L lo n ci
  | n, ci, 0, hlo, _ => by
      have h : L ^ 0 ≤ copies L lo n ci := pow_le_copies (by omega) (Nat.zero_le n)
      rwa [pow_zero] at h ⊢
  | 0, _, j + 1, _, hj => absurd hj (by omega)
  | n + 1, ci, j + 1, hlo, hj => by
      rw [copies, if_pos hlo, pow_succ']
      have ih : (1 + L) ^ j ≤ copies L lo n (ci + 1) := opt_pow_le_copies (by omega) (by omega)
      gcongr

def powers (L : Language UInt8) (lo hi : Nat) : Language UInt8 :=
  {w | ∃ i, lo ≤ i ∧ i ≤ hi ∧ w ∈ L ^ i}

/-- **Copying the symbol set**: behind an atom over one set, the first atom
and the copies of its set are its bounded powers. -/
theorem powers_eq {S X : Language UInt8} {nul : Bool} (hX : PowerShape S X nul) {lo hi : Nat}
    (hhi : hi ≠ 0) (hle : lo ≤ hi) (hnul : lo ≤ 1 ∨ nul = false) :
    (if lo = 0 then 1 + X else X) * copies S lo (hi - 1) 1 = powers X lo hi := by
  have hfirst : X ≤ if lo = 0 then 1 + X else X := by
    split
    · exact le_add_of_nonneg_left zero_le
    · exact le_rfl
  refine le_antisymm (fun u hu => ?_) ?_
  · obtain ⟨a, ha, b, hb, rfl⟩ := Language.mem_mul.mp hu
    obtain ⟨j, hj, hjn, hbj⟩ := pow_of_mem_copies (copies_mono hX.le lo (hi - 1) 1 hb)
    rcases pow_of_copy ha hbj with hmore | ⟨hlo, hsame⟩
    · exact ⟨j + 1, by omega, by omega, hmore⟩
    · exact ⟨j, by omega, by omega, hsame⟩
  · rintro u ⟨i, hlo, hihi, hu⟩
    cases i with
    | zero =>
        have hnil : ([] : List UInt8) ∈ copies S lo (hi - 1) 1 := by
          have h0 : S ^ 0 ≤ copies S lo (hi - 1) 1 := pow_le_copies (by omega) (by omega)
          exact h0 (by rw [pow_zero]; exact Language.nil_mem_one)
        rw [pow_zero, Language.mem_one] at hu
        rw [if_pos (by omega), hu]
        exact Language.append_mem_mul (a := []) (b := []) (Or.inl rfl) hnil
    | succ n =>
        have hcover : ∃ Y : Language UInt8, X ^ (n + 1) ≤ X * Y ∧ Y ≤ copies S lo (hi - 1) 1 := by
          cases nul with
          | false => exact ⟨S ^ n, hX.pow_le n, pow_le_copies (by omega) (by omega)⟩
          | true =>
              have hlo1 : lo ≤ 1 := hnul.resolve_right (by simp)
              exact ⟨(1 + S) ^ n, hX.pow_le_opt n, opt_pow_le_copies hlo1 (by omega)⟩
        obtain ⟨Y, hXY, hY⟩ := hcover
        obtain ⟨a, ha, b, hb, rfl⟩ := Language.mem_mul.mp (hXY hu)
        exact Language.append_mem_mul (hfirst ha) (hY hb)

/-! ## Trees over one position -/

theorem braceOk_rep {lo hi : Nat} {a : Re} (h : (rep lo hi a).braceOk = true) :
    a.braceOk = true ∧ lo ≤ hi ∧ kept lo = lo ∧ kept hi = hi ∧ (lo ≤ 1 ∨ a.nullable = false) := by
  simp only [braceOk, Bool.and_eq_true, Bool.or_eq_true, decide_eq_true_eq, Bool.not_eq_true'] at h
  obtain ⟨⟨ha, hle, hlt⟩, hnul⟩ := h
  exact ⟨ha, hle, kept_of_lt (hle.trans_lt hlt), kept_of_lt hlt, hnul⟩

/-- A tree without positions denotes the empty word. -/
theorem fieldLang_of_sets_nil : ∀ {t : Re}, t.wf = true → t.braceOk = true → t.sets = [] →
    t.fieldLang = 1 ∧ t.nullable = true
  | pos _ _, _, _, h => absurd h (List.cons_ne_nil _ _)
  | folds ws, hw, _, h => by
      have h2 : 2 ≤ ws.flatten.length := of_decide_eq_true hw
      rw [sets, List.map_eq_nil_iff] at h
      rw [h] at h2
      exact absurd h2 (by simp)
  | empty, _, _, _ => ⟨rfl, rfl⟩
  | group a, hw, hb, h => fieldLang_of_sets_nil (t := a) hw hb h
  | cat a b, hw, hb, h => by
      obtain ⟨hwa, hwb⟩ := Bool.and_eq_true_iff.mp hw
      obtain ⟨hba, hbb⟩ := Bool.and_eq_true_iff.mp hb
      obtain ⟨ha, hb'⟩ := List.append_eq_nil_iff.mp h
      obtain ⟨h1, h2⟩ := fieldLang_of_sets_nil hwa hba ha
      obtain ⟨h3, h4⟩ := fieldLang_of_sets_nil hwb hbb hb'
      exact ⟨by rw [fieldLang, h1, h3, one_mul], by rw [nullable, h2, h4]; rfl⟩
  | alt a b, hw, hb, h => by
      obtain ⟨hwa, hwb⟩ := Bool.and_eq_true_iff.mp hw
      obtain ⟨hba, hbb⟩ := Bool.and_eq_true_iff.mp hb
      obtain ⟨ha, hb'⟩ := List.append_eq_nil_iff.mp h
      obtain ⟨h1, h2⟩ := fieldLang_of_sets_nil hwa hba ha
      obtain ⟨h3, h4⟩ := fieldLang_of_sets_nil hwb hbb hb'
      exact ⟨by rw [fieldLang, h1, h3, add_idem], by rw [nullable, h2, h4]; rfl⟩
  | star a, hw, hb, h => by
      obtain ⟨h1, -⟩ := fieldLang_of_sets_nil (t := a) hw hb h
      exact ⟨by rw [fieldLang, h1, kstar_one], rfl⟩
  | plus a, hw, hb, h => by
      obtain ⟨h1, h2⟩ := fieldLang_of_sets_nil (t := a) hw hb h
      exact ⟨by rw [fieldLang, h1, kstar_one, one_mul], h2⟩
  | opt a, hw, hb, h => by
      obtain ⟨h1, -⟩ := fieldLang_of_sets_nil (t := a) hw hb h
      exact ⟨by rw [fieldLang, h1, add_idem], rfl⟩
  | rep lo hi a, hw, hb, h => by
      obtain ⟨-, hle, -, hkept, -⟩ := braceOk_rep hb
      by_cases hhi : kept hi = 0
      · obtain rfl : lo = 0 := Nat.le_zero.mp (hle.trans_eq (hkept.symm.trans hhi))
        exact ⟨by rw [fieldLang, if_pos hhi], rfl⟩
      · obtain ⟨-, hone⟩ := Bool.and_eq_true_iff.mp hw
        rw [sets, if_neg hhi, List.append_eq_nil_iff] at h
        rw [h.1] at hone
        exact absurd hone (by simp)
  | stacked a, hw, hb, h => fieldLang_of_sets_nil (t := a) hw hb h

/-- A tree over one position denotes one of four languages over its set. -/
theorem shape : ∀ {t : Re} {S : ByteSet}, t.wf = true → t.braceOk = true → t.sets = [S] →
    PowerShape (setLang S) t.fieldLang t.nullable
  | pos _ _, S, _, _, h => by
      obtain rfl := List.singleton_inj.mp h
      exact .single
  | folds ws, S, hw, _, h => by
      have h2 : 2 ≤ ws.flatten.length := of_decide_eq_true hw
      have h1 := congrArg List.length h
      rw [sets, List.length_map, List.length_singleton] at h1
      omega
  | empty, S, _, _, h => absurd h (by simp [sets])
  | group a, S, hw, hb, h => shape (t := a) hw hb h
  | cat a b, S, hw, hb, h => by
      obtain ⟨hwa, hwb⟩ := Bool.and_eq_true_iff.mp hw
      obtain ⟨hba, hbb⟩ := Bool.and_eq_true_iff.mp hb
      rw [fieldLang, nullable]
      rcases List.append_eq_singleton_iff.mp h with ⟨ha, hb'⟩ | ⟨ha, hb'⟩
      · obtain ⟨h1, h2⟩ := fieldLang_of_sets_nil hwa hba ha
        rw [h1, h2, one_mul, Bool.true_and]
        exact shape hwb hbb hb'
      · obtain ⟨h1, h2⟩ := fieldLang_of_sets_nil hwb hbb hb'
        rw [h1, h2, mul_one, Bool.and_true]
        exact shape hwa hba ha
  | alt a b, S, hw, hb, h => by
      obtain ⟨hwa, hwb⟩ := Bool.and_eq_true_iff.mp hw
      obtain ⟨hba, hbb⟩ := Bool.and_eq_true_iff.mp hb
      rw [fieldLang, nullable]
      rcases List.append_eq_singleton_iff.mp h with ⟨ha, hb'⟩ | ⟨ha, hb'⟩
      · obtain ⟨h1, h2⟩ := fieldLang_of_sets_nil hwa hba ha
        rw [h1, h2, Bool.true_or]
        exact (shape hwb hbb hb').one_add
      · obtain ⟨h1, h2⟩ := fieldLang_of_sets_nil hwb hbb hb'
        rw [h1, h2, Bool.or_true, add_comm]
        exact (shape hwa hba ha).one_add
  | star a, S, hw, hb, h => (shape (t := a) hw hb h).self_star
  | plus a, S, hw, hb, h => (shape (t := a) hw hb h).self_plus
  | opt a, S, hw, hb, h => (shape (t := a) hw hb h).one_add
  | rep lo hi a, S, hw, hb, h => by
      obtain ⟨hwa, -⟩ := Bool.and_eq_true_iff.mp hw
      obtain ⟨hba, hle, hlo, hkept, -⟩ := braceOk_rep hb
      by_cases hhi : kept hi = 0
      · rw [sets, if_pos hhi] at h
        exact absurd h (by simp)
      · have hlen := congrArg List.length h
        rw [sets, if_neg hhi] at h hlen
        obtain ⟨hone, -⟩ : a.sets.length = 1 ∧ True := ⟨by
          have := (Bool.and_eq_true_iff.mp hw).2
          exact beq_iff_eq.mp this, trivial⟩
        rw [List.length_append, List.length_replicate, List.length_singleton] at hlen
        have hone' : kept hi = 1 := by omega
        rw [hone', Nat.sub_self, List.replicate_zero, List.append_nil] at h
        have ih := shape hwa hba h
        rw [fieldLang, if_neg hhi, hone', Nat.sub_self, copiesLang, mul_one, nullable]
        by_cases hlo : kept lo = 0
        · rw [if_pos hlo, hlo, beq_self_eq_true, Bool.true_or]
          exact ih.one_add
        · rw [if_neg hlo, beq_false_of_ne hlo, Bool.false_or]
          exact ih
  | stacked a, S, hw, hb, h => shape (t := a) hw hb h

theorem powers_zero (L : Language UInt8) : powers L 0 0 = 1 := by
  ext u
  rw [Language.mem_one]
  constructor
  · rintro ⟨i, -, hi, hu⟩
    rw [Nat.le_zero.mp hi, pow_zero, Language.mem_one] at hu
    exact hu
  · rintro rfl
    exact ⟨0, le_rfl, le_rfl, by rw [pow_zero]; exact Language.nil_mem_one⟩

/-- **The construction builds the textbook language** of a tree whose
braces are in order. -/
theorem fieldLang_eq_lang : ∀ {t : Re}, t.wf = true → t.braceOk = true → t.fieldLang = t.lang
  | pos _ _, _, _ => rfl
  | folds _, _, _ => rfl
  | empty, _, _ => rfl
  | group a, hw, hb => fieldLang_eq_lang (t := a) hw hb
  | cat a b, hw, hb => by
      obtain ⟨hwa, hwb⟩ := Bool.and_eq_true_iff.mp hw
      obtain ⟨hba, hbb⟩ := Bool.and_eq_true_iff.mp hb
      rw [fieldLang, lang, fieldLang_eq_lang hwa hba, fieldLang_eq_lang hwb hbb]
  | alt a b, hw, hb => by
      obtain ⟨hwa, hwb⟩ := Bool.and_eq_true_iff.mp hw
      obtain ⟨hba, hbb⟩ := Bool.and_eq_true_iff.mp hb
      rw [fieldLang, lang, fieldLang_eq_lang hwa hba, fieldLang_eq_lang hwb hbb]
  | star a, hw, hb => by rw [fieldLang, lang, fieldLang_eq_lang (t := a) hw hb]
  | plus a, hw, hb => by rw [fieldLang, lang, fieldLang_eq_lang (t := a) hw hb]
  | opt a, hw, hb => by rw [fieldLang, lang, fieldLang_eq_lang (t := a) hw hb]
  | rep lo hi a, hw, hb => by
      obtain ⟨hwa, hone⟩ := Bool.and_eq_true_iff.mp hw
      obtain ⟨hba, hle, hlo, hkept, hnul⟩ := braceOk_rep hb
      have ih := fieldLang_eq_lang hwa hba
      show (rep lo hi a).fieldLang = powers a.lang lo hi
      rw [fieldLang, hlo, hkept, ← ih]
      by_cases hhi : hi = 0
      · subst hhi
        rw [if_pos rfl, Nat.le_zero.mp hle, powers_zero]
      · obtain ⟨S, hS⟩ := List.length_eq_one_iff.mp (beq_iff_eq.mp hone)
        have hsh := shape hwa hba hS
        rw [if_neg hhi, copiesLang_eq, hS, List.headD_cons]
        exact powers_eq hsh hhi hle hnul
  | stacked a, hw, hb => fieldLang_eq_lang (t := a) hw hb

/-- A character that is folded by alternation spans two bytes or more. -/
theorem two_le_foldBranches {icase : Bool} {p : List UInt8} {left n : Nat} {ms : List Nat}
    (h : foldClass? icase p left = some (n, ms)) : 2 ≤ (foldBranches p n ms).flatten.length := by
  have hlen : 2 ≤ (p.take n).length := by
    rw [foldClass?] at h
    split at h
    · split at h
      · rename_i hdec
        split at h
        · rename_i hn
          obtain ⟨rfl, -⟩ := Prod.mk.inj (Option.some.inj h)
          obtain ⟨-, hle, -⟩ := u8Decode_bytes hdec
          rw [List.length_take]
          omega
        · exact absurd h (by simp)
      · exact absurd h (by simp)
    · exact absurd h (by simp)
  rw [foldBranches, List.flatten_cons, List.length_append]
  omega

theorem closed_wf (icase : Bool) : Re.Closed icase fun t => t.wf = true where
  pos _ _ := rfl
  folds _ _ _ _ h := decide_eq_true (two_le_foldBranches h)
  empty := rfl
  group _ h := h
  cat _ _ ha hb := Bool.and_eq_true_iff.mpr ⟨ha, hb⟩
  alt _ _ ha hb := Bool.and_eq_true_iff.mpr ⟨ha, hb⟩
  star _ h := h
  plus _ h := h
  opt _ h := h
  rep _ _ _ hone h := Bool.and_eq_true_iff.mpr ⟨h, beq_iff_eq.mpr hone⟩
  stacked _ h := h

end Re

/-! ## The whole-input match -/

/-- What a pattern accepted by the field's parser denotes, when its braces
are in order and no position is handed back with a loop on it. -/
theorem Built.lang_eq {w : Nat} {pat : List UInt8} {icase : Bool} {g : Gnfa w} {t : Re}
    (h : Built pat icase g t) (hc : t.clean = true) (hb : t.braceOk = true) :
    (g.frag (buildImap g)).lang = t.lang := by
  rw [h.lang hc, Re.fieldLang_eq_lang (parseRe_closed (Re.closed_wf icase) h.parse) hb]

theorem buildGnfa_built {pat : List UInt8} {icase : Bool} {n : Nat} {g : Gnfa (64 * n)}
    (h : buildGnfa pat icase = some ⟨n, g⟩) : ∃ t, Built pat icase g t := by
  rw [buildGnfa] at h
  dsimp only at h
  split at h
  · rename_i hacc
    obtain ⟨rfl, hg⟩ := Sigma.mk.inj (Option.some.inj h)
    obtain rfl := eq_of_heq hg
    exact buildGnfaAt_spec hacc
  · split at h
    · exact absurd h (by simp)
    · split at h
      · rename_i hacc
        obtain ⟨rfl, hg⟩ := Sigma.mk.inj (Option.some.inj h)
        obtain rfl := eq_of_heq hg
        exact buildGnfaAt_spec hacc
      · exact absurd h (by simp)

theorem zero_notMem_cString (p : List UInt8) : (0 : UInt8) ∉ cString p := by
  intro h
  have hall : (cString p).all (· != 0) = true := List.all_takeWhile
  exact absurd (List.all_eq_true.mp hall 0 h) (by decide)

theorem cString_of_notMem {p : List UInt8} (h0 : (0 : UInt8) ∉ p) : cString p = p := by
  rw [cString, List.takeWhile_eq_self_iff]
  intro c hc
  exact bne_iff_ne.mpr fun h => h0 (h ▸ hc)

/-- A search compiled on the regex face from a pattern, and the tree the
grammar reads. -/
structure RegexFace (pattern : List UInt8) (icase : Bool) (s : Search) (t : Re) : Prop where
  source : s.pattern = pattern
  mode : s.mode = .regex
  folds : s.icase = icase
  valid : s.valid = true
  imap : s.imap = buildImap s.g
  built : Built (cString pattern) icase s.g t

/-- Every valid search without `SUBLIMATION_SEARCH_FIXED` and mismatches is
one. -/
theorem searchCompile_regex {pattern : List UInt8} {icase : Bool}
    (hv : (searchCompile pattern ⟨false, icase⟩ 0).valid = true) :
    ∃ t, RegexFace pattern icase (searchCompile pattern ⟨false, icase⟩ 0) t := by
  rw [searchCompile] at hv ⊢
  dsimp only at hv ⊢
  split at hv
  · exact absurd hv Bool.false_ne_true
  · rename_i hlen
    rw [if_neg hlen, if_neg (lt_irrefl _), if_neg Bool.false_ne_true]
    rw [if_neg (lt_irrefl _), if_neg Bool.false_ne_true] at hv
    cases hb : buildGnfa (cString pattern) icase with
    | none =>
        rw [hb] at hv
        exact absurd hv Bool.false_ne_true
    | some r =>
        obtain ⟨n, g⟩ := r
        obtain ⟨t, ht⟩ := buildGnfa_built hb
        exact ⟨t, rfl, rfl, rfl, rfl, rfl, ht⟩

theorem peelAnchors_bare {pat : List UInt8} (hs : pat.head? ≠ some Ch.caret)
    (he : pat.getLast? ≠ some Ch.dollar) : peelAnchors pat = (false, false, pat) := by
  have hs' : (pat.head? == some Ch.caret) = false := beq_false_of_ne hs
  have he' : (pat.getLast? == some Ch.dollar) = false := beq_false_of_ne he
  rw [peelAnchors, hs']
  simp only [Bool.false_eq_true, if_false, he']

/-- **Denotation**: an accepted pattern without anchors reads as a tree, and
when every brace of the tree has its bounds in order, repeats an atom
twice or more only if that atom does not match the empty word, and drops
no atom with a loop in it, the whole-input match accepts exactly the words
the tree denotes. -/
theorem gnfaFull_denotes {pat : List UInt8} (hs : pat.head? ≠ some Ch.caret)
    (he : pat.getLast? ≠ some Ch.dollar) {n : Nat} {g : Gnfa (64 * n)}
    (hg : buildGnfa pat false = some ⟨n, g⟩) :
    ∃ t, parseRe false pat = some t ∧ (t.clean = true → t.braceOk = true →
      ∀ u, gnfaFull g (buildImap g) u = true ↔ u ∈ t.lang) := by
  obtain ⟨t, ht⟩ := buildGnfa_built hg
  have hparse := ht.parse
  rw [peelAnchors_bare hs he] at hparse
  refine ⟨t, hparse, fun hc hb u => ?_⟩
  rw [gnfaFull_iff, ht.lang_eq hc hb]

/-- `a{2,3}`. -/
theorem gnfaFull_denotes_brace :
    ∃ (n : Nat) (g : Gnfa (64 * n)),
      buildGnfa [0x61, 0x7b, 0x32, 0x2c, 0x33, 0x7d] false = some ⟨n, g⟩
        ∧ ∃ t, parseRe false [0x61, 0x7b, 0x32, 0x2c, 0x33, 0x7d] = some t
          ∧ (t.clean = true → t.braceOk = true →
            ∀ u, gnfaFull g (buildImap g) u = true ↔ u ∈ t.lang) := by
  have hsome : (buildGnfa [0x61, 0x7b, 0x32, 0x2c, 0x33, 0x7d] false).isSome = true := by
    decide +kernel
  obtain ⟨⟨n, g⟩, hg⟩ := Option.isSome_iff_exists.mp hsome
  exact ⟨n, g, hg, gnfaFull_denotes (by decide) (by decide) hg⟩

/-- `(a*){2}` denotes the empty word; its field does not accept it. -/
theorem gnfaFull_star_brace :
    ∃ t, parseRe false [0x28, 0x61, 0x2a, 0x29, 0x7b, 0x32, 0x7d] = some t ∧ [] ∈ t.lang
      ∧ (buildGnfa [0x28, 0x61, 0x2a, 0x29, 0x7b, 0x32, 0x7d] false).map
          (fun r => gnfaFull r.2 (buildImap r.2) []) = some false := by
  refine ⟨.rep 2 2 (.group (.star (.pos (.lit 0x61) (gsetByte 0 0x61 false)))),
    by decide +kernel, ⟨2, le_rfl, le_rfl, ?_⟩, by decide +kernel⟩
  rw [pow_two]
  exact Language.append_mem_mul (a := []) (b := []) (Language.nil_mem_kstar _)
    (Language.nil_mem_kstar _)

end Montauk
