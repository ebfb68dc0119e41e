import Montauk.Text.Captures

/-!
# The spans of the groups

What a tree can parse is a language (`CapNode.lang`), up to one corner: an open
repeat tries one copy more than the text has bytes left, so `(a?){3,}` does not
match the empty text (`CapNode.roomy`). The parser numbers the groups from left
to right (`capParse_groups`), and a parse leaves each group with a span that its
body denotes, or as it was (`CapNode.Parse.group`).
-/

open scoped Computability

namespace Montauk

/-! ## Slices -/

theorem slice_append {hay : List UInt8} {i m j : Nat} (him : i ≤ m) (hmj : m ≤ j) :
    slice hay i m ++ slice hay m j = slice hay i j := by
  have hdrop : hay.drop m = (hay.drop i).drop (m - i) := by rw [List.drop_drop, Nat.add_sub_cancel' him]
  rw [slice, slice, slice, hdrop, ← List.take_add]
  congr 1
  omega

theorem slice_split {hay a b : List UInt8} {i j : Nat} (hij : i ≤ j) (hj : j ≤ hay.length)
    (h : a ++ b = slice hay i j) : ∃ m, i ≤ m ∧ m ≤ j ∧ slice hay i m = a ∧ slice hay m j = b := by
  have hlen := congrArg List.length h
  rw [List.length_append, length_slice hj] at hlen
  have hm : i + a.length ≤ j := by omega
  have hboth := (@slice_append hay _ _ _ (Nat.le_add_right i a.length) hm).trans h.symm
  have ha : (slice hay i (i + a.length)).length = a.length := by
    rw [length_slice (hm.trans hj), Nat.add_sub_cancel_left]
  obtain ⟨h1, h2⟩ := List.append_inj hboth ha
  exact ⟨i + a.length, Nat.le_add_right .., hm, h1, h2⟩

theorem slice_one {hay : List UInt8} {i : Nat} {c : UInt8} (hc : hay[i]? = some c) : slice hay i (i + 1) = [c] := by
  rw [slice_succ (le_refl i) hc, slice_self, List.nil_append]

theorem slice_eq_one {hay : List UInt8} {i j : Nat} {c : UInt8} (hij : i ≤ j) (hj : j ≤ hay.length)
    (h : slice hay i j = [c]) : j = i + 1 ∧ hay[i]? = some c := by
  have hlen := congrArg List.length h
  rw [length_slice hj, List.length_singleton] at hlen
  obtain rfl : j = i + 1 := by omega
  have hc : hay[i]? = some hay[i] := List.getElem?_eq_getElem hj
  rw [slice_one hc, List.cons.injEq] at h
  exact ⟨rfl, hc.trans (congrArg some h.1)⟩

/-! ## The language of a node -/

namespace CapNode

/-- The one-byte words that pass `test`. -/
def byteLang (test : UInt8 → Bool) : Language UInt8 := {w | ∃ c, test c = true ∧ w = [c]}

/-- The words of `lo` to `hi` copies. -/
def copiesLang (L : Language UInt8) (lo : Nat) (hi : Option Nat) : Language UInt8 :=
  {w | ∃ cnt, lo ≤ cnt ∧ (∀ h ∈ hi, cnt ≤ h) ∧ w ∈ L ^ cnt}

def lang (icase : Bool) : CapNode → Language UInt8
  | .null => 1
  | .char ch => byteLang fun c => fold c icase == fold ch icase
  | .any => byteLang fun _ => true
  | .cls set => byteLang set.has
  | .concat a b => a.lang icase * b.lang icase
  | .alt a b => a.lang icase + b.lang icase
  | .rep a lo hi => if hi = 0 then 1 else copiesLang (a.lang icase) (least lo) (most hi)
  | .group _ a => a.lang icase

def nullable : CapNode → Bool
  | .null => true
  | .char _ | .any | .cls _ => false
  | .concat a b => a.nullable && b.nullable
  | .alt a b => a.nullable || b.nullable
  | .rep a lo hi => hi == 0 || least lo == 0 || a.nullable
  | .group _ a => a.nullable

/-- No open repeat asks for two copies or more of what may be empty. -/
def roomy : CapNode → Bool
  | .null | .char _ | .any | .cls _ => true
  | .concat a b | .alt a b => a.roomy && b.roomy
  | .rep a lo hi => a.roomy && ((most hi).isSome || decide (least lo ≤ 1) || !a.nullable)
  | .group _ a => a.roomy

/-- The groups and their bodies, by their opening parentheses. -/
def groups : CapNode → List (Nat × CapNode)
  | .null | .char _ | .any | .cls _ => []
  | .concat a b | .alt a b => a.groups ++ b.groups
  | .rep a _ _ => a.groups
  | .group x a => (x, a) :: a.groups

end CapNode

section
variable {text : List UInt8} {icase : Bool}

theorem nil_notMem_byteLang (test : UInt8 → Bool) : [] ∉ CapNode.byteLang test := by
  rintro ⟨c, -, h⟩
  exact absurd h nofun

theorem nullable_of_nil_mem {n : CapNode} (h : [] ∈ n.lang icase) : n.nullable = true := by
  induction n with
  | null => rfl
  | char ch => exact absurd h (nil_notMem_byteLang _)
  | any => exact absurd h (nil_notMem_byteLang _)
  | cls set => exact absurd h (nil_notMem_byteLang _)
  | concat a b iha ihb =>
      obtain ⟨u, hu, v, hv, huv⟩ := Language.mem_mul.mp h
      obtain ⟨rfl, rfl⟩ := List.append_eq_nil_iff.mp huv
      rw [CapNode.nullable, iha hu, ihb hv, Bool.true_and]
  | alt a b iha ihb =>
      rw [CapNode.nullable, Bool.or_eq_true]
      exact (Language.mem_add .. |>.mp h).imp iha ihb
  | group x a ih => exact ih h
  | rep a lo hi ih =>
      rw [CapNode.nullable]
      by_cases hhi : hi = 0
      · simp [hhi]
      rw [CapNode.lang, if_neg hhi] at h
      obtain ⟨cnt, hlo, -, hcnt⟩ := h
      cases cnt with
      | zero => simp [Nat.le_zero.mp hlo]
      | succ cnt =>
          rw [pow_succ'] at hcnt
          obtain ⟨u, hu, v, -, huv⟩ := Language.mem_mul.mp hcnt
          obtain ⟨rfl, -⟩ := List.append_eq_nil_iff.mp huv
          simp [ih hu]

theorem mem_pow_short {L : Language UInt8} :
    ∀ {n : Nat} {w : List UInt8}, w ∈ L ^ n → ∃ m, m ≤ n ∧ m ≤ w.length ∧ w ∈ L ^ m ∧ (m = n ∨ [] ∈ L)
  | 0, w, h => ⟨0, le_refl _, Nat.zero_le _, h, .inl rfl⟩
  | n + 1, w, h => by
      rw [pow_succ'] at h
      obtain ⟨u, hu, v, hv, rfl⟩ := Language.mem_mul.mp h
      obtain ⟨m, hmn, hlen, hm, hor⟩ := mem_pow_short hv
      cases u with
      | nil => exact ⟨m, hmn.trans (Nat.le_succ n), hlen, hm, .inr hu⟩
      | cons c u =>
          refine ⟨m + 1, Nat.succ_le_succ hmn, ?_, ?_, hor.imp_left (congrArg Nat.succ)⟩
          · rw [List.length_append, List.length_cons]
            omega
          · rw [pow_succ']
            exact Language.append_mem_mul hu hm

/-- So a repeat needs no more copies than there are bytes, and one. -/
theorem mem_pow_roomy {L : Language UInt8} {lo n : Nat} {w : List UInt8} (h : w ∈ L ^ n) (hlo : lo ≤ n)
    (hL : [] ∈ L → lo ≤ 1) : ∃ m, lo ≤ m ∧ m ≤ w.length + 1 ∧ w ∈ L ^ m := by
  obtain ⟨m, hmn, hlen, hm, hor⟩ := mem_pow_short h
  by_cases hle : lo ≤ m
  · exact ⟨m, hle, hlen.trans (Nat.le_succ _), hm⟩
  · have hnil : [] ∈ L := hor.resolve_left (by omega)
    have h1 := hL hnil
    obtain rfl : m = 0 := by omega
    rw [pow_zero, Language.mem_one] at hm
    subst hm
    exact ⟨1, h1, Nat.le_add_left .., by rwa [pow_one]⟩

/-! ## What a parse denotes -/

theorem iter_sound {R : Nat → CapSpans → Nat → CapSpans → Prop} {L : Language UInt8}
    (hR : ∀ {i j g h}, i ≤ text.length → R i g j h → i ≤ j ∧ j ≤ text.length ∧ slice text i j ∈ L) (cnt : Nat) :
    ∀ {i j g h}, i ≤ text.length → Iter R cnt i g j h → i ≤ j ∧ j ≤ text.length ∧ slice text i j ∈ L ^ cnt := by
  induction cnt with
  | zero =>
      rintro i j g h hi ⟨rfl, -⟩
      refine ⟨le_refl i, hi, ?_⟩
      rw [slice_self, pow_zero]
      exact Language.nil_mem_one
  | succ cnt ih =>
      rintro i j g h hi ⟨m, gm, hone, hrest⟩
      obtain ⟨him, hm, hu⟩ := hR hi hone
      obtain ⟨hmj, hj, hv⟩ := ih hm hrest
      refine ⟨him.trans hmj, hj, ?_⟩
      rw [← slice_append him hmj, pow_succ']
      exact Language.append_mem_mul hu hv

theorem CapNode.Parse.sound {n : CapNode} : ∀ {i j : Nat} {g h : CapSpans}, i ≤ text.length →
    n.Parse text icase i g j h → i ≤ j ∧ j ≤ text.length ∧ slice text i j ∈ n.lang icase := by
  have hbyte : ∀ {test : UInt8 → Bool} {i j : Nat} {g h : CapSpans}, i ≤ text.length →
      ParseByte text test i g j h → i ≤ j ∧ j ≤ text.length ∧ slice text i j ∈ byteLang test := by
    rintro test i j g h - ⟨c, hc, ht, rfl, -⟩
    obtain ⟨hlt, -⟩ := List.getElem?_eq_some_iff.mp hc
    exact ⟨Nat.le_succ i, hlt, c, ht, slice_one hc⟩
  have hsame : ∀ {i j : Nat} {g h : CapSpans}, i ≤ text.length → i = j ∧ g = h →
      i ≤ j ∧ j ≤ text.length ∧ slice text i j ∈ (1 : Language UInt8) := by
    rintro i j g h hi ⟨rfl, -⟩
    refine ⟨le_refl i, hi, ?_⟩
    rw [slice_self]
    exact Language.nil_mem_one
  induction n with
  | null => exact hsame
  | char ch => exact hbyte
  | any => exact hbyte
  | cls set => exact hbyte
  | concat a b iha ihb =>
      rintro i j g h hi ⟨m, gm, ha, hb⟩
      obtain ⟨him, hm, hu⟩ := iha hi ha
      obtain ⟨hmj, hj, hv⟩ := ihb hm hb
      refine ⟨him.trans hmj, hj, ?_⟩
      rw [← slice_append him hmj]
      exact Language.append_mem_mul hu hv
  | alt a b iha ihb =>
      rintro i j g h hi (ha | hb)
      · obtain ⟨hij, hj, hu⟩ := iha hi ha
        exact ⟨hij, hj, .inl hu⟩
      · obtain ⟨hij, hj, hu⟩ := ihb hi hb
        exact ⟨hij, hj, .inr hu⟩
  | group x a ih =>
      rintro i j g h hi ⟨h', ha, -⟩
      exact ih hi ha
  | rep a lo hi ih =>
      intro i j g h hle hparse
      rw [CapNode.Parse] at hparse
      rw [CapNode.lang]
      split at hparse
      · rename_i hhi
        rw [if_pos hhi]
        exact hsame hle hparse
      · rename_i hhi
        rw [if_neg hhi]
        obtain ⟨cnt, hlo, hmax, hiter⟩ := hparse
        obtain ⟨hij, hj, hu⟩ := iter_sound (R := a.Parse text icase) ih cnt hle hiter
        refine ⟨hij, hj, cnt, hlo, fun top htop => ?_, hu⟩
        rw [maxCopies, Option.mem_def.mp htop] at hmax
        exact hmax

theorem iter_complete {R : Nat → CapSpans → Nat → CapSpans → Prop} {L : Language UInt8}
    (hR : ∀ {i j}, i ≤ j → j ≤ text.length → slice text i j ∈ L → ∀ g, ∃ h, R i g j h) (cnt : Nat) :
    ∀ {i j}, i ≤ j → j ≤ text.length → slice text i j ∈ L ^ cnt → ∀ g, ∃ h, Iter R cnt i g j h := by
  induction cnt with
  | zero =>
      intro i j hij hj hmem g
      have hlen := congrArg List.length (Language.mem_one _ |>.mp hmem)
      rw [length_slice hj, List.length_nil] at hlen
      exact ⟨g, by omega, rfl⟩
  | succ cnt ih =>
      intro i j hij hj hmem g
      rw [pow_succ'] at hmem
      obtain ⟨u, hu, v, hv, huv⟩ := Language.mem_mul.mp hmem
      obtain ⟨m, him, hmj, rfl, rfl⟩ := slice_split hij hj huv
      obtain ⟨gm, hone⟩ := hR him (hmj.trans hj) hu g
      obtain ⟨h, hrest⟩ := ih hmj hj hv gm
      exact ⟨h, m, gm, hone, hrest⟩

/-- A word of the node is parsed, whatever groups there are before. -/
theorem CapNode.Parse.complete {n : CapNode} (hn : n.roomy = true) : ∀ {i j : Nat}, i ≤ j → j ≤ text.length →
    slice text i j ∈ n.lang icase → ∀ g, ∃ h, n.Parse text icase i g j h := by
  have hbyte : ∀ {test : UInt8 → Bool} {i j : Nat}, i ≤ j → j ≤ text.length →
      slice text i j ∈ byteLang test → ∀ g, ∃ h, ParseByte text test i g j h := by
    rintro test i j hij hj ⟨c, ht, hc⟩ g
    obtain ⟨rfl, hget⟩ := slice_eq_one hij hj hc
    exact ⟨g, c, hget, ht, rfl, rfl⟩
  have hsame : ∀ {i j : Nat}, i ≤ j → j ≤ text.length → slice text i j ∈ (1 : Language UInt8) → i = j := by
    intro i j hij hj hmem
    have hlen := congrArg List.length (Language.mem_one _ |>.mp hmem)
    rw [length_slice hj, List.length_nil] at hlen
    omega
  induction n with
  | null => exact fun {i j} hij hj hmem g => ⟨g, hsame hij hj hmem, rfl⟩
  | char ch => exact @hbyte fun c => fold c icase == fold ch icase
  | any => exact @hbyte fun _ => true
  | cls set => exact @hbyte set.has
  | concat a b iha ihb =>
      intro i j hij hj hmem g
      obtain ⟨hna, hnb⟩ := Bool.and_eq_true_iff.mp hn
      obtain ⟨u, hu, v, hv, huv⟩ := Language.mem_mul.mp hmem
      obtain ⟨m, him, hmj, rfl, rfl⟩ := slice_split hij hj huv
      obtain ⟨gm, ha⟩ := iha hna him (hmj.trans hj) hu g
      obtain ⟨h, hb⟩ := ihb hnb hmj hj hv gm
      exact ⟨h, m, gm, ha, hb⟩
  | alt a b iha ihb =>
      intro i j hij hj hmem g
      obtain ⟨hna, hnb⟩ := Bool.and_eq_true_iff.mp hn
      rcases hmem with hu | hv
      · obtain ⟨h, ha⟩ := iha hna hij hj hu g
        exact ⟨h, .inl ha⟩
      · obtain ⟨h, hb⟩ := ihb hnb hij hj hv g
        exact ⟨h, .inr hb⟩
  | group x a ih =>
      intro i j hij hj hmem g
      obtain ⟨h, ha⟩ := ih hn hij hj hmem (g.open x i)
      exact ⟨h.close x j, h, ha, rfl⟩
  | rep a lo hi ih =>
      intro i j hij hj hmem g
      obtain ⟨hna, hroom⟩ := Bool.and_eq_true_iff.mp hn
      rw [CapNode.lang] at hmem
      split at hmem
      · rename_i hhi
        refine ⟨g, ?_⟩
        rw [CapNode.Parse, if_pos hhi]
        exact ⟨hsame hij hj hmem, rfl⟩
      · rename_i hhi
        obtain ⟨cnt, hlo, htop, hcnt⟩ := hmem
        have hcounts : ∃ cnt, CapNode.least lo ≤ cnt ∧ cnt ≤ maxCopies text i hi
            ∧ slice text i j ∈ a.lang icase ^ cnt := by
          rw [maxCopies]
          cases hmost : CapNode.most hi with
          | some top => exact ⟨cnt, hlo, htop top hmost, hcnt⟩
          | none =>
              have hnil : [] ∈ a.lang icase → CapNode.least lo ≤ 1 := by
                intro hnil
                simpa [nullable_of_nil_mem hnil, hmost] using hroom
              obtain ⟨m, hlo', hm, hmem⟩ := mem_pow_roomy hcnt hlo hnil
              refine ⟨m, hlo', ?_, hmem⟩
              rw [length_slice hj] at hm
              show m ≤ text.length - i + 1
              omega
        obtain ⟨cnt, hlo, hmax, hcnt⟩ := hcounts
        obtain ⟨h, hiter⟩ := iter_complete (R := a.Parse text icase) (ih hna) cnt hij hj hcnt g
        refine ⟨h, ?_⟩
        rw [CapNode.Parse, if_neg hhi]
        exact ⟨cnt, hlo, hmax, hiter⟩

theorem parseAll_lang {n : CapNode} {g h : CapSpans} (hall : ParseAll text icase [.node n] 0 g h) :
    text ∈ n.lang icase := by
  obtain ⟨j, m, hparse, rfl, -⟩ := hall
  have hmem := (hparse.sound (Nat.zero_le _)).2.2
  rwa [slice, List.drop_zero, Nat.sub_zero, List.take_length] at hmem

theorem exists_parseAll {n : CapNode} (hn : n.roomy = true) (htext : text ∈ n.lang icase) (g : CapSpans) :
    ∃ h, ParseAll text icase [.node n] 0 g h := by
  have hall : slice text 0 text.length = text := by rw [slice, List.drop_zero, Nat.sub_zero, List.take_length]
  rw [← hall] at htext
  obtain ⟨h, hparse⟩ := CapNode.Parse.complete hn (Nat.zero_le _) (le_refl _) htext g
  exact ⟨h, text.length, h, hparse, rfl, rfl⟩

/-! ## The groups of a parse -/

/-- Group `x` is the same in `g` and `h`. -/
def SameGroup (x : Nat) (g h : CapSpans) : Prop := h.gs x = g.gs x ∧ h.ge x = g.ge x

theorem SameGroup.trans {x : Nat} {g h k : CapSpans} (h₁ : SameGroup x g h) (h₂ : SameGroup x h k) :
    SameGroup x g k := ⟨h₂.1.trans h₁.1, h₂.2.trans h₁.2⟩

theorem sameGroup_open {x y : Nat} (hne : y ≠ x) (g : CapSpans) (i : Nat) : SameGroup y g (g.open x i) :=
  ⟨Function.update_of_ne hne .., rfl⟩

theorem sameGroup_close {x y : Nat} (hne : y ≠ x) (g : CapSpans) (i : Nat) : SameGroup y g (g.close x i) :=
  ⟨rfl, Function.update_of_ne hne ..⟩

theorem iter_keeps {R : Nat → CapSpans → Nat → CapSpans → Prop} {P : CapSpans → CapSpans → Prop}
    (hrefl : ∀ g, P g g) (htrans : ∀ {g h k}, P g h → P h k → P g k)
    (hR : ∀ {i j g h}, i ≤ text.length → R i g j h → j ≤ text.length ∧ P g h) (cnt : Nat) :
    ∀ {i j g h}, i ≤ text.length → Iter R cnt i g j h → P g h := by
  induction cnt with
  | zero =>
      rintro i j g _ - ⟨-, rfl⟩
      exact hrefl g
  | succ cnt ih =>
      rintro i j g h hi ⟨m, gm, hone, hrest⟩
      obtain ⟨hm, hP⟩ := hR hi hone
      exact htrans hP (ih hm hrest)

theorem CapNode.Parse.frame {n : CapNode} {y : Nat} (hy : y ∉ n.groups.map Prod.fst) :
    ∀ {i j : Nat} {g h : CapSpans}, i ≤ text.length → n.Parse text icase i g j h → SameGroup y g h := by
  have hsame : ∀ {g h : CapSpans}, g = h → SameGroup y g h := by
    rintro g _ rfl
    exact ⟨rfl, rfl⟩
  induction n with
  | null => exact fun {i j g h} _ hparse => hsame hparse.2
  | char ch => exact fun {i j g h} _ ⟨_, _, _, _, heq⟩ => hsame heq
  | any => exact fun {i j g h} _ ⟨_, _, _, _, heq⟩ => hsame heq
  | cls set => exact fun {i j g h} _ ⟨_, _, _, _, heq⟩ => hsame heq
  | concat a b iha ihb =>
      rintro i j g h hi ⟨m, gm, ha, hb⟩
      rw [CapNode.groups, List.map_append, List.mem_append, not_or] at hy
      exact (iha hy.1 hi ha).trans (ihb hy.2 (ha.sound hi).2.1 hb)
  | alt a b iha ihb =>
      rw [CapNode.groups, List.map_append, List.mem_append, not_or] at hy
      rintro i j g h hi (ha | hb)
      · exact iha hy.1 hi ha
      · exact ihb hy.2 hi hb
  | group x a ih =>
      rintro i j g _ hi ⟨h, ha, rfl⟩
      rw [CapNode.groups, List.map_cons, List.mem_cons, not_or] at hy
      exact ((sameGroup_open hy.1 g i).trans (ih hy.2 hi ha)).trans (sameGroup_close hy.1 h j)
  | rep a lo hi ih =>
      intro i j g h hle hparse
      rw [CapNode.Parse] at hparse
      split at hparse
      · exact hsame hparse.2
      · obtain ⟨cnt, -, -, hiter⟩ := hparse
        exact iter_keeps (R := a.Parse text icase) (P := SameGroup y) (fun g => ⟨rfl, rfl⟩)
          SameGroup.trans (fun hi hone => ⟨(hone.sound hi).2.1, ih hy hi hone⟩) cnt hle hiter

/-- The cells of a group: not set, or a span of the text that the body denotes. -/
def GroupOk (text : List UInt8) (icase : Bool) (p : Nat × CapNode) (g : CapSpans) : Prop :=
  (g.gs p.1 = 0xffffffff ∧ g.ge p.1 = 0xffffffff) ∨
    ∃ s e, g.gs p.1 = UInt32.ofNat s ∧ g.ge p.1 = UInt32.ofNat e ∧ s ≤ e ∧ e ≤ text.length ∧
      slice text s e ∈ p.2.lang icase

theorem GroupOk.same {p : Nat × CapNode} {g h : CapSpans} (hsame : SameGroup p.1 g h)
    (hg : GroupOk text icase p g) : GroupOk text icase p h := by
  rw [GroupOk, hsame.1, hsame.2]
  exact hg

/-- **A parse stamps its groups**: each one with a span that its body denotes. -/
theorem CapNode.Parse.group {n : CapNode} (hnodup : (n.groups.map Prod.fst).Nodup) {p : Nat × CapNode}
    (hp : p ∈ n.groups) : ∀ {i j : Nat} {g h : CapSpans}, i ≤ text.length → n.Parse text icase i g j h →
      GroupOk text icase p g → GroupOk text icase p h := by
  induction n with
  | null => exact absurd hp List.not_mem_nil
  | char ch => exact absurd hp List.not_mem_nil
  | any => exact absurd hp List.not_mem_nil
  | cls set => exact absurd hp List.not_mem_nil
  | concat a b iha ihb =>
      rintro i j g h hi ⟨m, gm, ha, hb⟩ hg
      rw [CapNode.groups, List.map_append] at hnodup
      obtain ⟨hda, hdb, hdis⟩ := List.nodup_append.mp hnodup
      have hm := (ha.sound hi).2.1
      rcases List.mem_append.mp hp with hp | hp
      · have hfst := List.mem_map_of_mem (f := Prod.fst) hp
        exact (iha hda hp hi ha hg).same (hb.frame (fun hb => hdis _ hfst _ hb rfl) hm)
      · have hfst := List.mem_map_of_mem (f := Prod.fst) hp
        exact ihb hdb hp hm hb (hg.same (ha.frame (fun ha => hdis _ ha _ hfst rfl) hi))
  | alt a b iha ihb =>
      rw [CapNode.groups, List.map_append] at hnodup
      obtain ⟨hda, hdb, hdis⟩ := List.nodup_append.mp hnodup
      rintro i j g h hi (ha | hb) hg
      · rcases List.mem_append.mp hp with hp | hp
        · exact iha hda hp hi ha hg
        · have hfst := List.mem_map_of_mem (f := Prod.fst) hp
          exact hg.same (ha.frame (fun ha => hdis _ ha _ hfst rfl) hi)
      · rcases List.mem_append.mp hp with hp | hp
        · have hfst := List.mem_map_of_mem (f := Prod.fst) hp
          exact hg.same (hb.frame (fun hb => hdis _ hfst _ hb rfl) hi)
        · exact ihb hdb hp hi hb hg
  | group x a ih =>
      rintro i j g _ hi ⟨h, ha, rfl⟩ hg
      rw [CapNode.groups, List.map_cons, List.nodup_cons] at hnodup
      obtain ⟨hij, hj, hmem⟩ := ha.sound hi
      rcases List.mem_cons.mp hp with rfl | hpa
      · -- the cells of the group itself: its start was not touched inside
        refine .inr ⟨i, j, ?_, Function.update_self .., hij, hj, hmem⟩
        exact (ha.frame hnodup.1 hi).1.trans (Function.update_self ..)
      · have hne : p.1 ≠ x := by
          rintro rfl
          have hmem := List.mem_map_of_mem (f := Prod.fst) hpa
          exact hnodup.1 hmem
        exact (ih hnodup.2 hpa hi ha (hg.same (sameGroup_open hne g i))).same (sameGroup_close hne h j)
  | rep a lo hi ih =>
      intro i j g h hle hparse
      rw [CapNode.Parse] at hparse
      split at hparse
      · obtain ⟨-, rfl⟩ := hparse
        exact id
      · obtain ⟨cnt, -, -, hiter⟩ := hparse
        exact iter_keeps (R := a.Parse text icase) (P := fun g h => GroupOk text icase p g → GroupOk text icase p h)
          (fun g => id) (fun h₁ h₂ hg => h₂ (h₁ hg))
          (fun hi hone => ⟨(hone.sound hi).2.1, ih hnodup hp hi hone⟩) cnt hle hiter

end

/-! ## The numbers of the groups -/

/-- The groups of the node are those that were opened from `m` to `n`. -/
def CapNode.Numbered (a : CapNode) (m n : Nat) : Prop :=
  m ≤ n ∧ a.groups.map Prod.fst = List.range' (m + 1) (n - m)

theorem numbered_leaf {a : CapNode} (h : a.groups = []) (m : Nat) : a.Numbered m m :=
  ⟨le_refl m, by rw [h, Nat.sub_self]; rfl⟩

theorem CapNode.Numbered.append {a b c : CapNode} {l m n : Nat} (ha : a.Numbered l m) (hb : b.Numbered m n)
    (hc : c.groups = a.groups ++ b.groups) : c.Numbered l n := by
  refine ⟨ha.1.trans hb.1, ?_⟩
  have hsum : n - l = (m - l) + (n - m) := by have := ha.1; have := hb.1; omega
  have hmid : l + 1 + 1 * (m - l) = m + 1 := by have := ha.1; omega
  rw [hc, List.map_append, ha.2, hb.2, hsum, ← List.range'_append, hmid]

theorem CapNode.Numbered.group {a : CapNode} {m n : Nat} (ha : a.Numbered (m + 1) n) :
    (CapNode.group (m + 1) a).Numbered m n := by
  refine ⟨(Nat.le_succ m).trans ha.1, ?_⟩
  have hsub : n - m = n - (m + 1) + 1 := by have := ha.1; omega
  rw [CapNode.groups, List.map_cons, ha.2, hsub]
  rfl

section
variable {icase : Bool} {alt : CapPos → Option (CapNode × CapPos)}

/-- A parser of nested alternations that numbers their groups. -/
def Numbers (alt : CapPos → Option (CapNode × CapPos)) : Prop :=
  ∀ s a s', alt s = some (a, s') → a.Numbered s.ngroups s'.ngroups

theorem capAtom_numbers (halt : Numbers alt) : Numbers (capAtom icase alt) := by
  intro s a s' h
  rw [capAtom] at h
  split at h
  · obtain ⟨⟨b, s₁⟩, hb, h⟩ := Option.bind_eq_some_iff.mp h
    dsimp only at h
    split at h
    · obtain ⟨rfl, rfl⟩ := Prod.mk.inj (Option.some.inj h)
      exact (halt _ _ _ hb).group
    · exact absurd h nofun
  split at h
  · obtain ⟨rfl, rfl⟩ := Prod.mk.inj (Option.some.inj h)
    exact numbered_leaf rfl _
  split at h
  · obtain ⟨r, -, heq⟩ := Option.map_eq_some_iff.mp h
    obtain ⟨rfl, rfl⟩ := Prod.mk.inj heq
    exact numbered_leaf rfl _
  split at h
  · split at h
    all_goals
      obtain ⟨rfl, rfl⟩ := Prod.mk.inj (Option.some.inj h)
      exact numbered_leaf rfl _
  split at h
  · exact absurd h nofun
  · obtain ⟨rfl, rfl⟩ := Prod.mk.inj (Option.some.inj h)
    exact numbered_leaf rfl _

theorem capRepeatLoop_numbered (fuel : Nat) : ∀ (a : CapNode) (s : CapPos) (m : Nat), a.Numbered m s.ngroups →
    (capRepeatLoop fuel a s).1.Numbered m (capRepeatLoop fuel a s).2.ngroups := by
  induction fuel with
  | zero => exact fun a s m h => h
  | succ fuel ih =>
      intro a s m h
      rw [capRepeatLoop]
      split
      · exact h
      · exact ih _ _ m h

theorem capRepeat_numbers (halt : Numbers alt) : Numbers (capRepeat icase alt) := by
  intro s a s' h
  obtain ⟨⟨b, s₁⟩, hb, heq⟩ := Option.map_eq_some_iff.mp h
  have hloop := capRepeatLoop_numbered (s₁.p.length + 1) b s₁ s.ngroups (capAtom_numbers halt _ _ _ hb)
  rw [show capRepeatLoop (s₁.p.length + 1) b s₁ = (a, s') from heq] at hloop
  exact hloop

theorem capConcatLoop_numbered (halt : Numbers alt) (fuel : Nat) : ∀ (head : Option CapNode) (s s' : CapPos)
    (a : CapNode) (m : Nat), (head.getD .null).Numbered m s.ngroups →
      capConcatLoop icase alt fuel head s = some (a, s') → a.Numbered m s'.ngroups := by
  induction fuel with
  | zero =>
      intro head s s' a m hm h
      obtain ⟨rfl, rfl⟩ := Prod.mk.inj (Option.some.inj h)
      exact hm
  | succ fuel ih =>
      intro head s s' a m hm h
      rw [capConcatLoop] at h
      split at h
      · obtain ⟨⟨b, s₁⟩, hb, h⟩ := Option.bind_eq_some_iff.mp h
        have hb := capRepeat_numbers halt _ _ _ hb
        refine ih _ _ _ _ m ?_ h
        cases head with
        | none => exact hm.append hb rfl
        | some c => exact hm.append hb rfl
      · obtain ⟨rfl, rfl⟩ := Prod.mk.inj (Option.some.inj h)
        exact hm

theorem capConcat_numbers (halt : Numbers alt) : Numbers (capConcat icase alt) :=
  fun s _ s' h => capConcatLoop_numbered halt _ none s s' _ s.ngroups (numbered_leaf rfl _) h

theorem capAltLoop_numbered (halt : Numbers alt) (fuel : Nat) : ∀ (l a : CapNode) (s s' : CapPos) (m : Nat),
    l.Numbered m s.ngroups → capAltLoop icase alt fuel l s = some (a, s') → a.Numbered m s'.ngroups := by
  induction fuel with
  | zero =>
      intro l a s s' m hm h
      obtain ⟨rfl, rfl⟩ := Prod.mk.inj (Option.some.inj h)
      exact hm
  | succ fuel ih =>
      intro l a s s' m hm h
      rw [capAltLoop] at h
      split at h
      · obtain ⟨⟨b, s₁⟩, hb, h⟩ := Option.bind_eq_some_iff.mp h
        exact ih _ _ _ _ m (hm.append (capConcat_numbers halt s.adv _ _ hb) rfl) h
      · obtain ⟨rfl, rfl⟩ := Prod.mk.inj (Option.some.inj h)
        exact hm

theorem capAlt_numbers (d : Nat) : Numbers (capAlt icase d) := by
  induction d with
  | zero => exact fun s a s' h => absurd h nofun
  | succ d ih =>
      intro s a s' h
      obtain ⟨⟨b, s₁⟩, hb, h⟩ := Option.bind_eq_some_iff.mp h
      exact capAltLoop_numbered ih _ b a s₁ s' _ (capConcat_numbers ih _ _ _ hb) h

theorem capParse_groups {pat : List UInt8} {root : CapNode} {ng : Nat} (h : capParse icase pat = some (root, ng)) :
    root.groups.map Prod.fst = List.range' 1 ng := by
  obtain ⟨⟨a, s⟩, ha, h⟩ := Option.bind_eq_some_iff.mp h
  dsimp only at h
  split at h
  · obtain ⟨rfl, rfl⟩ := Prod.mk.inj (Option.some.inj h)
    exact (capAlt_numbers _ _ _ _ ha).2
  · exact absurd h nofun

end

/-! ## The spans that are reported -/

section
variable {pat text : List UInt8} {icase : Bool} {maxGroups ng : Nat} {root : CapNode}

/-- The span of group `p`: none, or one of the text that its body denotes. -/
def MatchSpan.Captures (text : List UInt8) (icase : Bool) (p : Nat × CapNode) (sp : MatchSpan) : Prop :=
  sp = ⟨0, 0, -1⟩ ∨
    sp.pat = p.1 ∧ sp.start ≤ sp.stop ∧ sp.stop ≤ text.length ∧ slice text sp.start sp.stop ∈ p.2.lang icase

theorem GroupOk.captures {p : Nat × CapNode} {g : CapSpans} (hg : GroupOk text icase p g)
    (hlen : text.length + 1 < 2 ^ 31) : (g.span p.1).Captures text icase p := by
  rcases hg with ⟨hs, -⟩ | ⟨s, e, hs, he, hse, hle, hmem⟩
  · left
    rw [CapSpans.span, if_neg fun h => h.1 hs]
  · have htoNat : ∀ i ≤ text.length, (UInt32.ofNat i).toNat = i := fun i hi =>
      UInt32.toNat_ofNat_of_lt' (by rw [UInt32.size]; omega)
    have hset : ∀ i ≤ text.length, UInt32.ofNat i ≠ 0xffffffff := by
      intro i hi heq
      have hval := (htoNat i hi).symm.trans (congrArg UInt32.toNat heq)
      rw [show (0xffffffff : UInt32).toNat = 4294967295 from rfl] at hval
      omega
    right
    rw [CapSpans.span, hs, he, if_pos ⟨hset s (hse.trans hle), hset e hle⟩, htoNat s (hse.trans hle), htoNat e hle]
    exact ⟨rfl, hse, hle, hmem⟩

theorem exists_group (hgroups : root.groups.map Prod.fst = List.range' 1 ng) {x : Nat} (hx : x < ng) :
    ∃ body, root.groups[x]? = some (x + 1, body) := by
  have hget : (root.groups.map Prod.fst)[x]? = some (1 + 1 * x) := by
    rw [hgroups]
    exact List.getElem?_range' hx
  obtain ⟨⟨y, body⟩, hbody, hy⟩ := List.getElem?_map .. ▸ hget |> Option.map_eq_some_iff.mp
  obtain rfl : y = x + 1 := by simp only at hy; omega
  exact ⟨body, hbody⟩

theorem searchCaptures_run (hparse : capParse icase pat = some (root, ng)) (hmax : 0 < maxGroups) :
    searchCaptures pat text icase maxGroups
      = (capM text icase (root.weight text.length) root [] 0 .unset).bind fun r =>
          if r.1 then some ((List.range' 1 (min ng maxGroups)).map r.2.span) else none := by
  rw [searchCaptures, if_neg hmax.ne', hparse]
  rfl

theorem capM_decides (icase : Bool) (hcounted : root.counted = true)
    (hlen : text.length + 1 < 2 ^ 31) :
    Decides [] .unset (ParseAll text icase [.node root] 0 .unset)
      (capM text icase (root.weight text.length) root [] 0 .unset) :=
  capM_spec hlen _ root [] 0 .unset hcounted (fun _ hmem => absurd hmem (List.not_mem_nil)) (le_refl _)

theorem searchCaptures_sound (hparse : capParse icase pat = some (root, ng)) (hmax : 0 < maxGroups)
    (hcounted : root.counted = true) (hlen : text.length + 1 < 2 ^ 31) {groups : List MatchSpan}
    (hret : searchCaptures pat text icase maxGroups = some groups) :
    text ∈ root.lang icase ∧ groups.length = min ng maxGroups ∧
      ∀ x sp, groups[x]? = some sp →
        ∃ body, root.groups[x]? = some (x + 1, body) ∧ sp.Captures text icase (x + 1, body) := by
  have hgroups := capParse_groups hparse
  have hrun := capM_decides icase hcounted hlen
  rw [searchCaptures_run hparse hmax] at hret
  rcases hrun with ⟨h, hrun, hall⟩ | ⟨g', hrun, -, -⟩
  · rw [hrun] at hret
    obtain rfl := Option.some.inj hret
    refine ⟨parseAll_lang hall, by rw [List.length_map, List.length_range'], fun x sp hsp => ?_⟩
    rw [List.getElem?_map, Option.map_eq_some_iff] at hsp
    obtain ⟨y, hy, rfl⟩ := hsp
    obtain ⟨hx, hy⟩ := List.getElem?_eq_some_iff.mp hy
    rw [List.length_range'] at hx
    rw [List.getElem_range'] at hy
    obtain rfl : y = x + 1 := by omega
    obtain ⟨body, hbody⟩ := exists_group hgroups (lt_of_lt_of_le hx (Nat.min_le_left ..))
    refine ⟨body, hbody, ?_⟩
    obtain ⟨j, m, hp, -, rfl⟩ := hall
    have hnodup : (root.groups.map Prod.fst).Nodup := by
      rw [hgroups]
      exact List.nodup_range'
    have hok := hp.group hnodup (List.mem_of_getElem? hbody) (Nat.zero_le _) (.inl ⟨rfl, rfl⟩)
    exact hok.captures hlen
  · rw [hrun] at hret
    exact absurd hret nofun

theorem searchCaptures_total (hparse : capParse icase pat = some (root, ng)) (hmax : 0 < maxGroups)
    (hcounted : root.counted = true) (hlen : text.length + 1 < 2 ^ 31) (hroomy : root.roomy = true)
    (htext : text ∈ root.lang icase) :
    ∃ groups, searchCaptures pat text icase maxGroups = some groups := by
  have hrun := capM_decides icase hcounted hlen
  rw [searchCaptures_run hparse hmax]
  rcases hrun with ⟨h, hrun, -⟩ | ⟨g', -, -, hnone⟩
  · exact ⟨_, by rw [hrun, Option.bind_some, if_pos rfl]⟩
  · obtain ⟨h, hall⟩ := exists_parseAll hroomy htext .unset
    exact absurd hall (hnone h)

/-- **Captures of a match**: for a pattern with groups, whose lower bounds do not
overflow, the matcher ends on every text. Spans are returned for texts that the
pattern denotes only, one for each group from left to right up to `max_groups`,
and each is none or a piece of the text that the body of its group denotes; and
they are returned for every text that the pattern denotes when no open repeat
asks for two copies of what may be empty. -/
theorem searchCaptures_spec (hparse : capParse icase pat = some (root, ng)) (hmax : 0 < maxGroups)
    (hcounted : root.counted = true) (hlen : text.length + 1 < 2 ^ 31) :
    (∃ r, capM text icase (root.weight text.length) root [] 0 .unset = some r) ∧
      (∀ groups, searchCaptures pat text icase maxGroups = some groups →
        text ∈ root.lang icase ∧ groups.length = min ng maxGroups ∧
          ∀ x sp, groups[x]? = some sp →
            ∃ body, root.groups[x]? = some (x + 1, body) ∧ sp.Captures text icase (x + 1, body)) ∧
      (root.roomy = true → text ∈ root.lang icase →
        ∃ groups, searchCaptures pat text icase maxGroups = some groups) := by
  refine ⟨?_, fun _ hret => searchCaptures_sound hparse hmax hcounted hlen hret,
    searchCaptures_total hparse hmax hcounted hlen⟩
  rcases capM_decides icase hcounted hlen with ⟨h, hrun, -⟩ | ⟨g', hrun, -⟩
  · exact ⟨_, hrun⟩
  · exact ⟨_, hrun⟩

end

/-- `(a)|b` on `a`. -/
theorem searchCaptures_spec_alt :
    (∃ r, capM [0x61] false ((CapNode.alt (.group 1 (.char 0x61)) (.char 0x62)).weight 1)
        (.alt (.group 1 (.char 0x61)) (.char 0x62)) [] 0 .unset = some r) ∧
      (∀ groups, searchCaptures [0x28, 0x61, 0x29, 0x7c, 0x62] [0x61] false 9 = some groups →
        [0x61] ∈ (CapNode.alt (.group 1 (.char 0x61)) (.char 0x62)).lang false ∧ groups.length = min 1 9 ∧
          ∀ (x : Nat) sp, groups[x]? = some sp →
            ∃ body, (CapNode.alt (.group 1 (.char 0x61)) (.char 0x62)).groups[x]? = some (x + 1, body) ∧
              sp.Captures [0x61] false (x + 1, body)) ∧
      ((CapNode.alt (.group 1 (.char 0x61)) (.char 0x62)).roomy = true →
        [0x61] ∈ (CapNode.alt (.group 1 (.char 0x61)) (.char 0x62)).lang false →
          ∃ groups, searchCaptures [0x28, 0x61, 0x29, 0x7c, 0x62] [0x61] false 9 = some groups) :=
  searchCaptures_spec (by decide +kernel) (by decide) (by decide) (by decide)

/-- The group of `(a)|b` on `b` does not participate. -/
example : searchCaptures [0x28, 0x61, 0x29, 0x7c, 0x62] [0x62] false 9 = some [⟨0, 0, -1⟩] := by decide +kernel

end Montauk
