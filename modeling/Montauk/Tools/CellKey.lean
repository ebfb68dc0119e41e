import Mathlib.Data.List.Lex
import Montauk.Sort.Insertion
import Montauk.Tools.PromPopulation

/-!
# Cell keys

`cell_key` writes the labels that are not dropped as `key=value`, sorts these
parts as C strings and joins them with commas. Parts without commas and without
NULs are told by the joined text, whatever their number: it is cut at its commas
again (`pieces_joined`), and a sort of NUL-free strings forgets their order
(`order_eq_iff_perm`). So on such labels the key is injective up to the order of
the labels (`cellKey_eq_iff`). Nothing escapes a comma in a value or in a key.
-/

namespace Montauk.Tools

open Emit Scan Ch Collect Montauk.Sort

abbrev LabelVec := List (List UInt8 × List UInt8)

/-- What `strcmp` compares: the bytes in front of the first NUL. -/
def cstrKey (s : List UInt8) : List Nat := (cstr s).map UInt8.toNat

/-- What is asked of `sublimation_order_strings`: it sorts the strings as C
strings, and what it cannot tell apart keeps its order. -/
def OrdersStrings (order : List (List UInt8) → List (List UInt8)) : Prop :=
  ∀ v, StableSort cstrKey v (order v)

/-- The labels whose keys are not dropped. -/
def kept (drop : List (List UInt8)) (labels : LabelVec) : LabelVec :=
  labels.filter fun kv => !drop.contains kv.1

/-- `kv.first + "=" + kv.second` -/
def part (kv : List UInt8 × List UInt8) : List UInt8 := kv.1 ++ equals :: kv.2

def joined (parts : List (List UInt8)) : List UInt8 :=
  parts.foldl (fun s p => (if s ≠ [] then s ++ [comma] else s) ++ p) []

section

variable (order : List (List UInt8) → List (List UInt8))

def cellKey (labels : LabelVec) (drop : List (List UInt8)) : List UInt8 :=
  joined (order ((kept drop labels).map part))

end

/-! ## The joined text -/

theorem joined_foldl {s : List UInt8} (h : s ≠ []) (ps : List (List UInt8)) :
    ps.foldl (fun s p => (if s ≠ [] then s ++ [comma] else s) ++ p) s
      = s ++ ps.flatMap fun p => comma :: p := by
  induction ps generalizing s with
  | nil => rw [List.foldl_nil, List.flatMap_nil, List.append_nil]
  | cons p ps ih =>
      have hne : s ++ [comma] ++ p ≠ [] := by simp
      rw [List.foldl_cons, if_pos h, ih hne, List.flatMap_cons]
      simp only [List.append_assoc, List.cons_append, List.nil_append]

theorem joined_cons {p : List UInt8} (h : p ≠ []) (ps : List (List UInt8)) :
    joined (p :: ps) = p ++ ps.flatMap fun p => comma :: p := by
  rw [joined, List.foldl_cons, if_neg (not_not.mpr rfl), List.nil_append, joined_foldl h]

/-- **The joined text is cut into its parts again**, if no part has a comma. -/
theorem pieces_joined {ps : List (List UInt8)} (hne : ∀ p ∈ ps, p ≠ [])
    (hc : ∀ p ∈ ps, comma ∉ p) : pieces comma (joined ps) = ps := by
  induction ps with
  | nil => exact pieces_nil
  | cons p ps ih =>
      have hp := hne p List.mem_cons_self
      have hpc := hc p List.mem_cons_self
      have hrest := ih (fun q hq => hne q (List.mem_cons_of_mem _ hq))
        (fun q hq => hc q (List.mem_cons_of_mem _ hq))
      rw [joined_cons hp]
      cases ps with
      | nil =>
          have hglue := pieces_glue hp hpc []
          rwa [pieces_nil] at hglue
      | cons q qs =>
          rw [joined_cons (hne q (List.mem_cons_of_mem _ List.mem_cons_self))] at hrest
          rw [List.flatMap_cons, List.cons_append, pieces_append hpc, hrest]

/-! ## The parts -/

theorem part_ne_nil (kv : List UInt8 × List UInt8) : part kv ≠ [] := by simp [part]

theorem mem_part {c : UInt8} (hc : c ≠ equals) {kv : List UInt8 × List UInt8} :
    c ∈ part kv ↔ c ∈ kv.1 ++ kv.2 := by
  simp [part, hc]

theorem perm_of_parts {u v : LabelVec} (hu : ∀ kv ∈ u, equals ∉ kv.1) (hv : ∀ kv ∈ v, equals ∉ kv.1)
    (h : (u.map part).Perm (v.map part)) : u.Perm v := by
  have hback : ∀ w : LabelVec, (∀ kv ∈ w, equals ∉ kv.1) →
      (w.map part).filterMap (cutAt equals) = w := by
    intro w hw
    rw [List.filterMap_map]
    calc w.filterMap (cutAt equals ∘ part) = w.filterMap some :=
          List.filterMap_congr fun kv hkv => cutAt_append (hw kv hkv) kv.2
      _ = w := List.filterMap_some
  have hmap := h.filterMap (cutAt equals)
  rwa [hback u hu, hback v hv] at hmap

/-! ## The sort -/

theorem cstrKey_injective {s t : List UInt8} (hs : 0 ∉ s) (ht : 0 ∉ t) (h : cstrKey s = cstrKey t) :
    s = t := by
  rw [cstrKey, cstrKey, cstr_eq_self hs, cstr_eq_self ht] at h
  exact List.map_injective_iff.mpr (fun _ _ => UInt8.toNat_inj.mp) h

section

variable {order : List (List UInt8) → List (List UInt8)} (horder : OrdersStrings order)

include horder

theorem order_eq_self {v : List (List UInt8)} (h : Ascending cstrKey v) : order v = v :=
  (horder v).unique (.refl h)

/-- **Of NUL-free strings the sort forgets the order**, and nothing else. -/
theorem order_eq_iff_perm {v w : List (List UInt8)} (hv : ∀ s ∈ v, 0 ∉ s) (hw : ∀ s ∈ w, 0 ∉ s) :
    order v = order w ↔ v.Perm w := by
  have hpv := (horder v).perm
  have hpw := (horder w).perm
  constructor
  · intro h
    exact hpv.symm.trans (h ▸ hpw)
  · intro h
    refine List.Perm.eq_of_pairwise (fun s t hs ht hst hts => ?_) (horder v).sorted (horder w).sorted
      (hpv.trans (h.trans hpw.symm))
    exact cstrKey_injective (hv s (hpv.mem_iff.mp hs)) (hw t (hpw.mem_iff.mp ht)) (le_antisymm hst hts)

end

/-! ## The key -/

/-- Of these bytes the keys and the values are made. -/
def MadeOf (A : Set UInt8) (labels : LabelVec) : Prop := ∀ kv ∈ labels, ∀ c ∈ kv.1 ++ kv.2, c ∈ A

/-- No key has a `=`. -/
def PlainKeys (labels : LabelVec) : Prop := ∀ kv ∈ labels, equals ∉ kv.1

theorem PlainKeys.kept {labels : LabelVec} (h : PlainKeys labels) (drop : List (List UInt8)) :
    PlainKeys (kept drop labels) :=
  fun kv hkv => h kv (List.mem_filter.mp hkv).1

/-- **Without commas and NULs the key is injective up to the order of the
labels**, whichever keys are dropped on either side. -/
theorem cellKey_eq_iff {order : List (List UInt8) → List (List UInt8)} (horder : OrdersStrings order)
    {A : Set UInt8} (hcomma : comma ∉ A) (hnul : 0 ∉ A) {u v : LabelVec} {drop drop' : List (List UInt8)}
    (hu : PlainKeys u) (hv : PlainKeys v) (hAu : MadeOf A (kept drop u)) (hAv : MadeOf A (kept drop' v)) :
    cellKey order u drop = cellKey order v drop' ↔ (kept drop u).Perm (kept drop' v) := by
  have hparts : ∀ {w : LabelVec} {c : UInt8}, MadeOf A w → c ∉ A → c ≠ equals →
      ∀ p ∈ w.map part, c ∉ p := by
    intro w c hw hc hne p hp hcp
    obtain ⟨kv, hkv, rfl⟩ := List.mem_map.mp hp
    exact hc (hw kv hkv c ((mem_part hne).mp hcp))
  have hsplit : ∀ {w : LabelVec}, MadeOf A w →
      pieces comma (joined (order (w.map part))) = order (w.map part) := by
    intro w hw
    have hperm := (horder (w.map part)).perm
    refine pieces_joined (fun p hp => ?_) fun p hp =>
      hparts hw hcomma (by decide) p (hperm.mem_iff.mp hp)
    obtain ⟨kv, -, rfl⟩ := List.mem_map.mp (hperm.mem_iff.mp hp)
    exact part_ne_nil kv
  rw [cellKey, cellKey]
  constructor
  · intro h
    have horders : order ((kept drop u).map part) = order ((kept drop' v).map part) := by
      rw [← hsplit hAu, h, hsplit hAv]
    exact perm_of_parts (hu.kept drop) (hv.kept drop')
      ((order_eq_iff_perm horder (hparts hAu hnul (by decide)) (hparts hAv hnul (by decide))).mp horders)
  · intro h
    rw [(order_eq_iff_perm horder (hparts hAu hnul (by decide)) (hparts hAv hnul (by decide))).mpr
      (h.map part)]

/-! ## Labels as they are parsed -/

theorem parseLabels_of_nextLabel {s key value rest : List UInt8}
    (h : nextLabel s = some (key, value, rest)) :
    parseLabels s = (if key = [] then [] else [(key, value)])
      ++ ((cutAt comma rest).map fun p => parseLabels p.2).getD [] := by
  rw [parseLabels]
  split
  · rename_i hn
    rw [h] at hn
    cases hn
  · rename_i key' value' rest' hn
    rw [h] at hn
    cases hn
    have hmore : ∀ more : LabelVec, (if key = [] then more else (key, value) :: more)
        = (if key = [] then [] else [(key, value)]) ++ more := by
      intro more
      split <;> rfl
    rw [hmore]
    congr 1
    split
    · rename_i hc
      simp only [hc, Option.map_none, Option.getD_none]
    · rename_i p hc
      simp only [hc, Option.map_some, Option.getD_some]

theorem parseLabels_of_none {s : List UInt8} (h : nextLabel s = none) : parseLabels s = [] := by
  rw [parseLabels]
  split
  · rfl
  · rename_i hn
    rw [h] at hn
    cases hn

theorem mem_strip {c : UInt8} {s : List UInt8} (h : c ∈ strip s) : c ∈ s :=
  (List.dropWhile_sublist _).subset ((List.rdropWhile_prefix _ _).subset h)

theorem plainKeys_parseLabels (s : List UInt8) : PlainKeys (parseLabels s) := by
  induction hn : s.length using Nat.strong_induction_on generalizing s with
  | _ n ih =>
      subst hn
      cases h : nextLabel s with
      | none =>
          rw [parseLabels_of_none h]
          exact nofun
      | some p =>
          obtain ⟨key, value, rest⟩ := p
          have hkey : equals ∉ key := by
            obtain ⟨⟨raw, behindEq⟩, hcut, h⟩ := Option.bind_eq_some_iff.mp h
            obtain ⟨⟨pad, behindQuote⟩, -, h⟩ := Option.bind_eq_some_iff.mp h
            obtain ⟨⟨value', rest'⟩, -, h⟩ := Option.bind_eq_some_iff.mp h
            cases h
            exact fun hmem => (cutAt_some hcut).2 (mem_strip hmem)
          have hlen := length_nextLabel h
          rw [parseLabels_of_nextLabel h]
          intro kv hkv
          rcases List.mem_append.mp hkv with hkv | hkv
          · split at hkv
            · exact absurd hkv List.not_mem_nil
            · rw [List.mem_singleton.mp hkv]
              exact hkey
          · cases hcut : cutAt comma rest with
            | none =>
                rw [hcut] at hkv
                exact absurd hkv List.not_mem_nil
            | some p =>
                rw [hcut] at hkv
                exact ih _ ((length_cutAt hcut).trans hlen) p.2 rfl kv hkv

end Montauk.Tools
