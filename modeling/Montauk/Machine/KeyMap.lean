import Mathlib.Data.List.Nodup
import Mathlib.Data.List.TakeWhile

/-!
# Maps of the kernel

A hash map with the order in which its keys are handed out. It has room for a
number of keys: a new key is refused when the map is full. Behind a key comes
its successor, and behind a key that is not there the first one.
-/

namespace Montauk.Machine

universe u v
variable {κ : Type u} {ν : Type v}

/-- A map with the order in which it is walked. -/
structure KeyMap (κ : Type u) (ν : Type v) where
  entries : List (κ × ν)
  nodup : (entries.map Prod.fst).Nodup

section

variable [DecidableEq κ]

def KeyMap.lookup (m : KeyMap κ ν) (k : κ) : Option ν := (m.entries.find? fun e => e.1 = k).map Prod.snd

def KeyMap.erase (m : KeyMap κ ν) (k : κ) : KeyMap κ ν where
  entries := m.entries.filter fun e => e.1 ≠ k
  nodup := m.nodup.sublist (List.filter_sublist.map _)

/-- The map with a value for a key, if the key is there or there is room for
`cap` keys. -/
def KeyMap.update (m : KeyMap κ ν) (cap : Nat) (k : κ) (v : ν) : KeyMap κ ν :=
  if h : k ∈ m.entries.map Prod.fst then
    { entries := m.entries.map fun e => if e.1 = k then (k, v) else e
      nodup := by
        have hkeys : (m.entries.map fun e => if e.1 = k then (k, v) else e).map Prod.fst
            = m.entries.map Prod.fst := by
          rw [List.map_map]
          refine List.map_congr_left fun e _ => ?_
          rw [Function.comp_apply]
          split
          · rename_i hk
            exact hk.symm
          · rfl
        rw [hkeys]
        exact m.nodup }
  else if m.entries.length < cap then
    { entries := m.entries ++ [(k, v)]
      nodup := by
        rw [List.map_append, List.nodup_append]
        refine ⟨m.nodup, List.nodup_singleton _, fun a ha b hb => ?_⟩
        intro hab
        have hak : a = k := hab.trans (List.mem_singleton.mp hb)
        rw [hak] at ha
        exact h ha }
  else m

def KeyMap.empty : KeyMap κ ν where
  entries := []
  nodup := List.nodup_nil

/-- The entries up to a key and those behind it; all of them are behind a key
that is not there. -/
def splitBehind (k : κ) (entries : List (κ × ν)) : List (κ × ν) × List (κ × ν) :=
  match entries.dropWhile fun e => e.1 ≠ k with
  | [] => ([], entries)
  | e :: rest => ((entries.takeWhile fun e => e.1 ≠ k) ++ [e], rest)

/-- The key behind a key: its successor, or the first key. -/
def KeyMap.getNextKey (m : KeyMap κ ν) (k : κ) : Option κ := (splitBehind k m.entries).2.head?.map Prod.fst

variable {k : κ} {e : κ × ν} {done todo entries : List (κ × ν)} {m : KeyMap κ ν}

/-! ## Where a key stands -/

theorem splitBehind_of_not_mem (h : k ∉ entries.map Prod.fst) : splitBehind k entries = ([], entries) := by
  have hdrop : entries.dropWhile (fun e => e.1 ≠ k) = [] :=
    List.dropWhile_eq_nil_iff.mpr fun e he => decide_eq_true fun hk => h (hk ▸ List.mem_map_of_mem he)
  rw [splitBehind, hdrop]

theorem splitBehind_append (h : e.1 ∉ done.map Prod.fst) :
    splitBehind e.1 (done ++ e :: todo) = (done ++ [e], todo) := by
  have hdone : ∀ d ∈ done, decide (d.1 ≠ e.1) = true := fun d hd =>
    decide_eq_true fun hk => h (hk ▸ List.mem_map_of_mem hd)
  have hdrop : (done ++ e :: todo).dropWhile (fun d => d.1 ≠ e.1) = e :: todo := by
    rw [List.dropWhile_append_of_pos hdone, List.dropWhile_cons_of_neg (by simp)]
  have htake : (done ++ e :: todo).takeWhile (fun d => d.1 ≠ e.1) = done := by
    rw [List.takeWhile_append_of_pos hdone, List.takeWhile_cons_of_neg (by simp), List.append_nil]
  rw [splitBehind, hdrop, htake]

theorem splitBehind_append_eq (k : κ) (entries : List (κ × ν)) :
    (splitBehind k entries).1 ++ (splitBehind k entries).2 = entries := by
  rw [splitBehind]
  split
  · rfl
  · rename_i e rest h
    rw [List.append_assoc, List.singleton_append, ← h, List.takeWhile_append_dropWhile]

theorem lookup_of_append (h : m.entries = done ++ e :: todo) : m.lookup e.1 = some e.2 := by
  have hnodup := m.nodup
  rw [h, List.map_append, List.map_cons] at hnodup
  have hnone : done.find? (fun d => d.1 = e.1) = none := by
    rw [List.find?_eq_none]
    intro d hd
    have hne := (List.nodup_append.mp hnodup).2.2 d.1 (List.mem_map_of_mem hd) e.1 List.mem_cons_self
    simpa using hne
  rw [KeyMap.lookup, h, List.find?_append, hnone, Option.none_or, List.find?_cons_of_pos (by simp), Option.map_some]

theorem entries_erase (h : m.entries = done ++ e :: todo) : (m.erase e.1).entries = done ++ todo := by
  have hnodup := m.nodup
  rw [h, List.map_append, List.map_cons] at hnodup
  obtain ⟨-, htodo, hacross⟩ := List.nodup_append.mp hnodup
  have hdone : ∀ d ∈ done, decide (d.1 ≠ e.1) = true := fun d hd =>
    decide_eq_true (hacross d.1 (List.mem_map_of_mem hd) e.1 List.mem_cons_self)
  have hrest : ∀ d ∈ todo, decide (d.1 ≠ e.1) = true := fun d hd =>
    decide_eq_true fun hk => (List.nodup_cons.mp htodo).1 (hk ▸ List.mem_map_of_mem hd)
  show m.entries.filter (fun d => d.1 ≠ e.1) = done ++ todo
  rw [h, List.filter_append, List.filter_cons_of_neg (by simp), List.filter_eq_self.mpr hdone,
    List.filter_eq_self.mpr hrest]

/-! ## Lookups -/

theorem lookup_eq_none (h : k ∉ m.entries.map Prod.fst) : m.lookup k = none := by
  rw [KeyMap.lookup, List.find?_eq_none.mpr fun e he => ?_, Option.map_none]
  simpa using fun hk : e.1 = k => h (hk ▸ List.mem_map_of_mem he)

theorem lookup_erase_self : (m.erase k).lookup k = none := by
  refine lookup_eq_none fun hmem => ?_
  obtain ⟨e, he, hk⟩ := List.mem_map.mp hmem
  exact of_decide_eq_true (List.mem_filter.mp he).2 hk

theorem lookup_erase_of_ne {k' : κ} (h : k' ≠ k) : (m.erase k).lookup k' = m.lookup k' := by
  rw [KeyMap.lookup, KeyMap.lookup, KeyMap.erase, List.find?_filter]
  refine congrArg (Option.map Prod.snd) (congrArg (fun p => m.entries.find? p) (funext fun e => ?_))
  by_cases he : e.1 = k'
  · simp [he, h]
  · simp [he]

theorem lookup_update_new {cap : Nat} {v : ν} (h : m.lookup k = none) :
    (m.update cap k v).lookup k = if m.entries.length < cap then some v else none := by
  have hnot : k ∉ m.entries.map Prod.fst := by
    intro hmem
    obtain ⟨e, he, rfl⟩ := List.mem_map.mp hmem
    obtain ⟨done, todo, hsplit⟩ := List.append_of_mem he
    rw [lookup_of_append hsplit] at h
    exact absurd h nofun
  have hkeep : (m.update cap k v).entries = if m.entries.length < cap then m.entries ++ [(k, v)] else m.entries := by
    rw [KeyMap.update, dif_neg hnot]
    split <;> rfl
  split
  · rename_i hroom
    rw [if_pos hroom] at hkeep
    exact lookup_of_append hkeep
  · rename_i hfull
    rw [if_neg hfull] at hkeep
    rw [KeyMap.lookup, hkeep]
    exact h

theorem lookup_update_of_ne {cap : Nat} {k' : κ} {v : ν} (h : k' ≠ k) :
    (m.update cap k v).lookup k' = m.lookup k' := by
  rw [KeyMap.update]
  split
  · rw [KeyMap.lookup, KeyMap.lookup, List.find?_map, Option.map_map]
    have hpred : ((fun e : κ × ν => decide (e.1 = k')) ∘ fun e => if e.1 = k then (k, v) else e)
        = fun e => decide (e.1 = k') := by
      funext e
      rw [Function.comp_apply]
      split
      · rename_i hk
        rw [hk]
      · rfl
    rw [hpred]
    cases hfind : m.entries.find? fun e => e.1 = k' with
    | none => rfl
    | some e =>
        have he : decide (e.1 = k') = true := List.find?_some (p := fun e : κ × ν => decide (e.1 = k')) hfind
        have hk' : e.1 ≠ k := fun hk => h (of_decide_eq_true he ▸ hk)
        rw [Option.map_some, Option.map_some, Function.comp_apply, if_neg hk']
  · split
    · rw [KeyMap.lookup, KeyMap.lookup, List.find?_append, List.find?_singleton, if_neg (by simpa using h.symm),
        Option.or_none]
    · rfl

end

end Montauk.Machine
