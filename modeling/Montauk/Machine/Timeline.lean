import Mathlib.Data.List.Induction
import Mathlib.Data.List.Nodup
import Mathlib.Data.List.SplitBy

/-!
# Keyed rows and neighbours in time

A report keeps its events under keys and looks at neighbours in time. The rows
of a table stand in the order in which their keys first came, and a table that
is changed by one event after the other holds under each key what the events of
that key make of it (`foldl_adjust`). In a sorted row halving finds the first
entry that is not before something (`getElem?_lowerBound`), and two neighbours
are close to each other exactly if any two entries are
(`exists_neighbours_iff`).
-/

namespace Montauk.Timeline

/-! ## Rows -/

section

variable {κ α β : Type} [DecidableEq κ]

def rowOf (k : κ) (t : List (κ × α)) : Option α := (t.find? fun r => r.1 = k).map Prod.snd

/-- Change the entry under a key; a key without one gets the first entry,
changed. -/
def adjust (k : κ) (first : α) (f : α → α) : List (κ × α) → List (κ × α)
  | [] => [(k, f first)]
  | r :: t => if r.1 = k then (r.1, f r.2) :: t else r :: adjust k first f t

def assign (k : κ) (a : α) (t : List (κ × α)) : List (κ × α) := adjust k a (fun _ => a) t

def push (k : κ) (a : α) (t : List (κ × List α)) : List (κ × List α) := adjust k [] (· ++ [a]) t

def erase (k : κ) (t : List (κ × α)) : List (κ × α) := t.filter fun r => r.1 ≠ k

theorem eraseDups_concat (ks : List κ) (k : κ) :
    (ks ++ [k]).eraseDups = if k ∈ ks then ks.eraseDups else ks.eraseDups ++ [k] := by
  rw [List.eraseDups_append, List.cons_removeAll]
  by_cases hk : k ∈ ks
  · rw [if_pos hk, if_neg (by simpa using hk)]
    exact List.append_nil _
  · rw [if_neg hk, if_pos (by simpa using hk)]
    rfl

theorem nodup_eraseDups (ks : List κ) : ks.eraseDups.Nodup := by
  induction ks using List.reverseRecOn with
  | nil => exact List.nodup_nil
  | append_singleton ks k ih =>
    rw [eraseDups_concat]
    split
    · exact ih
    · rename_i hk
      refine List.nodup_append.mpr ⟨ih, List.nodup_singleton k, ?_⟩
      rintro a ha b hb rfl
      exact hk (List.mem_eraseDups.mp (List.mem_singleton.mp hb ▸ ha))

theorem rowOf_cons (k : κ) (r : κ × α) (t : List (κ × α)) :
    rowOf k (r :: t) = if r.1 = k then some r.2 else rowOf k t := by
  rw [rowOf, List.find?_cons]
  by_cases h : r.1 = k
  · rw [if_pos h, decide_eq_true h]
    rfl
  · rw [if_neg h, decide_eq_false h]
    rfl

@[simp] theorem rowOf_nil (k : κ) : rowOf k ([] : List (κ × α)) = none := rfl

theorem rowOf_adjust (k k' : κ) (first : α) (f : α → α) (t : List (κ × α)) :
    rowOf k' (adjust k first f t) = if k' = k then some (f ((rowOf k t).getD first)) else rowOf k' t := by
  induction t with
  | nil =>
    rw [adjust, rowOf_cons, rowOf_nil, rowOf_nil]
    exact if_congr eq_comm rfl rfl
  | cons r t ih =>
    rw [adjust]
    by_cases hr : r.1 = k
    · rw [if_pos hr, rowOf_cons, rowOf_cons, rowOf_cons, if_pos hr]
      by_cases hk : k' = k
      · rw [if_pos hk, if_pos (hr.trans hk.symm)]
        rfl
      · rw [if_neg hk, if_neg fun h => hk (h.symm.trans hr), if_neg fun h => hk (h.symm.trans hr)]
    · rw [if_neg hr, rowOf_cons, rowOf_cons, rowOf_cons, if_neg hr, ih]
      by_cases hk : k' = k
      · rw [if_pos hk, if_pos hk, if_neg fun h => hr (h.trans hk)]
      · rw [if_neg hk, if_neg hk]

theorem keys_adjust (k : κ) (first : α) (f : α → α) (t : List (κ × α)) :
    (adjust k first f t).map Prod.fst =
      if k ∈ t.map Prod.fst then t.map Prod.fst else t.map Prod.fst ++ [k] := by
  induction t with
  | nil => rfl
  | cons r t ih =>
    rw [adjust]
    by_cases hr : r.1 = k
    · rw [if_pos hr, if_pos (by simp [hr])]
      rfl
    · rw [if_neg hr, List.map_cons, ih, List.map_cons]
      by_cases hk : k ∈ t.map Prod.fst
      · rw [if_pos hk, if_pos (List.mem_cons_of_mem _ hk)]
      · rw [if_neg hk, if_neg (List.not_mem_cons_of_ne_of_not_mem (Ne.symm hr) hk)]
        rfl

theorem mem_adjust {k : κ} {first : α} {f : α → α} {t : List (κ × α)} {r : κ × α} (h : r ∈ adjust k first f t) :
    r ∈ t ∨ r.1 = k ∧ ∃ a, ((k, a) ∈ t ∨ a = first) ∧ r.2 = f a := by
  induction t with
  | nil =>
    rw [List.mem_singleton.mp h]
    exact .inr ⟨rfl, first, .inr rfl, rfl⟩
  | cons c t ih =>
    rw [adjust] at h
    by_cases hc : c.1 = k
    · rw [if_pos hc] at h
      rcases List.mem_cons.mp h with rfl | h
      · exact .inr ⟨hc, c.2, .inl (List.mem_cons.mpr (.inl (Prod.ext hc.symm rfl))), rfl⟩
      · exact .inl (List.mem_cons_of_mem _ h)
    · rw [if_neg hc] at h
      rcases List.mem_cons.mp h with rfl | h
      · exact .inl List.mem_cons_self
      · refine (ih h).imp (List.mem_cons_of_mem _) ?_
        rintro ⟨hr, a, ha, hf⟩
        exact ⟨hr, a, ha.imp_left (List.mem_cons_of_mem _), hf⟩

theorem nodup_adjust {k : κ} {first : α} {f : α → α} {t : List (κ × α)} (h : (t.map Prod.fst).Nodup) :
    ((adjust k first f t).map Prod.fst).Nodup := by
  rw [keys_adjust]
  split
  · exact h
  · rename_i hk
    refine List.nodup_append.mpr ⟨h, List.nodup_singleton k, fun a ha b hb => ?_⟩
    rintro rfl
    exact hk (List.mem_singleton.mp hb ▸ ha)

theorem assign_of_notMem {k : κ} {a : α} {t : List (κ × α)} (h : k ∉ t.map Prod.fst) :
    assign k a t = t ++ [(k, a)] := by
  induction t with
  | nil => rfl
  | cons r t ih =>
    rw [List.map_cons, List.mem_cons, not_or] at h
    rw [assign, adjust, if_neg (Ne.symm h.1)]
    exact congrArg (r :: ·) (ih h.2)

theorem rowOf_assign (k k' : κ) (a : α) (t : List (κ × α)) :
    rowOf k' (assign k a t) = if k' = k then some a else rowOf k' t :=
  rowOf_adjust k k' a (fun _ => a) t

theorem assign_rowOf (k : κ) (first : α) (f : α → α) (t : List (κ × α)) :
    assign k (f ((rowOf k t).getD first)) t = adjust k first f t := by
  induction t with
  | nil => rfl
  | cons r t ih =>
    rw [assign] at ih
    rw [assign, adjust, adjust, rowOf_cons]
    by_cases hr : r.1 = k
    · rw [if_pos hr, if_pos hr, if_pos hr]
      rfl
    · rw [if_neg hr, if_neg hr, if_neg hr, ih]

theorem rowOf_erase (k k' : κ) (t : List (κ × α)) :
    rowOf k' (erase k t) = if k' = k then none else rowOf k' t := by
  induction t with
  | nil => rw [erase, List.filter_nil, rowOf_nil, ite_self]
  | cons r t ih =>
    rw [erase] at ih
    rw [erase, rowOf_cons]
    by_cases hr : r.1 = k
    · rw [List.filter_cons_of_neg (by simpa using hr), ih]
      by_cases hk : k' = k
      · rw [if_pos hk, if_pos hk]
      · rw [if_neg hk, if_neg hk, if_neg fun h => hk (h.symm.trans hr)]
    · rw [List.filter_cons_of_pos (by simpa using hr), rowOf_cons, ih]
      by_cases hk : k' = k
      · rw [if_pos hk, if_pos hk, if_neg fun h => hr (h.trans hk)]
      · rw [if_neg hk, if_neg hk]

theorem rowOf_mapRows {γ : Type} (f : α → γ) (k : κ) (t : List (κ × α)) :
    rowOf k (t.map fun r => (r.1, f r.2)) = (rowOf k t).map f := by
  induction t with
  | nil => rfl
  | cons r t ih =>
    rw [List.map_cons, rowOf_cons, rowOf_cons, ih]
    split <;> rfl

theorem rowOf_append (k : κ) (s t : List (κ × α)) : rowOf k (s ++ t) = (rowOf k s).or (rowOf k t) := by
  induction s with
  | nil => rw [List.nil_append, rowOf_nil, Option.none_or]
  | cons c s ih =>
    rw [List.cons_append, rowOf_cons, rowOf_cons, ih]
    split <;> rfl

theorem mem_of_rowOf {k : κ} {a : α} {t : List (κ × α)} (h : rowOf k t = some a) : (k, a) ∈ t := by
  obtain ⟨r, hr, rfl⟩ := Option.map_eq_some_iff.mp h
  have hkey : r.1 = k := of_decide_eq_true (List.find?_some (p := fun r : κ × α => decide (r.1 = k)) hr)
  exact hkey ▸ List.mem_of_find?_eq_some hr

theorem rowOf_eq_none {k : κ} {t : List (κ × α)} (h : k ∉ t.map Prod.fst) : rowOf k t = none := by
  cases hr : rowOf k t with
  | none => rfl
  | some a => exact absurd (List.mem_map_of_mem (mem_of_rowOf hr)) h

theorem rowOf_map (ks : List κ) (v : κ → α) (k : κ) :
    rowOf k (ks.map fun k' => (k', v k')) = if k ∈ ks then some (v k) else none := by
  induction ks with
  | nil => rfl
  | cons k₀ ks ih =>
    rw [List.map_cons, rowOf_cons, ih]
    by_cases hk : k₀ = k
    · subst hk
      rw [if_pos rfl, if_pos List.mem_cons_self]
    · rw [if_neg hk]
      exact if_congr (by rw [List.mem_cons, or_iff_right (Ne.symm hk)]) rfl rfl

theorem flatMap_single {ks : List κ} {k : κ} (hks : ks.Nodup) (hk : k ∈ ks) {g : κ → List β}
    (hg : ∀ k' ∈ ks, k' ≠ k → g k' = []) : ks.flatMap g = g k := by
  induction ks with
  | nil => exact absurd hk List.not_mem_nil
  | cons k₀ ks ih =>
    obtain ⟨hk₀, hks⟩ := List.nodup_cons.mp hks
    rw [List.flatMap_cons]
    by_cases h : k₀ = k
    · subst h
      have hrest : ks.flatMap g = [] := List.flatMap_eq_nil_iff.mpr fun k' hk' =>
        hg k' (List.mem_cons_of_mem _ hk') fun heq => hk₀ (heq ▸ hk')
      rw [hrest, List.append_nil]
    · have hmem : k ∈ ks := (List.mem_cons.mp hk).resolve_left (Ne.symm h)
      rw [hg k₀ List.mem_cons_self h, ih hks hmem fun k' hk' => hg k' (List.mem_cons_of_mem _ hk')]
      rfl

/-- The entries of the keys, one key after the other, are all entries. -/
theorem flatMap_filter_perm (key : β → κ) (l : List β) {ks : List κ} (hks : ks.Nodup)
    (hall : ∀ b ∈ l, key b ∈ ks) : (ks.flatMap fun k => l.filter fun b => key b = k).Perm l := by
  induction ks generalizing l with
  | nil =>
    have hnil : l = [] := List.eq_nil_iff_forall_not_mem.mpr fun b hb => List.not_mem_nil (hall b hb)
    rw [hnil]
    exact List.Perm.nil
  | cons k ks ih =>
    obtain ⟨hk, hks⟩ := List.nodup_cons.mp hks
    have hrest : (ks.flatMap fun k' => l.filter fun b => key b = k') =
        ks.flatMap fun k' => (l.filter fun b => !decide (key b = k)).filter fun b => key b = k' := by
      refine List.flatMap_congr fun k' hk' => ?_
      rw [List.filter_filter]
      refine List.filter_congr fun b _ => ?_
      by_cases hb : key b = k'
      · have hne : k' ≠ k := fun heq => hk (heq ▸ hk')
        simp [hb, hne]
      · simp [hb]
    rw [List.flatMap_cons, hrest]
    refine ((ih (l.filter fun b => !decide (key b = k)) hks fun b hb => ?_).append_left _).trans
      (List.filter_append_perm _ l)
    obtain ⟨hb, hne⟩ := List.mem_filter.mp hb
    exact (List.mem_cons.mp (hall b hb)).resolve_left (by simpa using hne)

theorem adjust_map {ks : List κ} (hks : ks.Nodup) (k : κ) (first : α) (f : α → α) (v : κ → α)
    (hv : k ∉ ks → v k = first) :
    adjust k first f (ks.map fun k' => (k', v k')) =
      (if k ∈ ks then ks else ks ++ [k]).map
        fun k' => (k', if k' = k then f (v k') else v k') := by
  induction ks with
  | nil => simp [adjust, hv]
  | cons k₀ ks ih =>
    obtain ⟨hk₀, hks⟩ := List.nodup_cons.mp hks
    rw [List.map_cons, adjust]
    by_cases hk : k₀ = k
    · subst hk
      have hrest : ∀ k' ∈ ks, (k', v k') = (k', if k' = k₀ then f (v k') else v k') := by
        intro k' hk'
        have hne : k' ≠ k₀ := fun h => hk₀ (h ▸ hk')
        rw [if_neg hne]
      rw [if_pos rfl, if_pos List.mem_cons_self, List.map_cons, if_pos rfl,
        List.map_congr_left hrest]
    · have hv' : k ∉ ks → v k = first := fun h =>
        hv (List.not_mem_cons_of_ne_of_not_mem (Ne.symm hk) h)
      rw [if_neg hk, ih hks hv']
      by_cases hmem : k ∈ ks
      · rw [if_pos hmem, if_pos (List.mem_cons_of_mem _ hmem), List.map_cons, if_neg hk]
      · rw [if_neg hmem, if_neg (List.not_mem_cons_of_ne_of_not_mem (Ne.symm hk) hmem),
          List.cons_append, List.map_cons, if_neg hk]

/-- Under each key stands what the events of the key make of the first entry. -/
theorem foldl_adjust (key : β → κ) (first : α) (f : β → α → α) (l : List β) :
    l.foldl (fun t b => adjust (key b) first (f b) t) [] =
      (l.map key).eraseDups.map fun k =>
        (k, (l.filter fun b => key b = k).foldl (fun a b => f b a) first) := by
  induction l using List.reverseRecOn with
  | nil => rfl
  | append_singleton l b ih =>
    have hnone : key b ∉ (l.map key).eraseDups →
        (l.filter fun b' => key b' = key b).foldl (fun a b => f b a) first = first := by
      intro hb
      rw [List.filter_eq_nil_iff.mpr]
      · rfl
      · intro b' hb' hkey
        exact hb (List.mem_eraseDups.mpr (of_decide_eq_true hkey ▸ List.mem_map_of_mem hb'))
    rw [List.foldl_append, ih, List.foldl_cons, List.foldl_nil,
      adjust_map (nodup_eraseDups _) _ _ _ _ hnone, List.map_append, List.map_cons, List.map_nil,
      eraseDups_concat]
    simp only [List.mem_eraseDups]
    refine List.map_congr_left fun k _ => ?_
    rw [List.filter_append, List.foldl_append]
    by_cases hk : k = key b
    · subst hk
      simp
    · rw [if_neg hk, List.filter_cons_of_neg (by simpa using Ne.symm hk)]
      rfl

theorem mem_foldl_adjust {key : β → κ} {first : α} {f : β → α → α} {l : List β} {r : κ × α} :
    r ∈ l.foldl (fun t b => adjust (key b) first (f b) t) [] ↔
      (∃ b ∈ l, key b = r.1) ∧ r.2 = (l.filter fun b => key b = r.1).foldl (fun a b => f b a) first := by
  rw [foldl_adjust, List.mem_map]
  constructor
  · rintro ⟨k, hk, rfl⟩
    exact ⟨List.mem_map.mp (List.mem_eraseDups.mp hk), rfl⟩
  · rintro ⟨hk, hrow⟩
    exact ⟨r.1, List.mem_eraseDups.mpr (List.mem_map.mpr hk), Prod.ext rfl hrow.symm⟩

theorem mem_keys_foldl_adjust {key : β → κ} {first : α} {f : β → α → α} {l : List β} {k : κ} :
    k ∈ (l.foldl (fun t b => adjust (key b) first (f b) t) []).map Prod.fst ↔ ∃ b ∈ l, key b = k := by
  rw [foldl_adjust, List.map_map, List.mem_map]
  constructor
  · rintro ⟨k, hk, rfl⟩
    exact List.mem_map.mp (List.mem_eraseDups.mp hk)
  · intro hk
    exact ⟨k, List.mem_eraseDups.mpr (List.mem_map.mpr hk), rfl⟩

theorem nodup_foldl_adjust (key : β → κ) (first : α) (f : β → α → α) (l : List β) :
    ((l.foldl (fun t b => adjust (key b) first (f b) t) []).map Prod.fst).Nodup := by
  rw [foldl_adjust, List.map_map]
  exact (nodup_eraseDups _).map fun _ _ => id

theorem rowOf_foldl_adjust (key : β → κ) (first : α) (f : β → α → α) (l : List β) (k : κ) :
    rowOf k (l.foldl (fun t b => adjust (key b) first (f b) t) []) =
      if k ∈ l.map key then some ((l.filter fun b => key b = k).foldl (fun a b => f b a) first) else none := by
  rw [foldl_adjust, rowOf_map]
  exact if_congr List.mem_eraseDups rfl rfl

theorem getD_rowOf_foldl_adjust (key : β → κ) (first : α) (f : β → α → α) (l : List β) (k : κ) :
    (rowOf k (l.foldl (fun t b => adjust (key b) first (f b) t) [])).getD first =
      (l.filter fun b => key b = k).foldl (fun a b => f b a) first := by
  rw [rowOf_foldl_adjust]
  split
  · rfl
  · rename_i hnone
    have hnil : (l.filter fun b => key b = k) = [] := List.filter_eq_nil_iff.mpr fun b hb hkey =>
      hnone (of_decide_eq_true hkey ▸ List.mem_map_of_mem hb)
    rw [hnil]
    rfl

theorem foldl_adjust_eq_nil_iff {key : β → κ} {first : α} {f : β → α → α} {l : List β} :
    l.foldl (fun t b => adjust (key b) first (f b) t) [] = [] ↔ l = [] := by
  rw [foldl_adjust, List.map_eq_nil_iff]
  cases l with
  | nil => exact iff_of_true rfl rfl
  | cons b l =>
    rw [List.map_cons, List.eraseDups_cons]
    exact iff_of_false (List.cons_ne_nil _ _) (List.cons_ne_nil _ _)

theorem foldl_push (key : β → κ) (val : β → α) (l : List β) :
    l.foldl (fun t b => push (key b) (val b) t) [] =
      (l.map key).eraseDups.map fun k => (k, (l.filter fun b => key b = k).map val) := by
  have hrow : ∀ (bs : List β) (as : List α),
      bs.foldl (fun a b => a ++ [val b]) as = as ++ bs.map val := by
    intro bs
    induction bs with
    | nil => exact fun as => (List.append_nil as).symm
    | cons b bs ih =>
      intro as
      rw [List.foldl_cons, ih, List.map_cons, List.append_assoc, List.singleton_append]
  refine (foldl_adjust key [] (fun b as => as ++ [val b]) l).trans ?_
  refine List.map_congr_left fun k _ => ?_
  rw [hrow, List.nil_append]

theorem getD_rowOf_foldl_push (key : β → κ) (val : β → α) (l : List β) (k : κ) :
    (rowOf k (l.foldl (fun t b => push (key b) (val b) t) [])).getD [] =
      (l.filter fun b => key b = k).map val := by
  rw [foldl_push, rowOf_map]
  split
  · rfl
  · rename_i hnone
    have hnil : (l.filter fun b => key b = k) = [] := List.filter_eq_nil_iff.mpr fun b hb hkey =>
      hnone (List.mem_eraseDups.mpr (of_decide_eq_true hkey ▸ List.mem_map_of_mem hb))
    rw [hnil]
    rfl

theorem mem_foldl_push {key : β → κ} {val : β → α} {l : List β} {r : κ × List α} :
    r ∈ l.foldl (fun t b => push (key b) (val b) t) [] ↔
      (∃ b ∈ l, key b = r.1) ∧ r.2 = (l.filter fun b => key b = r.1).map val := by
  rw [foldl_push, List.mem_map]
  constructor
  · rintro ⟨k, hk, rfl⟩
    exact ⟨List.mem_map.mp (List.mem_eraseDups.mp hk), rfl⟩
  · rintro ⟨hk, hrow⟩
    exact ⟨r.1, List.mem_eraseDups.mpr (List.mem_map.mpr hk), Prod.ext rfl hrow.symm⟩

end

/-! ## Neighbours -/

section

variable {α β : Type}

def neighbours (l : List β) : List (β × β) := l.zip l.tail

/-- The halving of `lowerBound`: `len` entries from `first` on are left. -/
def lowerBoundLoop (before : β → Bool) (l : List β) : Nat → Nat → Nat → Nat
  | 0, first, _ => first
  | fuel + 1, first, len =>
      if len = 0 then first
      else if (l[first + len / 2]?).any before then
        lowerBoundLoop before l fuel (first + len / 2 + 1) (len - len / 2 - 1)
      else lowerBoundLoop before l fuel first (len / 2)

/-- `std::lower_bound`: where the entries that are before something end, found
by halving. -/
def lowerBound (before : β → Bool) (l : List β) : Nat :=
  lowerBoundLoop before l l.length 0 l.length

/-- Before the position all entries are before, from it on none is. -/
structure SplitsAt (before : β → Bool) (l : List β) (n : Nat) : Prop where
  left : ∀ i (h : i < l.length), i < n → before l[i] = true
  right : ∀ i (h : i < l.length), n ≤ i → before l[i] = false

theorem lowerBoundLoop_splits {before : β → Bool} {l : List β}
    (hl : l.Pairwise fun a b => before b = true → before a = true) {fuel first len : Nat} (hfuel : len ≤ fuel)
    (hlen : first + len ≤ l.length) (hleft : ∀ i (h : i < l.length), i < first → before l[i] = true)
    (hright : ∀ i (h : i < l.length), first + len ≤ i → before l[i] = false) :
    SplitsAt before l (lowerBoundLoop before l fuel first len) := by
  have hmono := List.pairwise_iff_getElem.mp hl
  induction fuel generalizing first len with
  | zero =>
    obtain rfl : len = 0 := Nat.le_zero.mp hfuel
    exact ⟨hleft, hright⟩
  | succ fuel ih =>
    rw [lowerBoundLoop]
    by_cases hzero : len = 0
    · subst hzero
      rw [if_pos rfl]
      exact ⟨hleft, hright⟩
    · have hmid : first + len / 2 < l.length := by omega
      rw [if_neg hzero, List.getElem?_eq_getElem hmid, Option.any_some]
      cases hb : before l[first + len / 2] with
      | true =>
        rw [if_pos rfl]
        refine ih (by omega) (by omega) (fun i h hi => ?_) fun i h hi => hright i h (by omega)
        rcases Nat.lt_or_ge i (first + len / 2) with hlt | hge
        · exact hmono i _ h hmid hlt hb
        · obtain rfl : i = first + len / 2 := by omega
          exact hb
      | false =>
        rw [if_neg Bool.false_ne_true]
        refine ih (by omega) (by omega) hleft fun i h hi => ?_
        rcases Nat.lt_or_ge (first + len / 2) i with hlt | hge
        · exact Bool.eq_false_iff.mpr fun ht => absurd ((hmono _ i hmid h hlt ht).symm.trans hb) (by simp)
        · obtain rfl : i = first + len / 2 := by omega
          exact hb

theorem lowerBound_splits {before : β → Bool} {l : List β}
    (hl : l.Pairwise fun a b => before b = true → before a = true) :
    SplitsAt before l (lowerBound before l) := by
  refine lowerBoundLoop_splits hl (Nat.le_refl _) (by omega) (fun i _ hi => absurd hi (Nat.not_lt_zero i)) ?_
  intro i h hi
  omega

theorem getElem?_lowerBound {before : β → Bool} {l : List β}
    (hl : l.Pairwise fun a b => before b = true → before a = true) :
    l[lowerBound before l]? = l.find? fun a => !before a := by
  obtain ⟨hleft, hright⟩ := lowerBound_splits hl
  generalize lowerBound before l = n at hleft hright
  induction l generalizing n with
  | nil => rfl
  | cons a l ih =>
    cases n with
    | zero =>
      have ha := hright 0 (Nat.zero_lt_succ _) (Nat.le_refl 0)
      rw [List.find?_cons_of_pos (by simpa using ha)]
      rfl
    | succ n =>
      have ha := hleft 0 (Nat.zero_lt_succ _) (Nat.zero_lt_succ n)
      rw [List.find?_cons_of_neg (by simpa using ha), List.getElem?_cons_succ]
      refine ih (List.pairwise_cons.mp hl).2 n (fun i h hi => ?_) fun i h hi => ?_
      · exact hleft (i + 1) (Nat.succ_lt_succ h) (Nat.succ_lt_succ hi)
      · exact hright (i + 1) (Nat.succ_lt_succ h) (Nat.succ_le_succ hi)

theorem neighbours_concat (l : List β) (a b : β) :
    neighbours (l ++ [a, b]) = neighbours (l ++ [a]) ++ [(a, b)] := by
  induction l with
  | nil => rfl
  | cons x l ih =>
    cases l with
    | nil => rfl
    | cons y l => exact congrArg ((x, y) :: ·) ih

theorem splitBy_concat {r : β → β → Bool} {l : List β} {runs : List (List β)} {run : List β} {a b : β}
    (h : l.splitBy r = runs ++ [run ++ [a]]) :
    (l ++ [b]).splitBy r = if r a b then runs ++ [run ++ [a, b]] else runs ++ [run ++ [a], [b]] := by
  have hl : l = runs.flatten ++ (run ++ [a]) := by
    rw [← List.flatten_splitBy r l, h, List.flatten_append, List.flatten_singleton]
  split
  · rename_i hr
    obtain ⟨-, hnil, hchain, hbreak⟩ := List.splitBy_eq_iff.mp h
    refine List.splitBy_eq_iff.mpr ⟨?_, ?_, ?_, ?_⟩
    · rw [hl, List.flatten_append, List.flatten_singleton, List.append_assoc, List.append_assoc]
      rfl
    · intro hmem
      rcases List.mem_append.mp hmem with hmem | hmem
      · exact hnil (List.mem_append_left _ hmem)
      · exact List.append_ne_nil_of_right_ne_nil run (List.cons_ne_nil a [b]) (List.mem_singleton.mp hmem).symm
    · intro m hm
      rcases List.mem_append.mp hm with hm | hm
      · exact hchain m (List.mem_append_left _ hm)
      · have hrun := hchain (run ++ [a]) (List.mem_append_right _ List.mem_cons_self)
        obtain rfl := List.mem_singleton.mp hm
        have hconcat : run ++ [a, b] = (run ++ [a]) ++ [b] := by rw [List.append_assoc]; rfl
        rw [hconcat]
        refine List.isChain_append.mpr ⟨hrun, List.isChain_singleton b, ?_⟩
        rintro x hx y hy
        rw [List.getLast?_concat, Option.mem_def, Option.some_inj] at hx
        rw [List.head?_cons, Option.mem_def, Option.some_inj] at hy
        rw [← hx, ← hy]
        exact hr
    · obtain ⟨hruns, -, hlast⟩ := List.isChain_append.mp hbreak
      refine List.isChain_append.mpr ⟨hruns, List.isChain_singleton _, ?_⟩
      rintro x hx y hy
      rw [List.head?_cons, Option.mem_def, Option.some_inj] at hy
      subst hy
      obtain ⟨hne, hne', hfalse⟩ := hlast x hx _ rfl
      refine ⟨hne, List.append_ne_nil_of_right_ne_nil run (List.cons_ne_nil a [b]), ?_⟩
      rw [← hfalse]
      congr 1
      cases run <;> rfl
  · rename_i hr
    have hlast : ∀ x ∈ l.getLast?, r x b = false := by
      intro x hx
      rw [hl, ← List.append_assoc, List.getLast?_concat, Option.mem_def, Option.some_inj] at hx
      rw [← hx]
      exact Bool.eq_false_iff.mpr hr
    rw [List.splitBy_append_cons [] hlast, h, List.append_assoc]
    rfl

theorem rel_of_mem_neighbours {R : β → β → Prop} {l : List β} (hl : l.Pairwise R) {p : β × β}
    (hp : p ∈ neighbours l) : R p.1 p.2 := by
  induction l with
  | nil => exact absurd hp List.not_mem_nil
  | cons x l ih =>
    obtain ⟨hx, hl⟩ := List.pairwise_cons.mp hl
    cases l with
    | nil => exact absurd hp List.not_mem_nil
    | cons y l =>
      rcases List.mem_cons.mp hp with rfl | hp
      · exact hx y List.mem_cons_self
      · exact ih hl hp

theorem neighbours_map (f : β → α) (l : List β) : neighbours (l.map f) = (neighbours l).map (Prod.map f f) := by
  rw [neighbours, neighbours, ← List.map_tail, List.zip_map]

theorem pairwise_neighbours {R : β → β → Prop} (hrefl : ∀ b, R b b) {l : List β} (hl : l.Pairwise R) :
    (neighbours l).Pairwise fun p q => R p.2 q.1 := by
  induction l with
  | nil => exact .nil
  | cons x l ih =>
    obtain ⟨-, hl⟩ := List.pairwise_cons.mp hl
    cases l with
    | nil => exact .nil
    | cons y l =>
      refine List.pairwise_cons.mpr ⟨fun q hq => ?_, ih hl⟩
      rcases List.mem_cons.mp (List.of_mem_zip hq).1 with hy | hmem
      · rw [hy]
        exact hrefl y
      · exact (List.pairwise_cons.mp hl).1 q.1 hmem

/-- Of points in order two neighbours are close if any two are: what lies
between two close points is close. -/
theorem exists_neighbours_iff {R : Nat → Nat → Prop} (hlt : ∀ {a b}, R a b → a < b)
    (hsub : ∀ {a x y b}, R a b → a ≤ x → x < y → y ≤ b → R x y) (pos : β → Nat) {l : List β}
    (hl : l.Pairwise fun a b => pos a ≤ pos b) :
    (∃ p ∈ neighbours l, R (pos p.1) (pos p.2)) ↔
      ∃ a ∈ l, ∃ b ∈ l, R (pos a) (pos b) := by
  induction l with
  | nil =>
    constructor
    · rintro ⟨p, hp, -⟩
      exact absurd hp List.not_mem_nil
    · rintro ⟨a, ha, -⟩
      exact absurd ha List.not_mem_nil
  | cons x l ih =>
    obtain ⟨hx, hrest⟩ := List.pairwise_cons.mp hl
    constructor
    · rintro ⟨p, hp, hR⟩
      obtain ⟨ha, hb⟩ := List.of_mem_zip (Prod.eta p ▸ hp)
      exact ⟨p.1, ha, p.2, List.mem_of_mem_tail hb, hR⟩
    · rintro ⟨a, ha, b, hb, hR⟩
      -- the later of the two is not the first entry
      have hbl : b ∈ l := by
        rcases List.mem_cons.mp hb with rfl | hbl
        · rcases List.mem_cons.mp ha with rfl | ha
          · exact absurd (hlt hR) (Nat.lt_irrefl _)
          · exact absurd (hlt hR) (Nat.not_lt.mpr (hx a ha))
        · exact hbl
      obtain ⟨y, l, rfl⟩ := List.exists_cons_of_ne_nil (List.ne_nil_of_mem hbl)
      by_cases hlast : ∃ a' ∈ y :: l, R (pos a') (pos b)
      · obtain ⟨a', ha', hR'⟩ := hlast
        obtain ⟨p, hp, hRp⟩ := (ih hrest).mpr ⟨a', ha', b, hbl, hR'⟩
        exact ⟨p, List.mem_cons_of_mem _ hp, hRp⟩
      · -- only the first entry is close to `b`, and so it is before the second
        have hax : a = x := by
          rcases List.mem_cons.mp ha with h | h
          · exact h
          · exact absurd ⟨a, h, hR⟩ hlast
        subst hax
        have hyb : pos y ≤ pos b := by
          rcases List.mem_cons.mp hbl with h | h
          · exact Nat.le_of_eq (congrArg pos h.symm)
          · exact (List.pairwise_cons.mp hrest).1 b h
        rcases Nat.lt_or_ge (pos a) (pos y) with hay | hay
        · exact ⟨(a, y), List.mem_cons_self, hsub hR (Nat.le_refl _) hay hyb⟩
        · have hay : pos a = pos y := Nat.le_antisymm (hx y List.mem_cons_self) hay
          exact absurd ⟨y, List.mem_cons_self, hay ▸ hR⟩ hlast

end

end Montauk.Timeline
