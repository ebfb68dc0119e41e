import Mathlib.Data.List.Perm.Subperm
import Mathlib.Order.Lattice
import Montauk.Machine.KeyMap

/-!
# Walking a map by its keys

A map that is walked in a fixed order by asking for the key behind a key. Behind
a key that is not there comes the first one, so a walk that deletes the entry it
stands on begins again (`walk`).

Where the walk stands is given by the entries it has passed and those it has
before it, and a deletion puts the passed ones in front again (`scan`,
`walk_eq_scan`). Entries that are kept and have been passed are met once more.
So each of them is met once only if the kept entries are passed in one go, or
the walk is full before it begins again (`once_iff`).
-/

namespace Montauk.CursorWalk

open Machine

universe u v
variable {κ : Type u} {ν : Type v}

/-! ## Deleting on the way -/

section

variable [DecidableEq κ]

/-- The walk from the key `key` on, until there are `cap` rows. An entry that is
not kept is deleted. -/
def walk (keep : ν → Bool) (cap : Nat) : Nat → KeyMap κ ν → κ → List (κ × ν) → Option (KeyMap κ ν × List (κ × ν))
  | 0, _, _, _ => none
  | fuel + 1, m, key, rows =>
      match m.getNextKey key with
      | none => some (m, rows)
      | some next =>
          if cap ≤ rows.length then some (m, rows)
          else
            match m.lookup next with
            | none => walk keep cap fuel m next rows
            | some value =>
                if keep value then walk keep cap fuel m next (rows ++ [(next, value)])
                else walk keep cap fuel (m.erase next) next rows

end

/-! ## Passed entries and entries to come -/

section

variable {β : Type v} (keep : β → Bool) (cap : Nat)

/-- The rows of a walk that has passed `done` and has `todo` before it. -/
def scan (done todo rows : List β) : List β :=
  match todo with
  | [] => rows
  | e :: todo =>
      if cap ≤ rows.length then rows
      else if keep e then scan (done ++ [e]) todo (rows ++ [e])
      else scan [] (done ++ todo) rows
termination_by (done.length + todo.length, todo.length)
decreasing_by
  · have hsame : (done ++ [e]).length + todo.length = done.length + (e :: todo).length := by
      simp only [List.length_append, List.length_cons, List.length_nil]
      omega
    rw [hsame]
    exact Prod.Lex.right _ (Nat.lt_succ_self _)
  · refine Prod.Lex.left _ _ ?_
    simp only [List.length_append, List.length_cons, List.length_nil]
    omega

variable {keep cap} {done todo rows ts us front : List β} {e : β}

theorem scan_nil : scan keep cap done [] rows = rows := by rw [scan]

theorem scan_full (h : cap ≤ rows.length) : scan keep cap done todo rows = rows := by
  cases todo with
  | nil => exact scan_nil
  | cons e todo => rw [scan, if_pos h]

theorem scan_delete (h : keep e = false) : scan keep cap done (e :: todo) rows = scan keep cap [] (done ++ todo) rows := by
  by_cases hfull : cap ≤ rows.length
  · rw [scan_full hfull, scan_full hfull]
  · rw [scan, if_neg hfull, h, if_neg Bool.false_ne_true]

/-- Entries that are not kept are gone when nothing has been passed. -/
theorem scan_delete_block (h : ∀ e ∈ us, keep e = false) :
    scan keep cap [] (us ++ todo) rows = scan keep cap [] todo rows := by
  induction us with
  | nil => rfl
  | cons e us ih =>
      rw [List.cons_append, scan_delete (h e List.mem_cons_self), List.nil_append,
        ih fun e he => h e (List.mem_cons_of_mem _ he)]

theorem scan_keep_block (h : ∀ e ∈ ts, keep e = true) (hrows : rows.length ≤ cap) :
    scan keep cap done (ts ++ todo) rows
      = if cap ≤ rows.length + ts.length then (rows ++ ts).take cap
        else scan keep cap (done ++ ts) todo (rows ++ ts) := by
  induction ts generalizing done rows with
  | nil =>
      rw [List.nil_append, List.append_nil, List.append_nil, List.length_nil, Nat.add_zero]
      split
      · rename_i hfull
        rw [scan_full hfull, List.take_of_length_le hrows]
      · rfl
  | cons e ts ih =>
      rw [List.cons_append, scan, List.length_cons]
      by_cases hfull : cap ≤ rows.length
      · rw [if_pos hfull, if_pos (by omega), List.take_append_of_le_length hfull, List.take_of_length_le hrows]
      · have hkeep := h e List.mem_cons_self
        have hlen : (rows ++ [e]).length = rows.length + 1 := by rw [List.length_append, List.length_singleton]
        rw [if_neg hfull, if_pos hkeep, ih (fun e he => h e (List.mem_cons_of_mem _ he)) (by omega), hlen,
          List.append_assoc, List.append_assoc, List.singleton_append]
        have hiff : cap ≤ rows.length + 1 + ts.length ↔ cap ≤ rows.length + (ts.length + 1) := by omega
        simp only [hiff]

theorem scan_prefix : ∃ more, scan keep cap done todo rows = rows ++ more := by
  induction done, todo, rows using scan.induct keep cap with
  | case1 done rows => exact ⟨[], by rw [scan_nil, List.append_nil]⟩
  | case2 done rows e todo hfull => exact ⟨[], by rw [scan_full hfull, List.append_nil]⟩
  | case3 done rows e todo hfull hkeep ih =>
      obtain ⟨more, hmore⟩ := ih
      exact ⟨e :: more, by rw [scan, if_neg hfull, if_pos hkeep, hmore, List.append_assoc, List.singleton_append]⟩
  | case4 done rows e todo hfull hkeep ih =>
      rw [scan, if_neg hfull, if_neg hkeep]
      exact ih

theorem mem_scan {entries : List β} (hsub : ∀ e ∈ done ++ todo, e ∈ entries) (hrows : ∀ e ∈ rows, e ∈ entries) :
    ∀ e ∈ scan keep cap done todo rows, e ∈ entries := by
  induction done, todo, rows using scan.induct keep cap with
  | case1 done rows => rwa [scan_nil]
  | case2 done rows e todo hfull => rwa [scan_full hfull]
  | case3 done rows e todo hfull hkeep ih =>
      rw [scan, if_neg hfull, if_pos hkeep]
      refine ih (by rwa [List.append_assoc, List.singleton_append]) fun d hd => ?_
      rcases List.mem_append.mp hd with hd | hd
      · exact hrows d hd
      · rw [List.mem_singleton.mp hd]
        exact hsub e (List.mem_append_right _ List.mem_cons_self)
  | case4 done rows e todo hfull hkeep ih =>
      rw [scan, if_neg hfull, if_neg hkeep]
      refine ih (fun d hd => hsub d ?_) hrows
      exact (List.Sublist.append_left (List.sublist_cons_self e todo) done).subset hd

theorem scan_cons (hkeep : keep e = true) (hrows : rows.length < cap) :
    ∃ more, scan keep cap done (e :: todo) rows = rows ++ e :: more := by
  rw [scan, if_neg (Nat.not_le.mpr hrows), if_pos hkeep]
  obtain ⟨more, hmore⟩ : ∃ more, scan keep cap (done ++ [e]) todo (rows ++ [e]) = rows ++ [e] ++ more := scan_prefix
  exact ⟨more, by rw [hmore, List.append_assoc, List.singleton_append]⟩

theorem scan_not_nodup (he : e ∈ rows) (hkeep : keep e = true) (hrows : rows.length < cap) :
    ¬ (scan keep cap done (e :: todo) rows).Nodup := by
  obtain ⟨more, hmore⟩ : ∃ more, scan keep cap done (e :: todo) rows = rows ++ e :: more := scan_cons hkeep hrows
  rw [hmore]
  intro hnodup
  exact (List.nodup_append.mp hnodup).2.2 e he e List.mem_cons_self rfl

/-! ## Each entry once -/

/-- The rows are kept entries, none twice, and as many as there are or fit. -/
structure Once (keep : β → Bool) (cap : Nat) (entries rows : List β) : Prop where
  nodup : rows.Nodup
  mem : ∀ e ∈ rows, e ∈ entries ∧ keep e = true
  length : rows.length = min cap (entries.countP keep)

/-- Behind the leading entries that are not kept, the kept ones go on to the end
or fill the rows. -/
def Uninterrupted (keep : β → Bool) (cap : Nat) (entries : List β) : Prop :=
  let behind := entries.dropWhile fun e => !keep e
  behind.dropWhile keep = [] ∨ cap ≤ (behind.takeWhile keep).length

/-- The same for a walk that begins behind `front`. It passes the kept entries
it meets first; then it is at the end, and there is nothing to keep in the
front, or it begins again at an entry that is not kept: without any rows it goes
over the whole map, and with rows it has to fill up in front of them. -/
def MeetsOnce (keep : β → Bool) (cap : Nat) (front back : List β) : Prop :=
  let first := back.takeWhile keep
  match back.dropWhile keep with
  | [] => (∀ e ∈ front, keep e = false) ∨ cap ≤ first.length
  | _ :: rest =>
      first = [] ∧ Uninterrupted keep cap (front ++ rest)
        ∨ cap ≤ first.length + ((front.dropWhile fun e => !keep e).takeWhile keep).length

theorem Once.take {entries : List β} (hsubperm : ts.Subperm entries) (hts : ∀ e ∈ ts, keep e = true)
    (hnodup : entries.Nodup) (h : cap ≤ ts.length) : Once keep cap entries (ts.take cap) := by
  have hcount : ts.length ≤ entries.countP keep := by
    rw [← List.countP_eq_length.mpr hts]
    exact hsubperm.countP_le keep
  refine ⟨?_, fun e he => ⟨hsubperm.subset (List.mem_of_mem_take he), hts e (List.mem_of_mem_take he)⟩, ?_⟩
  · obtain ⟨l, hl, hls⟩ := hsubperm
    exact (hl.nodup_iff.mp (hnodup.sublist hls)).sublist (List.take_sublist cap ts)
  · rw [List.length_take]
    omega

theorem Once.of_not_mem {entries entries' : List β} (h : Once keep cap entries' rows)
    (hsub : ∀ e ∈ entries', e ∈ entries) (hcount : entries'.countP keep = entries.countP keep) :
    Once keep cap entries rows where
  nodup := h.nodup
  mem e he := ⟨hsub e (h.mem e he).1, (h.mem e he).2⟩
  length := hcount ▸ h.length

/-- A list in three parts: entries that are not kept, kept ones, and what is
behind those from the next entry on that is not kept. -/
structure Blocks (keep : β → Bool) (entries us ts rest : List β) : Prop where
  split : entries = us ++ (ts ++ rest)
  drop : ∀ e ∈ us, keep e = false
  kept : ∀ e ∈ ts, keep e = true
  next : rest = [] ∨ ts ≠ [] ∧ ∃ u rest', rest = u :: rest' ∧ keep u = false

theorem blocks (keep : β → Bool) (entries : List β) :
    Blocks keep entries (entries.takeWhile fun e => !keep e) ((entries.dropWhile fun e => !keep e).takeWhile keep)
      ((entries.dropWhile fun e => !keep e).dropWhile keep) where
  split := by rw [List.takeWhile_append_dropWhile, List.takeWhile_append_dropWhile]
  drop e he := by simpa using List.mem_takeWhile_imp he
  kept e he := List.mem_takeWhile_imp he
  next := by
    have hrest := List.head?_dropWhile_not keep (entries.dropWhile fun e => !keep e)
    have hbehind := List.head?_dropWhile_not (fun e => !keep e) entries
    cases h : (entries.dropWhile fun e => !keep e).dropWhile keep with
    | nil => exact .inl rfl
    | cons u rest =>
        rw [h] at hrest
        have hu : keep u = false := hrest
        refine .inr ⟨fun hts => ?_, u, rest, rfl, hu⟩
        rw [← List.takeWhile_append_dropWhile (p := keep) (l := entries.dropWhile fun e => !keep e), hts, h,
          List.nil_append] at hbehind
        have hkeep : keep u = true := by simpa using hbehind
        rw [hu] at hkeep
        exact Bool.false_ne_true hkeep

theorem once_iff_uninterrupted {entries : List β} (hnodup : entries.Nodup) :
    Once keep cap entries (scan keep cap [] entries []) ↔ Uninterrupted keep cap entries := by
  obtain ⟨hsplit, hus, hts, hnext⟩ := blocks keep entries
  rw [Uninterrupted]
  generalize entries.takeWhile (fun e => !keep e) = us at hsplit hus
  generalize (entries.dropWhile fun e => !keep e).takeWhile keep = ts at hsplit hts hnext ⊢
  generalize (entries.dropWhile fun e => !keep e).dropWhile keep = rest at hsplit hnext ⊢
  subst hsplit
  have hsub : ts.Subperm (us ++ (ts ++ rest)) :=
    ((List.sublist_append_left ts rest).trans (List.sublist_append_right us _)).subperm
  rw [scan_delete_block hus, scan_keep_block hts (Nat.zero_le cap), List.length_nil, Nat.zero_add, List.nil_append]
  by_cases hfull : cap ≤ ts.length
  · rw [if_pos hfull]
    exact ⟨fun _ => .inr hfull, fun _ => .take hsub hts hnodup hfull⟩
  · rw [if_neg hfull]
    rcases hnext with rfl | ⟨hne, u, rest, rfl, hu⟩
    · refine ⟨fun _ => .inl rfl, fun _ => ?_⟩
      rw [scan_nil]
      have hwhole : Once keep ts.length (us ++ (ts ++ [])) (ts.take ts.length) := .take hsub hts hnodup le_rfl
      rw [List.take_length] at hwhole
      refine ⟨hwhole.nodup, hwhole.mem, ?_⟩
      rw [List.append_nil, List.countP_append, List.countP_eq_zero.mpr fun e he => by simp [hus e he],
        List.countP_eq_length.mpr hts]
      omega
    · -- the first kept entry is met again
      obtain ⟨t, ts, rfl⟩ := List.exists_cons_of_ne_nil hne
      refine ⟨fun h => absurd h.nodup ?_, fun h => h.elim (fun h => absurd h nofun) fun h => absurd h hfull⟩
      rw [scan_delete hu, List.cons_append]
      exact scan_not_nodup List.mem_cons_self (hts t List.mem_cons_self) (Nat.not_le.mp hfull)

/-- A walk that begins again passes the first kept entries of the front. -/
theorem scan_front {us bs later tail : List β} (h : Blocks keep front us bs later) (hrows : rows.length ≤ cap) :
    scan keep cap [] (front ++ tail) rows
      = if cap ≤ rows.length + bs.length then (rows ++ bs).take cap
        else scan keep cap bs (later ++ tail) (rows ++ bs) := by
  have hfront : front ++ tail = us ++ (bs ++ (later ++ tail)) := by
    rw [h.split]
    simp only [List.append_assoc]
  rw [hfront, scan_delete_block h.drop, scan_keep_block h.kept hrows, List.nil_append]

theorem once_again {us bs later rest : List β} {t u : β} (h : Blocks keep front us bs later)
    (hkeep : ∀ e ∈ t :: ts, keep e = true)
    (hnodup : (front ++ (t :: ts ++ u :: rest)).Nodup) (hroom : (t :: ts).length < cap) :
    Once keep cap (front ++ (t :: ts ++ u :: rest)) (scan keep cap [] (front ++ (t :: ts) ++ rest) (t :: ts))
      ↔ cap ≤ (t :: ts).length + bs.length := by
  rw [List.append_assoc, scan_front h hroom.le]
  split
  · rename_i hfull
    refine ⟨fun _ => hfull, fun _ => Once.take ?_ ?_ hnodup (by rw [List.length_append]; exact hfull)⟩
    · have hperm : (t :: ts ++ front).Subperm (front ++ (t :: ts ++ u :: rest)) := by
        rw [List.append_cons, ← List.append_assoc]
        refine (List.perm_append_comm.subperm).trans ?_
        simpa using (List.sublist_append_left (front ++ t :: ts) (u :: rest)).subperm
      refine (List.Sublist.subperm (List.Sublist.append_left ?_ (t :: ts))).trans hperm
      rw [h.split]
      exact (List.sublist_append_left bs later).trans (List.sublist_append_right us _)
    · exact fun e he => (List.mem_append.mp he).elim (hkeep e) (h.kept e)
  · rename_i hfull
    have hlt : (t :: ts ++ bs).length < cap := by
      rw [List.length_append]
      omega
    refine ⟨fun honce => absurd honce.nodup ?_, fun hle => absurd hle hfull⟩
    rcases h.next with rfl | ⟨hne, f, later, rfl, hf⟩
    · -- the rows come next
      rw [List.nil_append, List.cons_append]
      exact scan_not_nodup (List.mem_append_left _ List.mem_cons_self) (hkeep t List.mem_cons_self) hlt
    · -- the front's first kept entry comes next
      obtain ⟨b, bs, rfl⟩ := List.exists_cons_of_ne_nil hne
      rw [List.cons_append, scan_delete hf, List.cons_append]
      exact scan_not_nodup (List.mem_append_right _ List.mem_cons_self) (h.kept b List.mem_cons_self) hlt

/-- **Each kept entry is met once**, exactly if the walk meets them in one go or
is full before it meets one again. -/
theorem once_iff {front back : List β} (hnodup : (front ++ back).Nodup) :
    Once keep cap (front ++ back) (scan keep cap front back []) ↔ MeetsOnce keep cap front back := by
  obtain ⟨first, hfirst⟩ : ∃ first, first = back.takeWhile keep := ⟨_, rfl⟩
  obtain ⟨later, hlater⟩ : ∃ later, later = back.dropWhile keep := ⟨_, rfl⟩
  have hback : back = first ++ later := by rw [hfirst, hlater, List.takeWhile_append_dropWhile]
  have hkeep : ∀ e ∈ first, keep e = true := by
    intro e he
    rw [hfirst] at he
    exact List.mem_takeWhile_imp he
  have hlaterHead := List.head?_dropWhile_not keep back
  rw [MeetsOnce, ← hfirst, ← hlater]
  rw [← hlater] at hlaterHead
  clear hfirst hlater
  subst hback
  have hsub : first.Subperm (front ++ (first ++ later)) :=
    ((List.sublist_append_left first later).trans (List.sublist_append_right front _)).subperm
  rw [scan_keep_block hkeep (Nat.zero_le cap), List.length_nil, Nat.zero_add, List.nil_append]
  by_cases hfull : cap ≤ first.length
  · rw [if_pos hfull]
    refine ⟨fun _ => ?_, fun _ => .take hsub hkeep hnodup hfull⟩
    cases later with
    | nil => exact .inr hfull
    | cons u rest => exact .inr (by omega)
  · rw [if_neg hfull]
    cases later with
    | nil =>
        have hcount : (front ++ (first ++ [])).countP keep = front.countP keep + first.length := by
          rw [List.append_nil, List.countP_append, List.countP_eq_length.mpr hkeep]
        have hwhole : Once keep first.length (front ++ (first ++ [])) (first.take first.length) :=
          .take hsub hkeep hnodup le_rfl
        rw [List.take_length] at hwhole
        rw [scan_nil]
        constructor
        · intro h
          have hlen := h.length
          rw [hcount] at hlen
          have hzero : front.countP keep = 0 := by omega
          exact .inl fun e he => by simpa using List.countP_eq_zero.mp hzero e he
        · rintro (hnone | hlen)
          · have hzero : front.countP keep = 0 := List.countP_eq_zero.mpr fun e he => by simp [hnone e he]
            exact ⟨hwhole.nodup, hwhole.mem, by omega⟩
          · exact absurd hlen hfull
    | cons u rest =>
        have hu : keep u = false := hlaterHead
        rw [scan_delete hu]
        cases first with
        | cons t first =>
            rw [once_again (blocks keep front) hkeep hnodup (Nat.not_le.mp hfull)]
            exact ⟨.inr, fun h => h.elim (fun h => absurd h.1 nofun) id⟩
        | nil =>
            have hcount : (front ++ rest).countP keep = (front ++ u :: rest).countP keep := by
              rw [List.countP_append, List.countP_append, List.countP_cons_of_neg (by simp [hu])]
            have hsublist : (front ++ rest).Sublist (front ++ u :: rest) :=
              List.Sublist.append_left (List.sublist_cons_self u rest) front
            have hwhole : Once keep cap (front ++ rest) (scan keep cap [] (front ++ rest) [])
                ↔ Uninterrupted keep cap (front ++ rest) := once_iff_uninterrupted (hnodup.sublist hsublist)
            rw [List.append_nil, List.nil_append, List.length_nil, Nat.zero_add]
            constructor
            · intro h
              refine .inl ⟨rfl, hwhole.mp ⟨h.nodup, fun e he => ⟨?_, (h.mem e he).2⟩, hcount ▸ h.length⟩⟩
              have hne : e ≠ u := fun heq => by
                have hkept := (h.mem e he).2
                rw [heq, hu] at hkept
                exact Bool.false_ne_true hkept
              have hmem := (h.mem e he).1
              simp only [List.mem_append, List.mem_cons] at hmem ⊢
              tauto
            · rintro (⟨-, h⟩ | h)
              · exact (hwhole.mpr h).of_not_mem (fun e he => hsublist.subset he) hcount
              · have hblocks := blocks keep front
                rw [scan_front hblocks (Nat.zero_le cap), List.length_nil, Nat.zero_add, if_pos h, List.nil_append]
                refine Once.take ?_ hblocks.kept hnodup h
                refine (List.Sublist.trans ?_ (List.sublist_append_left front (u :: rest))).subperm
                exact (List.takeWhile_sublist _).trans (List.dropWhile_sublist _)

end

/-! ## The walk -/

section

variable [DecidableEq κ] {keep : ν → Bool} {cap : Nat} {k : κ} {e : κ × ν} {done todo entries : List (κ × ν)}

/-- **The walk ends** with enough turns, and its rows are those of the scan. -/
theorem walk_eq_scan {key : κ} {rows : List (κ × ν)} (hentries : m.entries = done ++ todo)
    (hkey : splitBehind key m.entries = (done, todo)) :
    ∃ n, ∀ fuel, n ≤ fuel → ∃ m', walk keep cap fuel m key rows
      = some (m', scan (fun e => keep e.2) cap done todo rows) := by
  induction done, todo, rows using scan.induct (fun e : κ × ν => keep e.2) cap generalizing m key with
  | case1 done rows =>
      refine ⟨1, fun fuel hfuel => ⟨m, ?_⟩⟩
      obtain ⟨fuel, rfl⟩ := Nat.exists_eq_add_of_le' hfuel
      have hnext : m.getNextKey key = none := by rw [KeyMap.getNextKey, hkey]; rfl
      rw [walk, hnext, scan_nil]
  | case2 done rows e todo hfull =>
      refine ⟨1, fun fuel hfuel => ⟨m, ?_⟩⟩
      obtain ⟨fuel, rfl⟩ := Nat.exists_eq_add_of_le' hfuel
      have hnext : m.getNextKey key = some e.1 := by rw [KeyMap.getNextKey, hkey]; rfl
      rw [walk, hnext, scan_full hfull]
      simp only [if_pos hfull]
  | case3 done rows e todo hfull hkeep ih =>
      have hnodup := m.nodup
      rw [hentries, List.map_append, List.map_cons] at hnodup
      have hnot : e.1 ∉ done.map Prod.fst := fun hmem =>
        (List.nodup_append.mp hnodup).2.2 e.1 hmem e.1 List.mem_cons_self rfl
      obtain ⟨n, hn⟩ := @ih m e.1 (by rw [hentries, List.append_assoc, List.singleton_append])
        (by rw [hentries, splitBehind_append hnot])
      refine ⟨n + 1, fun fuel hfuel => ?_⟩
      obtain ⟨fuel, rfl⟩ := Nat.exists_eq_add_of_le' hfuel
      have hnext : m.getNextKey key = some e.1 := by rw [KeyMap.getNextKey, hkey]; rfl
      obtain ⟨m', hm'⟩ := hn (fuel + n) (Nat.le_add_left _ _)
      refine ⟨m', ?_⟩
      rw [← Nat.add_assoc, walk, hnext]
      simp only [if_neg hfull, lookup_of_append hentries, if_pos hkeep]
      rw [scan, if_neg hfull, if_pos hkeep]
      exact hm'
  | case4 done rows e todo hfull hkeep ih =>
      have herase := entries_erase hentries
      have hnot : e.1 ∉ (done ++ todo).map Prod.fst := by
        rw [← herase, List.mem_map]
        rintro ⟨d, hd, hde⟩
        exact of_decide_eq_true (List.mem_filter.mp hd).2 hde
      obtain ⟨n, hn⟩ := @ih (m.erase e.1) e.1 herase (by rw [herase, splitBehind_of_not_mem hnot])
      refine ⟨n + 1, fun fuel hfuel => ?_⟩
      obtain ⟨fuel, rfl⟩ := Nat.exists_eq_add_of_le' hfuel
      have hnext : m.getNextKey key = some e.1 := by rw [KeyMap.getNextKey, hkey]; rfl
      obtain ⟨m', hm'⟩ := hn (fuel + n) (Nat.le_add_left _ _)
      refine ⟨m', ?_⟩
      rw [← Nat.add_assoc, walk, hnext]
      simp only [if_neg hfull, lookup_of_append hentries, if_neg hkeep]
      rw [scan, if_neg hfull, if_neg hkeep]
      exact hm'

end

end Montauk.CursorWalk
