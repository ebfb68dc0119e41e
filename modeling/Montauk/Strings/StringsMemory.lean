import Montauk.Strings.SortStrings

/-!
# The string sorts without memory

The allocations of the string sorts fail in two places, with two fallbacks. The
index sorts without their working arrays leave the identity. Without the scratch
of `sub_strings_internal` the pointers are sorted by `strcmp`: the working copy
of an index sort, so that its indices stay what they were, and the array of
`sublimation_strings_len`, whose strings need not end in a NUL, and are not in
the order of their bytes where there is a NUL in them.
-/

namespace Montauk.Strings

open Montauk.Sort

/-! ## Strings without a NUL -/

theorem eq_of_padded_eq {n : Nat} {s t : List UInt8} (hs : 0 ∉ s) (ht : 0 ∉ t) (hsn : s.length ≤ n) (htn : t.length ≤ n)
    (h : padded n s = padded n t) : s = t := by
  induction n generalizing s t with
  | zero => rw [List.eq_nil_of_length_eq_zero (Nat.le_zero.mp hsn), List.eq_nil_of_length_eq_zero (Nat.le_zero.mp htn)]
  | succ n ih =>
      have hne : ∀ {c : UInt8} {u : List UInt8}, 0 ∉ c :: u → c.toNat ≠ 0 := fun {c u} hu hc =>
        hu ((UInt8.toNat_inj.mp hc : c = 0) ▸ List.mem_cons_self)
      cases s with
      | nil =>
          cases t with
          | nil => rfl
          | cons d t => exact absurd (List.cons.inj h).1.symm (hne ht)
      | cons c s =>
          cases t with
          | nil => exact absurd (List.cons.inj h).1 (hne hs)
          | cons d t =>
              obtain ⟨hcd, hrest⟩ := List.cons.inj h
              rw [UInt8.toNat_inj.mp hcd, ih (fun h0 => hs (List.mem_cons_of_mem c h0))
                (fun h0 => ht (List.mem_cons_of_mem d h0)) (Nat.le_of_succ_le_succ hsn) (Nat.le_of_succ_le_succ htn)
                hrest]

theorem bytes_str (s : CStr) : s.str.bytes = s.bytes := by
  rw [Str.bytes, CStr.str]
  exact List.take_left

/-- Strings without a NUL are settled. -/
theorem settled_str (mem : UInt32 → MsdMem) (indices : Bool) (arr : List CStr) :
    Settled mem indices (arr.map CStr.str) := by
  intro p _ _ _
  refine List.Pairwise.imp_of_mem (fun {s t} hs ht _ hs4 ht4 => ?_) (List.pairwise_of_forall fun _ _ => trivial)
  obtain ⟨hs, hsp⟩ := List.mem_filter.mp hs
  obtain ⟨ht, htp⟩ := List.mem_filter.mp ht
  obtain ⟨u, -, rfl⟩ := List.mem_map.mp hs
  obtain ⟨v, -, rfl⟩ := List.mem_map.mp ht
  have hkey := key_eq_iff.mp ((of_decide_eq_true hsp).trans (of_decide_eq_true htp).symm)
  rw [bytes_str, bytes_str] at hkey
  exact (congrArg List.length (eq_of_padded_eq u.nonul v.nonul hs4 ht4 hkey)).le

/-! ## The index sorts -/

/-- The indices are the sorted ones, or the identity when memory is short. -/
def IndicesMeet (mem : StringsMem) (arr : List Str) (indices : List UInt32) : Prop :=
  SortsIndices arr indices ∨ (mem.work && mem.scratch) = false ∧ indices = identityIndices arr.length

section
variable {ρ : Type} {flt : Floats} {resistance : Int → Int → ρ} {gt : ρ → ρ → Bool} {mem : StringsMem}
  {arr : List Str}

/-- Without its scratch, `sub_strings_internal` leaves the indices alone. -/
theorem subStringsInternal_fallback (h2 : 2 ≤ arr.length) (hn : arr.length < 2 ^ 32) (hmem : mem.scratch = false)
    (indices : Option (List UInt32)) : subStringsInternal flt resistance gt mem arr indices
      = (strcmpFallback arr).map fun out => (out, indices) := by
  have hscratch : (!mem.packed || !mem.strScratch || !mem.lensScratch) = true := by
    rw [← Bool.not_and, ← Bool.not_and]
    exact congrArg not hmem
  rw [subStringsInternal, if_neg (by omega), if_neg (by omega), hscratch, if_pos rfl]
  cases strcmpFallback arr <;> rfl

/-- What an index sort leaves without the scratch. -/
theorem indices_untouched {prev indices : List UInt32} (h2 : 2 ≤ arr.length) (hn : arr.length < 2 ^ 32)
    (hwork : mem.work = true) (hmem : mem.scratch = false)
    (hrun : sublimationStringsIndicesLen flt resistance gt mem arr prev = some indices) : indices = prev := by
  have hgranted : (!mem.arrWork || !mem.lensWork) = false := by
    rw [← Bool.not_and]
    exact congrArg not hwork
  rw [sublimationStringsIndicesLen, if_neg (by omega), if_neg (by omega), hgranted, if_neg Bool.false_ne_true,
    subStringsInternal_fallback h2 hn hmem] at hrun
  cases hout : strcmpFallback arr with
  | none =>
      rw [hout] at hrun
      cases hrun
  | some out =>
      rw [hout] at hrun
      exact (Option.some.inj hrun).symm

theorem not_perm_zeros {n : Nat} (h2 : 2 ≤ n) (hn : n ≤ 2 ^ 32) :
    ¬ (List.replicate n (0 : UInt32)).Perm (identityIndices n) := by
  intro hperm
  have hnodup : (identityIndices n).Nodup :=
    (identityIndices_pairwise hn).imp fun hlt heq => hlt.ne (congrArg UInt32.toNat heq)
  have hone := List.nodup_replicate.mp (hperm.nodup_iff.mpr hnodup)
  omega

/-- The index sort, whatever memory there is and whatever the indices were. -/
theorem indicesMeet_iff (hn : arr.length < 2 ^ 32) :
    (∀ prev : List UInt32, prev.length = arr.length →
      ∃ indices, sublimationStringsIndicesLen flt resistance gt mem arr prev = some indices ∧
        IndicesMeet mem arr indices)
    ↔ arr.length < 2 ∨ mem.work = false ∨ mem.scratch = true ∧ Settled mem.msd true arr := by
  have hzeros : (List.replicate arr.length (0 : UInt32)).length = arr.length := List.length_replicate
  by_cases h2 : arr.length < 2
  · refine iff_of_true (fun prev hprev => ?_) (.inl h2)
    obtain ⟨hrun, hsorts⟩ := @sublimationStringsIndicesLen_short ρ flt resistance gt mem arr prev h2 hprev
    exact ⟨_, hrun, .inl hsorts⟩
  cases hwork : mem.work with
  | false =>
      refine iff_of_true (fun prev hprev => ?_) (.inr (.inl rfl))
      have hshort : (!mem.arrWork || !mem.lensWork) = true := by
        rw [← Bool.not_and]
        exact congrArg not hwork
      refine ⟨identityIndices arr.length, ?_, .inr ⟨by rw [hwork]; rfl, rfl⟩⟩
      rw [sublimationStringsIndicesLen, if_neg (by omega), if_neg (by omega), hshort, if_pos rfl]
      exact storeN_all (by rw [length_identityIndices, hprev])
  | true =>
      cases hmem : mem.scratch with
      | false =>
          refine iff_of_false (fun h => ?_) (by rintro (hlt | hfalse | ⟨hfalse, -⟩) <;> simp_all)
          obtain ⟨indices, hrun, hmeet⟩ := h _ hzeros
          have hsame := indices_untouched (Nat.not_lt.mp h2) hn hwork hmem hrun
          refine not_perm_zeros (Nat.not_lt.mp h2) hn.le ?_
          rcases hmeet with hsorts | ⟨-, heq⟩
          · exact hsame ▸ hsorts.1
          · rw [← hsame, heq]
      | true =>
          have hmeets : ∀ indices, IndicesMeet mem arr indices ↔ SortsIndices arr indices := fun indices => by
            rw [IndicesMeet, hwork, hmem]
            exact or_iff_left fun h => absurd h.1 (by decide)
          have hiff : (arr.length < 2 ∨ true = false ∨ true = true ∧ Settled mem.msd true arr)
              ↔ Settled mem.msd true arr := by
            simp [h2]
          rw [hiff]
          constructor
          · intro h
            obtain ⟨indices, hrun, hmeet⟩ := h _ hzeros
            obtain ⟨indices', hrun', -, hsettled⟩ :=
              @sublimationStringsIndicesLen_spec ρ flt resistance gt mem arr _ hn hwork hmem hzeros
            rw [hrun, Option.some_inj] at hrun'
            exact hsettled.mp (hrun' ▸ (hmeets _).mp hmeet)
          · intro hsettled prev hprev
            obtain ⟨indices, hrun, -, hsorts⟩ :=
              @sublimationStringsIndicesLen_spec ρ flt resistance gt mem arr prev hn hwork hmem hprev
            exact ⟨indices, hrun, (hmeets _).mpr (hsorts.mpr hsettled)⟩

end

/-! ## The array -/

section
variable {ρ : Type} {flt : Floats} {resistance : Int → Int → ρ} {gt : ρ → ρ → Bool} {mem : StringsMem}
  {arr : List Str}

theorem sublimationStringsLen_fallback (h2 : 2 ≤ arr.length) (hn : arr.length < 2 ^ 32)
    (hmem : (mem.lensWork && mem.scratch) = false) :
    sublimationStringsLen flt resistance gt mem arr = strcmpFallback arr := by
  rw [sublimationStringsLen, if_neg (by omega)]
  cases hlens : mem.lensWork with
  | false => exact if_pos rfl
  | true =>
      rw [hlens, Bool.true_and] at hmem
      rw [if_neg (by decide), subStringsInternal_fallback h2 hn hmem]
      cases strcmpFallback arr <;> rfl

theorem strcmpIntrosort_pair {α : Type} (str : α → CStr) {x y : α} (h : strKey str x ≤ strKey str y) :
    strcmpIntrosort str [x, y] = some [x, y] := by
  have hasc : Ascending (strKey str) [x, y] :=
    List.pairwise_cons.mpr ⟨fun z hz => List.mem_singleton.mp hz ▸ h, List.pairwise_singleton _ _⟩
  obtain ⟨out, hrun, hout⟩ := insertionSort_stable (strKey str) [x, y]
  rw [hout.unique (.refl hasc)] at hrun
  have hinsert : insertionSort (fun u key => decide (0 < strcmp (str u) (str key))) [x, y] = some [x, y] := by
    rw [← hrun]
    congr 1
    funext u key
    exact decide_eq_decide.mpr strcmp_pos_iff
  exact @onWindow_append α [] [x, y] [] [x, y] 0 2 _ rfl rfl hinsert rfl

theorem strcmpFallback_sorts (hnul : ∀ s ∈ arr, 0 ∈ s.mem)
    (hrefine : ∀ s ∈ arr, ∀ t ∈ arr, s.cstr.order ≤ t.cstr.order → order s ≤ order t) :
    ∃ out, strcmpFallback arr = some out ∧ SortsStrings arr out := by
  obtain ⟨out, hrun, hperm, hpair⟩ := strcmpIntrosort_sorts Str.cstr arr
  refine ⟨out, (if_pos hnul).trans hrun, hperm, hpair.imp_of_mem fun hs ht hle => ?_⟩
  exact hrefine _ (hperm.mem_iff.mp hs) _ (hperm.mem_iff.mp ht) (strcmp_nonpos_iff.mp hle)

/-- Without memory, the arrays of strings of a set are sorted exactly if the
strings of the set end in a NUL and `strcmp` does not order them in another
way. -/
theorem strcmpFallback_iff (hmem : (mem.lensWork && mem.scratch) = false) (S : Set Str) :
    (∀ arr : List Str, (∀ s ∈ arr, s ∈ S) → arr.length < 2 ^ 32 →
      ∃ out, sublimationStringsLen flt resistance gt mem arr = some out ∧ SortsStrings arr out)
    ↔ (∀ s ∈ S, 0 ∈ s.mem) ∧ ∀ s ∈ S, ∀ t ∈ S, s.cstr.order ≤ t.cstr.order → order s ≤ order t := by
  constructor
  · intro h
    have hpair : ∀ s ∈ S, ∀ t ∈ S, ∃ out, strcmpFallback [s, t] = some out ∧ SortsStrings [s, t] out := by
      intro s hs t ht
      have htwo : [s, t].length < 2 ^ 32 := (by decide : 2 < 2 ^ 32)
      have hmeets := h [s, t] (List.forall_mem_cons.mpr ⟨hs, List.forall_mem_singleton.mpr ht⟩) htwo
      rwa [@sublimationStringsLen_fallback ρ flt resistance gt mem [s, t] (Nat.le_refl 2) htwo hmem] at hmeets
    have hnul : ∀ s ∈ S, 0 ∈ s.mem := by
      intro s hs
      obtain ⟨out, hrun, -⟩ := hpair s hs s hs
      rw [strcmpFallback] at hrun
      split at hrun
      · rename_i hall
        exact hall s List.mem_cons_self
      · cases hrun
    refine ⟨hnul, fun s hs t ht hle => ?_⟩
    obtain ⟨out, hrun, -, hsorted⟩ := hpair s hs t ht
    have hboth : ∀ u ∈ [s, t], 0 ∈ u.mem :=
      List.forall_mem_cons.mpr ⟨hnul s hs, List.forall_mem_singleton.mpr (hnul t ht)⟩
    rw [strcmpFallback, if_pos hboth, strcmpIntrosort_pair Str.cstr hle, Option.some_inj] at hrun
    rw [← hrun] at hsorted
    exact (List.pairwise_cons.mp hsorted).1 t (List.mem_singleton.mpr rfl)
  · rintro ⟨hnul, hrefine⟩ arr hS hn
    by_cases h2 : arr.length < 2
    · exact ⟨arr, if_pos h2, List.Perm.refl arr, pairwise_of_short h2⟩
    · rw [sublimationStringsLen_fallback (Nat.not_lt.mp h2) hn hmem]
      exact strcmpFallback_sorts (fun s hs => hnul s (hS s hs)) fun s hs t ht => hrefine s (hS s hs) t (hS t ht)

/-- **The string sorts under every outcome of the allocations.** The indices of
C strings are filled in, whatever they were, exactly if the working arrays
cannot be allocated or the scratch can; with lengths, the strings have to be
settled besides. `sublimation_strings_len` keeps its contract with its memory
exactly on settled strings; without it, on the arrays of those strings that end
in a NUL and that `strcmp` does not order in another way. -/
theorem stringsMemory_iff (mem : StringsMem) :
    (∀ arr : List CStr, arr.length < 2 ^ 32 →
      ((∀ prev : List UInt32, prev.length = arr.length → ∃ indices,
          sublimationStringsIndices flt resistance gt mem arr prev = some indices ∧
            IndicesMeet mem (arr.map CStr.str) indices)
        ↔ arr.length < 2 ∨ mem.work = false ∨ mem.scratch = true)) ∧
    (∀ arr : List Str, arr.length < 2 ^ 32 →
      ((∀ prev : List UInt32, prev.length = arr.length → ∃ indices,
          sublimationStringsIndicesLen flt resistance gt mem arr prev = some indices ∧ IndicesMeet mem arr indices)
        ↔ arr.length < 2 ∨ mem.work = false ∨ mem.scratch = true ∧ Settled mem.msd true arr)) ∧
    ((mem.lensWork && mem.scratch) = true → ∀ arr : List Str, arr.length < 2 ^ 32 →
      ((∃ out, sublimationStringsLen flt resistance gt mem arr = some out ∧ SortsStrings arr out)
        ↔ Settled mem.msd false arr)) ∧
    ((mem.lensWork && mem.scratch) = false → ∀ S : Set Str,
      ((∀ arr : List Str, (∀ s ∈ arr, s ∈ S) → arr.length < 2 ^ 32 →
          ∃ out, sublimationStringsLen flt resistance gt mem arr = some out ∧ SortsStrings arr out)
        ↔ (∀ s ∈ S, 0 ∈ s.mem) ∧ ∀ s ∈ S, ∀ t ∈ S, s.cstr.order ≤ t.cstr.order → order s ≤ order t)) := by
  refine ⟨fun arr hn => ?_, fun arr hn => indicesMeet_iff hn, fun hmem arr hn => ?_, fun hmem S =>
    strcmpFallback_iff hmem S⟩
  · have hlen : (arr.map CStr.str).length = arr.length := List.length_map _
    have hiff := @indicesMeet_iff ρ flt resistance gt mem (arr.map CStr.str) (hlen ▸ hn)
    rw [hlen, and_iff_left (settled_str mem.msd true arr)] at hiff
    exact hiff
  · obtain ⟨hlens, hscratch⟩ := Bool.and_eq_true_iff.mp hmem
    obtain ⟨out, hrun, -, hsorts⟩ := @sublimationStringsLen_spec ρ flt resistance gt mem arr hn hlens hscratch
    rw [hrun, ← hsorts]
    exact ⟨fun ⟨out', heq, h⟩ => Option.some.inj heq ▸ h, fun h => ⟨out, rfl, h⟩⟩

end

def shortStrings : StringsMem := { ampleStrings with packed := false }

/-- `"b"` and `"a"`, with the scratch and without it. -/
theorem stringsMemory_iff_two :
    ((∀ prev : List UInt32, prev.length = 2 → ∃ indices,
        sublimationStringsIndices noFloats (fun _ _ => ()) (fun _ _ => false) shortStrings
          [⟨[98], by decide⟩, ⟨[97], by decide⟩] prev = some indices ∧
        IndicesMeet shortStrings ([⟨[98], by decide⟩, ⟨[97], by decide⟩].map CStr.str) indices)
      ↔ 2 < 2 ∨ shortStrings.work = false ∨ shortStrings.scratch = true) ∧
    ((∀ prev : List UInt32, prev.length = 2 → ∃ indices,
        sublimationStringsIndicesLen noFloats (fun _ _ => ()) (fun _ _ => false) shortStrings
          [⟨[98], 1, by decide⟩, ⟨[97], 1, by decide⟩] prev = some indices ∧
        IndicesMeet shortStrings [⟨[98], 1, by decide⟩, ⟨[97], 1, by decide⟩] indices)
      ↔ 2 < 2 ∨ shortStrings.work = false ∨
        shortStrings.scratch = true ∧ Settled shortStrings.msd true [⟨[98], 1, by decide⟩, ⟨[97], 1, by decide⟩]) ∧
    ((∃ out, sublimationStringsLen noFloats (fun _ _ => ()) (fun _ _ => false) ampleStrings
          [⟨[98], 1, by decide⟩, ⟨[97], 1, by decide⟩] = some out ∧
        SortsStrings [⟨[98], 1, by decide⟩, ⟨[97], 1, by decide⟩] out)
      ↔ Settled ampleStrings.msd false [⟨[98], 1, by decide⟩, ⟨[97], 1, by decide⟩]) ∧
    ((∀ arr : List Str, (∀ s ∈ arr, s ∈ ({⟨[98], 1, by decide⟩} : Set Str)) → arr.length < 2 ^ 32 →
        ∃ out, sublimationStringsLen noFloats (fun _ _ => ()) (fun _ _ => false) shortStrings arr = some out ∧
          SortsStrings arr out)
      ↔ (∀ s ∈ ({⟨[98], 1, by decide⟩} : Set Str), 0 ∈ s.mem) ∧
        ∀ s ∈ ({⟨[98], 1, by decide⟩} : Set Str), ∀ t ∈ ({⟨[98], 1, by decide⟩} : Set Str),
          s.cstr.order ≤ t.cstr.order → order s ≤ order t) := by
  obtain ⟨hstrlen, hlen, -, hset⟩ := @stringsMemory_iff Unit noFloats (fun _ _ => ()) (fun _ _ => false) shortStrings
  obtain ⟨-, -, harr, -⟩ := @stringsMemory_iff Unit noFloats (fun _ _ => ()) (fun _ _ => false) ampleStrings
  exact ⟨hstrlen [⟨[98], by decide⟩, ⟨[97], by decide⟩] (by decide : 2 < 2 ^ 32),
    hlen [⟨[98], 1, by decide⟩, ⟨[97], 1, by decide⟩] (by decide : 2 < 2 ^ 32),
    harr rfl [⟨[98], 1, by decide⟩, ⟨[97], 1, by decide⟩] (by decide : 2 < 2 ^ 32), hset rfl {⟨[98], 1, by decide⟩}⟩

/-! ## C strings -/

theorem order_cstr_str (s : CStr) : s.str.cstr.order = order s.str := by
  have hbytes : s.str.cstr.bytes = s.bytes := by
    show (s.bytes ++ [0]).takeWhile (fun c => c ≠ 0) = s.bytes
    have hall : ∀ c ∈ s.bytes, decide (c ≠ 0) = true := fun c hc => decide_eq_true fun h0 => s.nonul (h0 ▸ hc)
    rw [List.takeWhile_append_of_pos hall]
    exact List.append_nil _
  rw [CStr.order, hbytes, order, bytes_str]
  rfl

section
variable {ρ : Type} {flt : Floats} {resistance : Int → Int → ρ} {gt : ρ → ρ → Bool}

/-- **`sublimation_strings`** sorts its strings, whatever allocations fail. -/
theorem sublimationStrings_sorts (mem : StringsMem) (arr : List CStr) (hn : arr.length < 2 ^ 32) :
    ∃ out, sublimationStrings flt resistance gt mem arr = some out ∧ SortsStrings (arr.map CStr.str) out := by
  have hn' : (arr.map CStr.str).length < 2 ^ 32 := by rwa [List.length_map]
  cases hmem : mem.lensWork && mem.scratch with
  | true =>
      obtain ⟨hlens, hscratch⟩ := Bool.and_eq_true_iff.mp hmem
      obtain ⟨out, hrun, -, hsorts⟩ := @sublimationStringsLen_spec ρ flt resistance gt mem _ hn' hlens hscratch
      exact ⟨out, hrun, hsorts.mpr (settled_str mem.msd false arr)⟩
  | false =>
      refine (strcmpFallback_iff hmem {s | ∃ c : CStr, c.str = s}).mpr ⟨?_, ?_⟩ _ (fun s hs => ?_) hn'
      · rintro s ⟨c, rfl⟩
        exact List.mem_append_right _ (List.mem_singleton.mpr rfl)
      · rintro s ⟨c, rfl⟩ t ⟨d, rfl⟩ hle
        rwa [order_cstr_str, order_cstr_str] at hle
      · obtain ⟨c, -, rfl⟩ := List.mem_map.mp hs
        exact ⟨c, rfl⟩

end

/-- `"b"` and `"a"`, with no memory for the scratch. -/
theorem sublimationStrings_sorts_two : ∃ out,
    sublimationStrings noFloats (fun _ _ => ()) (fun _ _ => false) shortStrings
        [⟨[98], by decide⟩, ⟨[97], by decide⟩] = some out ∧
      SortsStrings ([⟨[98], by decide⟩, ⟨[97], by decide⟩].map CStr.str) out :=
  sublimationStrings_sorts shortStrings [⟨[98], by decide⟩, ⟨[97], by decide⟩]
    (by decide : 2 < 2 ^ 32)

end Montauk.Strings
