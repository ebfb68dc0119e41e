import Montauk.Tools.Analysis

/-!
# What the double-free report finds

The chunks of all processes stand in one map, under a mixture of the process
and the address. Where no two chunks share a key, the map holds for each chunk
what the last event that touched it made of it (`lastFreed_rows`), and the hits
are the double frees, as many as are kept (`hits_doubleFrees`).

The published total is the number of the kept hits: it is the number of double
frees if and only if they are 64 at most (`doubleFreeTotal_iff`). Processes are
kept apart if and only if their chunks have keys of their own and no hit is
lost to another process (`doubleFree_separate_iff`).
-/

namespace Montauk.Tools

open Timeline Trace
open App (spelling)

/-! ## Heap events -/

def TraceRecord.heapEvent? : TraceRecord → Option HeapEvent
  | .heap e => some e
  | _ => none

def heapEvents (trace : List TraceRecord) : List HeapEvent := trace.filterMap TraceRecord.heapEvent?

abbrev HeapSpot := UInt32 × UInt64

def spotKey (x : HeapSpot) : UInt64 := heapKey x.1 x.2

/-- Where the event frees, or takes a chunk from. -/
def HeapEvent.spot (e : HeapEvent) : HeapSpot := (e.pid, e.addr)

/-- The address that the event brings to life. -/
def HeapEvent.comesAlive (e : HeapEvent) : UInt64 :=
  match e.op with
  | .malloc | .calloc => e.addr
  | .realloc => e.newAddr
  | .free | .unknown => 0

def HeapEvent.addrs (e : HeapEvent) : List UInt64 :=
  match e.op with
  | .malloc | .calloc | .free => [e.addr]
  | .realloc => [e.addr, e.newAddr]
  | .unknown => []

/-- The event touches the chunk; nothing touches the null address. -/
def HeapEvent.touches (e : HeapEvent) (x : HeapSpot) : Bool := e.pid = x.1 && x.2 ≠ 0 && e.addrs.contains x.2

theorem HeapEvent.touches_iff {e : HeapEvent} {x : HeapSpot} :
    e.touches x = true ↔ ∃ a ∈ e.addrs, x = (e.pid, a) ∧ a ≠ 0 := by
  rw [touches, Bool.and_eq_true, Bool.and_eq_true, decide_eq_true_eq, decide_eq_true_eq, List.contains_iff_mem]
  constructor
  · rintro ⟨⟨hpid, hnull⟩, hmem⟩
    exact ⟨x.2, hmem, Prod.ext hpid.symm rfl, hnull⟩
  · rintro ⟨a, hmem, rfl, hnull⟩
    exact ⟨⟨rfl, hnull⟩, hmem⟩

/-- The last of some events that touched a chunk. -/
def lastTouch (x : HeapSpot) (es : List HeapEvent) : Option HeapEvent :=
  (es.filter fun e => e.touches x).getLast?

/-- The free that is the last to have touched a chunk. -/
def lastFree (x : HeapSpot) (es : List HeapEvent) : Option HeapEvent :=
  (lastTouch x es).filter fun e => e.op = .free

/-- The free before this one, if the chunk was not touched in between. -/
def priorFree (es : List HeapEvent) (e : HeapEvent) : Option HeapEvent :=
  if e.op = .free ∧ e.addr ≠ 0 then lastFree e.spot es else none

/-- The double frees of some events, each with the free before it. -/
def doubleFrees (es : List HeapEvent) : List (HeapEvent × HeapEvent) :=
  (List.range es.length).filterMap fun i =>
    es[i]?.bind fun e => (priorFree (es.take i) e).map fun f => (f, e)

theorem lastTouch_concat (x : HeapSpot) (es : List HeapEvent) (e : HeapEvent) :
    lastTouch x (es ++ [e]) = if e.touches x then some e else lastTouch x es := by
  rw [lastTouch, List.filter_append]
  by_cases h : e.touches x = true
  · rw [if_pos h, List.filter_cons_of_pos (by simpa using h)]
    exact List.getLast?_concat
  · rw [if_neg h, List.filter_cons_of_neg (by simpa using h)]
    exact congrArg List.getLast? (List.append_nil _)

theorem lastFree_concat (x : HeapSpot) (es : List HeapEvent) (e : HeapEvent) : lastFree x (es ++ [e]) =
    if e.touches x then (if e.op = .free then some e else none) else lastFree x es := by
  rw [lastFree, lastTouch_concat]
  split
  · rw [Option.filter_some]
    exact if_congr decide_eq_true_iff rfl rfl
  · rfl

theorem doubleFrees_concat (es : List HeapEvent) (e : HeapEvent) :
    doubleFrees (es ++ [e]) = doubleFrees es ++ ((priorFree es e).map fun f => (f, e)).toList := by
  rw [doubleFrees, List.length_append, List.length_singleton, List.range_succ, List.filterMap_append]
  congr 1
  · refine List.filterMap_congr fun i hi => ?_
    have hi : i < es.length := List.mem_range.mp hi
    rw [List.getElem?_append_left hi, List.take_append_of_le_length (Nat.le_of_lt hi)]
  · rw [List.filterMap_cons, List.getElem?_concat_length, List.take_left', Option.bind_some]
    · cases priorFree es e <;> rfl
    · rfl

/-! ## One event -/

namespace DoubleFreeReport

/-- What a heap event makes of the state. -/
def see (s : DoubleFreeReport) (e : HeapEvent) : DoubleFreeReport := s.fold (.heap e)

theorem fold_heapEvents (trace : List TraceRecord) :
    trace.foldl fold {} = (heapEvents trace).foldl see {} := by
  rw [heapEvents, List.foldl_filterMap]
  congr 1
  funext s r
  cases r <;> rfl

/-- The hit of an event, if it frees a chunk that is free already. -/
def found? (s : DoubleFreeReport) (e : HeapEvent) : Option DoubleFreeHit :=
  if e.op = .free ∧ e.addr ≠ 0 ∧ rowOf (spotKey e.spot) s.live = none then
    (rowOf (spotKey e.spot) s.freed).map e.hit
  else none

theorem hits_alloc (s : DoubleFreeReport) (e : HeapEvent) (addr : UInt64) : (s.alloc e addr).hits = s.hits := by
  rw [alloc]
  split <;> rfl

theorem hits_drop (s : DoubleFreeReport) (e : HeapEvent) : (s.drop e).hits = s.hits := by
  rw [drop]
  split <;> rfl

theorem hits_see (s : DoubleFreeReport) (e : HeapEvent) :
    (s.see e).hits = if s.hits.length < maxHits then s.hits ++ (s.found? e).toList else s.hits := by
  have hnone : s.found? e = none → (s.see e).hits = s.hits →
      (s.see e).hits = if s.hits.length < maxHits then s.hits ++ (s.found? e).toList else s.hits := by
    intro hfound hhits
    rw [hfound, hhits]
    split
    · exact (List.append_nil _).symm
    · rfl
  cases hop : e.op with
  | malloc | calloc =>
    refine hnone (by rw [found?, if_neg (by simp [hop])]) ?_
    rw [see, fold, hop]
    exact hits_alloc s e _
  | realloc =>
    refine hnone (by rw [found?, if_neg (by simp [hop])]) ?_
    rw [see, fold, hop]
    exact (hits_alloc _ e _).trans (hits_drop s e)
  | unknown =>
    refine hnone (by rw [found?, if_neg (by simp [hop])]) ?_
    rw [see, fold, hop]
  | free =>
    rw [see, fold, hop] at hnone ⊢
    dsimp only [release] at hnone ⊢
    by_cases hnull : e.addr = 0
    · rw [if_pos hnull] at hnone ⊢
      exact hnone (by rw [found?, if_neg (by simp [hnull])]) rfl
    · rw [if_neg hnull] at hnone ⊢
      cases hlive : rowOf (heapKey e.pid e.addr) s.live with
      | some chunk =>
        rw [hlive] at hnone
        refine hnone ?_ rfl
        rw [found?, if_neg fun h => ?_]
        rw [spotKey, HeapEvent.spot, hlive] at h
        cases h.2.2
      | none =>
        rw [hlive] at hnone
        dsimp only at hnone ⊢
        have hfound : s.found? e = (rowOf (heapKey e.pid e.addr) s.freed).map e.hit :=
          if_pos ⟨hop, hnull, hlive⟩
        cases hfreed : rowOf (heapKey e.pid e.addr) s.freed with
        | some prior =>
          rw [hfound, hfreed]
          rfl
        | none =>
          rw [hfreed] at hnone hfound
          exact hnone hfound rfl

/-! ### The rows -/

section

variable {s : DoubleFreeReport} {e : HeapEvent} {x : HeapSpot}

def KeyIff (x y : HeapSpot) : Prop := spotKey x = spotKey y ↔ x = y

theorem freed_alloc (addr : UInt64) (hkey : addr ≠ 0 → KeyIff x (e.pid, addr)) : rowOf (spotKey x) (s.alloc e addr).freed =
    if x = (e.pid, addr) ∧ addr ≠ 0 then none else rowOf (spotKey x) s.freed := by
  rw [alloc]
  by_cases hnull : addr = 0
  · rw [if_pos hnull, if_neg fun h => h.2 hnull]
  · rw [if_neg hnull]
    exact (rowOf_erase ..).trans (if_congr ((hkey hnull).trans (and_iff_left hnull).symm) rfl rfl)

theorem live_alloc (addr : UInt64) (hkey : addr ≠ 0 → KeyIff x (e.pid, addr)) : rowOf (spotKey x) (s.alloc e addr).live =
    if x = (e.pid, addr) ∧ addr ≠ 0 then some (e.chunk e.size) else rowOf (spotKey x) s.live := by
  rw [alloc]
  by_cases hnull : addr = 0
  · rw [if_pos hnull, if_neg fun h => h.2 hnull]
  · rw [if_neg hnull]
    exact (rowOf_assign ..).trans (if_congr ((hkey hnull).trans (and_iff_left hnull).symm) rfl rfl)

theorem freed_drop (hkey : e.addr ≠ 0 → KeyIff x e.spot) : rowOf (spotKey x) (s.drop e).freed =
    if x = e.spot ∧ e.addr ≠ 0 then none else rowOf (spotKey x) s.freed := by
  rw [drop]
  by_cases hnull : e.addr = 0
  · rw [if_pos hnull, if_neg fun h => h.2 hnull]
  · rw [if_neg hnull]
    exact (rowOf_erase ..).trans (if_congr ((hkey hnull).trans (and_iff_left hnull).symm) rfl rfl)

theorem live_drop (hkey : e.addr ≠ 0 → KeyIff x e.spot) : rowOf (spotKey x) (s.drop e).live =
    if x = e.spot ∧ e.addr ≠ 0 then none else rowOf (spotKey x) s.live := by
  rw [drop]
  by_cases hnull : e.addr = 0
  · rw [if_pos hnull, if_neg fun h => h.2 hnull]
  · rw [if_neg hnull]
    exact (rowOf_erase ..).trans (if_congr ((hkey hnull).trans (and_iff_left hnull).symm) rfl rfl)

/-- The size under which a chunk is kept as freed. -/
def freedSize (s : DoubleFreeReport) (x : HeapSpot) : UInt64 :=
  (((rowOf (spotKey x) s.live).or (rowOf (spotKey x) s.freed)).map LiveChunk.size).getD 0

theorem freed_release (hkey : e.addr ≠ 0 → KeyIff x e.spot) : rowOf (spotKey x) (s.release e).freed =
    if x = e.spot ∧ e.addr ≠ 0 then some (e.chunk (s.freedSize e.spot)) else rowOf (spotKey x) s.freed := by
  rw [release]
  by_cases hnull : e.addr = 0
  · rw [if_pos hnull, if_neg fun h => h.2 hnull]
  · have hcond := (hkey hnull).trans (and_iff_left hnull).symm
    have hsize : s.freedSize e.spot =
        (((rowOf (heapKey e.pid e.addr) s.live).or (rowOf (heapKey e.pid e.addr) s.freed)).map LiveChunk.size).getD 0 :=
      rfl
    rw [if_neg hnull, hsize]
    cases rowOf (heapKey e.pid e.addr) s.live with
    | some chunk => exact (rowOf_assign ..).trans (if_congr hcond rfl rfl)
    | none =>
      cases rowOf (heapKey e.pid e.addr) s.freed with
      | some prior => exact (rowOf_assign ..).trans (if_congr hcond rfl rfl)
      | none => exact (rowOf_assign ..).trans (if_congr hcond rfl rfl)

theorem live_release (hkey : e.addr ≠ 0 → KeyIff x e.spot) : rowOf (spotKey x) (s.release e).live =
    if x = e.spot ∧ e.addr ≠ 0 then none else rowOf (spotKey x) s.live := by
  rw [release]
  by_cases hnull : e.addr = 0
  · rw [if_pos hnull, if_neg fun h => h.2 hnull]
  · have hcond := (hkey hnull).trans (and_iff_left hnull).symm
    rw [if_neg hnull]
    cases hlive : rowOf (heapKey e.pid e.addr) s.live with
    | some chunk => exact (rowOf_erase ..).trans (if_congr hcond rfl rfl)
    | none =>
      have hstay : rowOf (spotKey x) s.live =
          if x = e.spot ∧ e.addr ≠ 0 then none else rowOf (spotKey x) s.live := by
        split
        · rename_i h
          rw [h.1]
          exact hlive
        · rfl
      cases rowOf (heapKey e.pid e.addr) s.freed <;> exact hstay

/-- The key of the chunk is no other's in the event. -/
def KeyOwn (x : HeapSpot) (e : HeapEvent) : Prop := ∀ a ∈ e.addrs, a ≠ 0 → KeyIff x (e.pid, a)

theorem freed_see (hkey : KeyOwn x e) : rowOf (spotKey x) (s.see e).freed =
    if e.touches x then (if e.op = .free then some (e.chunk (s.freedSize x)) else none)
    else rowOf (spotKey x) s.freed := by
  rw [KeyOwn] at hkey
  have htouch := HeapEvent.touches_iff (e := e) (x := x)
  rw [HeapEvent.addrs] at htouch hkey
  rw [see, fold]
  cases hop : e.op with
  | malloc | calloc =>
    simp only [hop, List.mem_singleton, forall_eq, exists_eq_left] at htouch hkey
    refine (freed_alloc e.addr hkey).trans ?_
    exact if_congr htouch.symm rfl rfl
  | realloc =>
    simp only [hop, List.mem_cons, List.not_mem_nil, or_false, forall_eq_or_imp, forall_eq,
      exists_eq_or_imp, exists_eq_left] at htouch hkey
    refine (freed_alloc e.newAddr hkey.2).trans ?_
    rw [freed_drop (s := s) hkey.1]
    by_cases hold : x = e.spot ∧ e.addr ≠ 0
    · rw [if_pos hold, ite_self, if_pos (htouch.mpr (.inl hold))]
      rfl
    · rw [if_neg hold]
      exact if_congr (htouch.trans (or_iff_right hold)).symm rfl rfl
  | free =>
    simp only [hop, List.mem_singleton, forall_eq, exists_eq_left] at htouch hkey
    refine (freed_release hkey).trans ?_
    by_cases hspot : x = e.spot ∧ e.addr ≠ 0
    · rw [if_pos hspot, if_pos (htouch.mpr hspot), if_pos rfl, hspot.1]
    · rw [if_neg hspot, if_neg fun h => hspot (htouch.mp h)]
  | unknown =>
    simp only [hop, List.not_mem_nil, false_and, exists_false, iff_false] at htouch
    rw [if_neg htouch]

theorem live_see (hkey : KeyOwn x e) : rowOf (spotKey x) (s.see e).live =
    if e.touches x then (if e.comesAlive = x.2 then some (e.chunk e.size) else none)
    else rowOf (spotKey x) s.live := by
  rw [KeyOwn] at hkey
  have htouch := HeapEvent.touches_iff (e := e) (x := x)
  rw [HeapEvent.addrs] at htouch hkey
  rw [see, fold, HeapEvent.comesAlive]
  cases hop : e.op with
  | malloc | calloc =>
    simp only [hop, List.mem_singleton, forall_eq, exists_eq_left] at htouch hkey
    refine (live_alloc e.addr hkey).trans ?_
    by_cases hspot : x = (e.pid, e.addr) ∧ e.addr ≠ 0
    · rw [if_pos hspot, if_pos (htouch.mpr hspot), if_pos (congrArg Prod.snd hspot.1).symm]
    · rw [if_neg hspot, if_neg fun h => hspot (htouch.mp h)]
  | realloc =>
    simp only [hop, List.mem_cons, List.not_mem_nil, or_false, forall_eq_or_imp, forall_eq,
      exists_eq_or_imp, exists_eq_left] at htouch hkey
    refine (live_alloc e.newAddr hkey.2).trans ?_
    rw [live_drop (s := s) hkey.1]
    by_cases hnew : x = (e.pid, e.newAddr) ∧ e.newAddr ≠ 0
    · rw [if_pos hnew, if_pos (htouch.mpr (.inr hnew)), if_pos (congrArg Prod.snd hnew.1).symm]
    · rw [if_neg hnew]
      by_cases hold : x = e.spot ∧ e.addr ≠ 0
      · have hmoved : e.newAddr ≠ x.2 := by
          intro heq
          refine hnew ⟨?_, ?_⟩
          · rw [heq, hold.1]
            rfl
          · rw [heq, hold.1]
            exact hold.2
        rw [if_pos hold, if_pos (htouch.mpr (.inl hold)), if_neg hmoved]
      · rw [if_neg hold, if_neg fun h => (htouch.mp h).elim hold hnew]
  | free =>
    simp only [hop, List.mem_singleton, forall_eq, exists_eq_left] at htouch hkey
    refine (live_release hkey).trans ?_
    by_cases hspot : x = e.spot ∧ e.addr ≠ 0
    · have hnull : (0 : UInt64) ≠ x.2 := by
        rw [hspot.1]
        exact hspot.2.symm
      rw [if_pos hspot, if_pos (htouch.mpr hspot), if_neg hnull]
    · rw [if_neg hspot, if_neg fun h => hspot (htouch.mp h)]
  | unknown =>
    simp only [hop, List.not_mem_nil, false_and, exists_false, iff_false] at htouch
    rw [if_neg htouch]

end

end DoubleFreeReport

/-! ## A whole run -/

def SpotsApart (A : Set HeapSpot) : Prop := ∀ x ∈ A, ∀ y ∈ A, spotKey x = spotKey y → x = y

/-- The event touches no chunk but these. -/
def HeapEvent.Within (A : Set HeapSpot) (e : HeapEvent) : Prop := ∀ a ∈ e.addrs, a ≠ 0 → (e.pid, a) ∈ A

/-- The address and the two frees of a hit. -/
def DoubleFreeHit.frees (h : DoubleFreeHit) : UInt64 × (UInt32 × List UInt8) × (UInt32 × List UInt8) :=
  (h.addr, (h.firstTid, h.firstComm), (h.secondTid, h.secondComm))

/-- What a hit is to say of a double free. -/
def freesOf (d : HeapEvent × HeapEvent) : UInt64 × (UInt32 × List UInt8) × (UInt32 × List UInt8) :=
  (d.2.addr, (d.1.tid, d.1.comm), (d.2.tid, d.2.comm))

/-- The state says of each chunk who freed it last, and keeps the double
frees. -/
structure DoubleFreeReport.Represents (A : Set HeapSpot) (es : List HeapEvent) (s : DoubleFreeReport) : Prop where
  freed : ∀ x ∈ A, (rowOf (spotKey x) s.freed).map (fun c => (c.tid, c.comm)) =
    (lastFree x es).map fun f => (f.tid, f.comm)
  apart : ∀ x ∈ A, (rowOf (spotKey x) s.freed).isSome = true → rowOf (spotKey x) s.live = none
  hits : s.hits.map DoubleFreeHit.frees = ((doubleFrees es).take maxHits).map freesOf

section

variable {A : Set HeapSpot} {es : List HeapEvent} {s : DoubleFreeReport} {e : HeapEvent}

theorem SpotsApart.keyOwn (hA : SpotsApart A) (he : e.Within A) {x : HeapSpot} (hx : x ∈ A) :
    DoubleFreeReport.KeyOwn x e := fun a ha hnull =>
  ⟨hA x hx _ (he a ha hnull), congrArg spotKey⟩

theorem DoubleFreeReport.Represents.found (h : s.Represents A es) (he : e.Within A) :
    (s.found? e).map DoubleFreeHit.frees = (priorFree es e).map fun f => freesOf (f, e) := by
  rw [found?, priorFree]
  by_cases hfree : e.op = .free ∧ e.addr ≠ 0
  · have hmem : e.spot ∈ A := by
      refine he e.addr ?_ hfree.2
      rw [HeapEvent.addrs, hfree.1]
      exact List.mem_cons_self
    rw [if_pos hfree]
    have hfreed := congrArg (Option.map fun p => (e.addr, p, (e.tid, e.comm))) (h.freed e.spot hmem)
    rw [Option.map_map, Option.map_map] at hfreed
    by_cases hlive : rowOf (spotKey e.spot) s.live = none
    · rw [if_pos ⟨hfree.1, hfree.2, hlive⟩, Option.map_map]
      exact hfreed
    · have hnone : rowOf (spotKey e.spot) s.freed = none := by
        by_contra hsome
        exact hlive (h.apart e.spot hmem (Option.isSome_iff_ne_none.mpr hsome))
      have hlast : lastFree e.spot es = none := by
        have hrow := h.freed e.spot hmem
        rw [hnone] at hrow
        exact Option.map_eq_none_iff.mp hrow.symm
      rw [if_neg fun hall => hlive hall.2.2, hlast]
      rfl
  · rw [if_neg fun hall => hfree ⟨hall.1, hall.2.1⟩, if_neg hfree]
    rfl

theorem DoubleFreeReport.Represents.see (hA : SpotsApart A) (h : s.Represents A es) (he : e.Within A) :
    (s.see e).Represents A (es ++ [e]) := by
  refine ⟨fun x hx => ?_, fun x hx => ?_, ?_⟩
  · rw [freed_see (hA.keyOwn he hx), lastFree_concat]
    split
    · split <;> rfl
    · exact h.freed x hx
  · rw [freed_see (hA.keyOwn he hx), live_see (hA.keyOwn he hx)]
    by_cases ht : e.touches x = true
    · rw [if_pos ht, if_pos ht]
      by_cases hop : e.op = .free
      · intro _
        refine if_neg fun heq => ?_
        obtain ⟨a, -, rfl, hnull⟩ := HeapEvent.touches_iff.mp ht
        rw [HeapEvent.comesAlive, hop] at heq
        exact hnull heq.symm
      · rw [if_neg hop]
        intro hsome
        cases hsome
    · rw [if_neg ht, if_neg ht]
      exact h.apart x hx
  · have hlen : s.hits.length = min maxHits (doubleFrees es).length := by
      rw [← List.length_map, h.hits, List.length_map, List.length_take]
    have hfound : (s.found? e).toList.map DoubleFreeHit.frees =
        ((priorFree es e).map fun f => (f, e)).toList.map freesOf := by
      rw [← Option.toList_map, h.found he, ← Option.toList_map, Option.map_map]
      rfl
    rw [hits_see, doubleFrees_concat]
    by_cases hroom : s.hits.length < maxHits
    · have hfew : (doubleFrees es).length < maxHits := by omega
      have hone : ((priorFree es e).map fun f => (f, e)).toList.length ≤ 1 := Option.length_toList_le
      have hall : (doubleFrees es ++ ((priorFree es e).map fun f => (f, e)).toList).length ≤ maxHits := by
        rw [List.length_append]
        omega
      rw [if_pos hroom, List.map_append, h.hits, hfound, List.take_of_length_le hall, List.map_append,
        List.take_of_length_le (Nat.le_of_lt hfew)]
    · rw [if_neg hroom, h.hits, List.take_append_of_le_length]
      omega

/-- Where the keys are apart, the hits are the double frees, up to the cap. -/
theorem DoubleFreeReport.represents (hA : SpotsApart A) (hes : ∀ e ∈ es, e.Within A) :
    (es.foldl DoubleFreeReport.see {}).Represents A es := by
  induction es using List.reverseRecOn with
  | nil => exact ⟨fun _ _ => rfl, fun _ _ _ => rfl, rfl⟩
  | append_singleton es e ih =>
    rw [List.foldl_concat]
    refine (ih fun e he => hes e (List.mem_append_left _ he)).see hA ?_
    exact hes e (List.mem_append_right _ List.mem_cons_self)

theorem DoubleFreeReport.length_hits_foldl (hA : SpotsApart A) (hes : ∀ e ∈ es, e.Within A) :
    (es.foldl DoubleFreeReport.see {}).hits.length = min maxHits (doubleFrees es).length := by
  rw [← List.length_map, (represents hA hes).hits, List.length_map, List.length_take]

end

/-! ## One process -/

theorem heapKey_inj (pid : UInt32) {a b : UInt64} (h : heapKey pid a = heapKey pid b) : a = b := by
  rw [heapKey, heapKey] at h
  exact (UInt64.xor_right_inj _).mp h

theorem spotsApart_process (pid : UInt32) : SpotsApart {x | x.1 = pid} := by
  rintro ⟨p, a⟩ rfl ⟨q, b⟩ rfl h
  exact Prod.ext rfl (heapKey_inj _ h)

/-- Numbers up to the cap are told from all others. -/
def CountsTold {F : Type} (env : ReportEnv F) : Prop := ∀ m n, m ≤ maxHits → env.ofNat m = env.ofNat n → m = n

/-- What the report is to say of some events: the double frees, up to the cap,
and their number. -/
structure DoubleFreeReport.Exact {F : Type} (env : ReportEnv F) (es : List HeapEvent) (s : DoubleFreeReport) :
    Prop where
  hits : s.hits.map DoubleFreeHit.frees = ((doubleFrees es).take maxHits).map freesOf
  total : (s.compute env).value? "montauk_analysis_doublefree_total" = some (env.ofNat (doubleFrees es).length)

section

variable {F : Type} (env : ReportEnv F)

theorem doubleFreeTotal_eq (s : DoubleFreeReport) :
    (s.compute env).value? "montauk_analysis_doublefree_total" = some (env.ofNat s.hits.length) := by
  rw [DoubleFreeReport.compute]
  split
  · rw [ReportResult.value?]
    exact congrArg (Option.map PromMetric.value) (List.find?_cons_of_pos (decide_eq_true rfl))
  · rw [ReportResult.value?]
    exact congrArg (Option.map PromMetric.value) (List.find?_cons_of_pos (decide_eq_true rfl))

variable {env} {trace : List TraceRecord} {pid : UInt32}

theorem hits_doubleFrees (hone : ∀ e ∈ heapEvents trace, e.pid = pid) :
    (trace.foldl DoubleFreeReport.fold {}).hits.map DoubleFreeHit.frees =
      ((doubleFrees (heapEvents trace)).take maxHits).map freesOf := by
  rw [DoubleFreeReport.fold_heapEvents]
  exact (DoubleFreeReport.represents (spotsApart_process pid) fun e he _ _ _ => hone e he).hits

theorem length_hits (hone : ∀ e ∈ heapEvents trace, e.pid = pid) :
    (trace.foldl DoubleFreeReport.fold {}).hits.length = min maxHits (doubleFrees (heapEvents trace)).length := by
  rw [← List.length_map, hits_doubleFrees hone, List.length_map, List.length_take]

theorem doubleFrees_le_of_exact (hcount : CountsTold env) (hone : ∀ e ∈ heapEvents trace, e.pid = pid)
    (h : DoubleFreeReport.Exact env (heapEvents trace) (trace.foldl DoubleFreeReport.fold {})) :
    (doubleFrees (heapEvents trace)).length ≤ maxHits := by
  have htotal := h.total
  rw [doubleFreeTotal_eq, length_hits hone, Option.some_inj] at htotal
  have hmin := hcount _ _ (Nat.min_le_left _ _) htotal
  omega

/-- **The double frees of one process.** The hits are the double frees up to the
cap; the published total is their number if and only if there are no more than
the cap. -/
theorem doubleFreeTotal_iff (hcount : CountsTold env) (trace : List TraceRecord) (pid : UInt32)
    (hone : ∀ e ∈ heapEvents trace, e.pid = pid) :
    DoubleFreeReport.Exact env (heapEvents trace) (trace.foldl DoubleFreeReport.fold {}) ↔
      (doubleFrees (heapEvents trace)).length ≤ maxHits := by
  refine ⟨doubleFrees_le_of_exact hcount hone, fun hfew => ⟨hits_doubleFrees hone, ?_⟩⟩
  rw [doubleFreeTotal_eq, length_hits hone, Nat.min_eq_right hfew]

end

/-- A `free`. -/
def freeAt (pid tid : UInt32) (addr : UInt64) : HeapEvent :=
  { pid, tid, op := .free, addr, size := 0, newAddr := 0, timestampNs := 0, comm := [] }

theorem countsTold_exact : CountsTold exactEnv := fun m n _ h => by
  have h : (m : Rat) = (n : Rat) := h
  exact_mod_cast h

def freesAt (pid tid : UInt32) (addr : UInt64) (n : Nat) : List TraceRecord :=
  List.replicate n (.heap (freeAt pid tid addr))

theorem heapEvents_freesAt (pid tid : UInt32) (addr : UInt64) (n : Nat) :
    heapEvents (freesAt pid tid addr n) = List.replicate n (freeAt pid tid addr) :=
  List.filterMap_replicate_of_some rfl

theorem pid_of_freesAt {pid tid : UInt32} {addr : UInt64} {n : Nat} :
    ∀ e ∈ heapEvents (freesAt pid tid addr n), e.pid = pid := by
  intro e he
  rw [heapEvents_freesAt] at he
  obtain rfl := (List.mem_replicate.mp he).2
  rfl

theorem priorFree_again (es : List HeapEvent) {e : HeapEvent} (hop : e.op = .free) (hnull : e.addr ≠ 0) :
    priorFree (es ++ [e]) e = some e := by
  have htouch : e.touches e.spot = true := by
    refine HeapEvent.touches_iff.mpr ⟨e.addr, ?_, rfl, hnull⟩
    rw [HeapEvent.addrs, hop]
    exact List.mem_cons_self
  rw [priorFree, if_pos ⟨hop, hnull⟩, lastFree_concat, if_pos htouch, if_pos hop]

theorem length_doubleFrees_again (es : List HeapEvent) {e : HeapEvent} (hop : e.op = .free) (hnull : e.addr ≠ 0)
    (n : Nat) : (doubleFrees (es ++ [e] ++ List.replicate n e)).length = (doubleFrees (es ++ [e])).length + n := by
  induction n with
  | zero => rw [List.replicate_zero, List.append_nil, Nat.add_zero]
  | succ n ih =>
    have hprior : priorFree (es ++ [e] ++ List.replicate n e) e = some e := by
      rw [List.append_assoc, List.singleton_append, ← List.replicate_succ, List.replicate_succ', ← List.append_assoc]
      exact priorFree_again _ hop hnull
    rw [List.replicate_succ', ← List.append_assoc, doubleFrees_concat, hprior, List.length_append, ih]
    rfl

theorem length_doubleFrees_freesAt {pid tid : UInt32} {addr : UInt64} (hnull : addr ≠ 0) (n : Nat) :
    (doubleFrees (heapEvents (freesAt pid tid addr (n + 1)))).length = n := by
  have hagain := length_doubleFrees_again [] (e := freeAt pid tid addr) rfl hnull n
  rw [heapEvents_freesAt, List.replicate_succ]
  refine hagain.trans ?_
  have hfirst : doubleFrees ([] ++ [freeAt pid tid addr]) = [] := by
    rw [doubleFrees_concat]
    have hnone : priorFree [] (freeAt pid tid addr) = none := by
      rw [priorFree]
      split <;> rfl
    rw [hnone]
    rfl
  rw [hfirst, List.length_nil, Nat.zero_add]

theorem doubleFreeTotal_iff_twice :
    DoubleFreeReport.Exact exactEnv (heapEvents (freesAt 1000 1001 0x7f30000042a0 3))
        ((freesAt 1000 1001 0x7f30000042a0 3).foldl DoubleFreeReport.fold {}) ↔
      (doubleFrees (heapEvents (freesAt 1000 1001 0x7f30000042a0 3))).length ≤ maxHits :=
  doubleFreeTotal_iff countsTold_exact _ 1000 pid_of_freesAt

/-- A chunk is freed 66 times, and 64 is published. -/
theorem not_exact_capped :
    ¬ ∀ (F : Type) (env : ReportEnv F), CountsTold env → ∀ trace pid, (∀ e ∈ heapEvents trace, e.pid = pid) →
      DoubleFreeReport.Exact env (heapEvents trace) (trace.foldl DoubleFreeReport.fold {}) := by
  intro h
  have hfew := doubleFrees_le_of_exact countsTold_exact pid_of_freesAt
    (h Rat exactEnv countsTold_exact (freesAt 1000 1001 0x7f30000042a0 66) 1000 pid_of_freesAt)
  rw [length_doubleFrees_freesAt (by decide)] at hfew
  exact absurd hfew (by decide)

/-! ## One process among others -/

/-- The hits that are found while the events of a process are folded. -/
def hitsFor (pid : UInt32) : DoubleFreeReport → List HeapEvent → List DoubleFreeHit
  | _, [] => []
  | s, e :: es =>
      (if e.pid = pid then (s.see e).hits.drop s.hits.length else []) ++ hitsFor pid (s.see e) es

/-- The stream without the heap events of the other processes. -/
def withoutOthers (pid : UInt32) (trace : List TraceRecord) : List TraceRecord :=
  trace.filter fun r => r.heapEvent?.all fun e => e.pid = pid

/-- What is found for a process does not hang on the others. -/
def DoubleFreeSeparate (trace : List TraceRecord) : Prop :=
  ∀ pid, hitsFor pid {} (heapEvents trace) = hitsFor pid {} (heapEvents (withoutOthers pid trace))

def eventsOf (pid : UInt32) (es : List HeapEvent) : List HeapEvent := es.filter fun e => e.pid = pid

theorem heapEvents_cons (r : TraceRecord) (trace : List TraceRecord) :
    heapEvents (r :: trace) = r.heapEvent?.toList ++ heapEvents trace := by
  rw [heapEvents, List.filterMap_cons]
  cases r.heapEvent? <;> rfl

theorem heapEvents_withoutOthers (pid : UInt32) (trace : List TraceRecord) :
    heapEvents (withoutOthers pid trace) = eventsOf pid (heapEvents trace) := by
  induction trace with
  | nil => rfl
  | cons r trace ih =>
    rw [withoutOthers] at ih
    rw [withoutOthers, List.filter_cons, heapEvents_cons r trace]
    cases hr : r.heapEvent? with
    | none =>
      rw [Option.all_none, if_pos rfl, heapEvents_cons, hr]
      exact ih
    | some e =>
      rw [Option.all_some, Option.toList_some, List.singleton_append, eventsOf, List.filter_cons]
      split
      · rw [heapEvents_cons, hr, ih]
        rfl
      · exact ih

namespace DoubleFreeReport

variable {A : Set HeapSpot} {pid : UInt32} {s t : DoubleFreeReport} {e : HeapEvent} {es : List HeapEvent}

theorem hitsFor_concat (pid : UInt32) (s : DoubleFreeReport) (es : List HeapEvent) (e : HeapEvent) :
    hitsFor pid s (es ++ [e]) = hitsFor pid s es ++
      if e.pid = pid then ((es.foldl see s).see e).hits.drop (es.foldl see s).hits.length else [] := by
  induction es generalizing s with
  | nil => exact List.append_nil _
  | cons e' es ih => rw [List.cons_append, hitsFor, hitsFor, ih, List.append_assoc, List.foldl_cons]

theorem drop_hits_see (s : DoubleFreeReport) (e : HeapEvent) :
    (s.see e).hits.drop s.hits.length = if s.hits.length < maxHits then (s.found? e).toList else [] := by
  rw [hits_see]
  split
  · exact List.drop_left
  · exact List.drop_length

theorem hits_eq_append (s : DoubleFreeReport) (e : HeapEvent) :
    (s.see e).hits = s.hits ++ (s.see e).hits.drop s.hits.length := by
  rw [drop_hits_see, hits_see]
  split
  · rfl
  · exact (List.append_nil _).symm

theorem length_hitsFor_le (pid : UInt32) (es : List HeapEvent) :
    (hitsFor pid {} es).length ≤ (es.foldl see {}).hits.length := by
  induction es using List.reverseRecOn with
  | nil => exact Nat.le_refl _
  | append_singleton es e ih =>
    have hlen := congrArg List.length (hits_eq_append (es.foldl see {}) e)
    rw [List.length_append] at hlen
    rw [hitsFor_concat, List.foldl_concat, hlen, List.length_append]
    refine Nat.add_le_add ih ?_
    split
    · exact Nat.le_refl _
    · exact Nat.zero_le _

theorem hitsFor_eq_hits (h : ∀ e ∈ es, e.pid = pid) : hitsFor pid {} es = (es.foldl see {}).hits := by
  induction es using List.reverseRecOn with
  | nil => rfl
  | append_singleton es e ih =>
    rw [hitsFor_concat, ih fun e he => h e (List.mem_append_left _ he),
      if_pos (h e (List.mem_append_right _ List.mem_cons_self)), List.foldl_concat]
    exact (hits_eq_append _ e).symm

/-! ### Chunks of their own -/

/-- Two states say the same of the chunks of a process. -/
structure Agree (A : Set HeapSpot) (pid : UInt32) (s t : DoubleFreeReport) : Prop where
  live : ∀ x ∈ A, x.1 = pid → rowOf (spotKey x) s.live = rowOf (spotKey x) t.live
  freed : ∀ x ∈ A, x.1 = pid → rowOf (spotKey x) s.freed = rowOf (spotKey x) t.freed

theorem Agree.own (hA : SpotsApart A) (h : Agree A pid s t) (he : e.Within A) : Agree A pid (s.see e) (t.see e) := by
  refine ⟨fun x hx hpid => ?_, fun x hx hpid => ?_⟩
  · rw [live_see (hA.keyOwn he hx), live_see (hA.keyOwn he hx), h.live x hx hpid]
  · rw [freed_see (hA.keyOwn he hx), freed_see (hA.keyOwn he hx), h.freed x hx hpid, freedSize, freedSize,
      h.live x hx hpid, h.freed x hx hpid]

theorem Agree.other (hA : SpotsApart A) (h : Agree A pid s t) (he : e.Within A) (hpid : e.pid ≠ pid) :
    Agree A pid (s.see e) t := by
  have huntouched : ∀ x : HeapSpot, x.1 = pid → ¬ e.touches x = true := by
    rintro x rfl ht
    obtain ⟨a, -, rfl, -⟩ := HeapEvent.touches_iff.mp ht
    exact hpid rfl
  refine ⟨fun x hx hxp => ?_, fun x hx hxp => ?_⟩
  · rw [live_see (hA.keyOwn he hx), if_neg (huntouched x hxp)]
    exact h.live x hx hxp
  · rw [freed_see (hA.keyOwn he hx), if_neg (huntouched x hxp)]
    exact h.freed x hx hxp

theorem Agree.found (h : Agree A pid s t) (he : e.Within A) (hpid : e.pid = pid) : s.found? e = t.found? e := by
  rw [found?, found?]
  by_cases hfree : e.op = .free ∧ e.addr ≠ 0
  · have hmem : e.spot ∈ A := by
      refine he e.addr ?_ hfree.2
      rw [HeapEvent.addrs, hfree.1]
      exact List.mem_cons_self
    rw [h.live e.spot hmem hpid, h.freed e.spot hmem hpid]
  · rw [if_neg fun hall => hfree ⟨hall.1, hall.2.1⟩, if_neg fun hall => hfree ⟨hall.1, hall.2.1⟩]

theorem length_doubleFrees_le_concat (es : List HeapEvent) (e : HeapEvent) :
    (doubleFrees es).length ≤ (doubleFrees (es ++ [e])).length := by
  rw [doubleFrees_concat, List.length_append]
  exact Nat.le_add_right _ _

/-- While the hits have room for all double frees, a process finds its own. -/
theorem agree_alone (hA : SpotsApart A) (hes : ∀ e ∈ es, e.Within A) (hroom : (doubleFrees es).length ≤ maxHits) :
    Agree A pid (es.foldl see {}) ((eventsOf pid es).foldl see {}) ∧
      hitsFor pid {} es = hitsFor pid {} (eventsOf pid es) := by
  induction es using List.reverseRecOn with
  | nil => exact ⟨⟨fun _ _ _ => rfl, fun _ _ _ => rfl⟩, rfl⟩
  | append_singleton es e ih =>
    have hes' : ∀ e ∈ es, e.Within A := fun e he => hes e (List.mem_append_left _ he)
    have he : e.Within A := hes e (List.mem_append_right _ List.mem_cons_self)
    obtain ⟨hagree, hhits⟩ := ih hes' (Nat.le_trans (length_doubleFrees_le_concat es e) hroom)
    rw [List.foldl_concat, hitsFor_concat]
    by_cases hpid : e.pid = pid
    · have hown : eventsOf pid (es ++ [e]) = eventsOf pid es ++ [e] := by
        rw [eventsOf, List.filter_append, List.filter_cons_of_pos (by simpa using hpid)]
        rfl
      have hfound := hagree.found he hpid
      have hrep := represents hA hes'
      have hlen := length_hits_foldl hA hes'
      -- the process alone has no more hits
      have hfewer : ((eventsOf pid es).foldl see {}).hits.length ≤ (es.foldl see {}).hits.length := by
        have hall : ∀ e ∈ eventsOf pid es, e.pid = pid := fun e he => of_decide_eq_true (List.mem_filter.mp he).2
        rw [← hitsFor_eq_hits hall, ← hhits]
        exact length_hitsFor_le pid es
      rw [hown, List.foldl_concat, hitsFor_concat, ← hhits, if_pos hpid, if_pos hpid, drop_hits_see, drop_hits_see,
        hfound]
      refine ⟨hagree.own hA he, congrArg _ ?_⟩
      cases hf : ((eventsOf pid es).foldl see {}).found? e with
      | none => rw [Option.toList_none, ite_self, ite_self]
      | some hit =>
        have hnew : (priorFree es e).isSome = true := by
          have hmap := congrArg Option.isSome (hrep.found he)
          rw [hfound, hf, Option.isSome_map, Option.isSome_map] at hmap
          exact hmap.symm
        obtain ⟨f, hprior⟩ := Option.isSome_iff_exists.mp hnew
        rw [doubleFrees_concat, hprior, List.length_append] at hroom
        have hspace : (es.foldl see {}).hits.length < maxHits := by
          have hone : ((some f).map fun f => (f, e)).toList.length = 1 := rfl
          omega
        rw [if_pos hspace, if_pos (Nat.lt_of_le_of_lt hfewer hspace)]
    · have hothers : eventsOf pid (es ++ [e]) = eventsOf pid es := by
        rw [eventsOf, List.filter_append, List.filter_cons_of_neg (by simpa using hpid)]
        exact List.append_nil _
      rw [hothers, if_neg hpid, List.append_nil]
      exact ⟨hagree.other hA he hpid, hhits⟩

/-! ### Nothing to share -/

/-- An event without an address changes nothing. -/
theorem see_eq_self (s : DoubleFreeReport) (h : ∀ a ∈ e.addrs, a = 0) : s.see e = s := by
  rw [HeapEvent.addrs] at h
  rw [see, fold]
  cases hop : e.op with
  | malloc | calloc =>
    rw [hop] at h
    exact if_pos (h _ List.mem_cons_self)
  | realloc =>
    rw [hop] at h
    have hdrop : s.drop e = s := if_pos (h _ List.mem_cons_self)
    exact (if_pos (h _ (List.mem_cons_of_mem _ List.mem_cons_self))).trans hdrop
  | free =>
    rw [hop] at h
    exact if_pos (h _ List.mem_cons_self)
  | unknown => rfl

theorem hitsFor_null (s : DoubleFreeReport) (h : ∀ e ∈ es, e.pid = pid → ∀ a ∈ e.addrs, a = 0) :
    hitsFor pid s es = [] := by
  induction es generalizing s with
  | nil => rfl
  | cons e es ih =>
    rw [hitsFor, ih _ fun e he => h e (List.mem_cons_of_mem _ he), List.append_nil]
    split
    · rename_i hpid
      rw [see_eq_self s (h e List.mem_cons_self hpid)]
      exact List.drop_length
    · rfl

theorem hitsFor_others (s : DoubleFreeReport) (h : ∀ e ∈ es, e.pid ≠ pid) : hitsFor pid s es = [] := by
  induction es generalizing s with
  | nil => rfl
  | cons e es ih =>
    rw [hitsFor, if_neg (h e List.mem_cons_self), ih _ fun e he => h e (List.mem_cons_of_mem _ he)]
    rfl

/-- Events without addresses can be left out. -/
theorem hitsFor_eventsOf (s : DoubleFreeReport) (h : ∀ e ∈ es, e.pid ≠ pid → ∀ a ∈ e.addrs, a = 0) :
    hitsFor pid s es = hitsFor pid s (eventsOf pid es) := by
  induction es generalizing s with
  | nil => rfl
  | cons e es ih =>
    have ih := fun s => ih s fun e he => h e (List.mem_cons_of_mem _ he)
    rw [hitsFor, ih]
    by_cases hpid : e.pid = pid
    · have hown : eventsOf pid (e :: es) = e :: eventsOf pid es := List.filter_cons_of_pos (by simpa using hpid)
      rw [hown, hitsFor]
    · have hothers : eventsOf pid (e :: es) = eventsOf pid es := List.filter_cons_of_neg (by simpa using hpid)
      rw [hothers, if_neg hpid, see_eq_self s (h e List.mem_cons_self hpid)]
      rfl

theorem hitsFor_one (hes : ∀ e ∈ es, e.Within A) (hone : ∀ x ∈ A, ∀ y ∈ A, x.1 = y.1) :
    hitsFor pid {} es = hitsFor pid {} (eventsOf pid es) := by
  by_cases hpid : ∃ x ∈ A, x.1 = pid
  · obtain ⟨x, hx, rfl⟩ := hpid
    refine hitsFor_eventsOf {} fun e he hne a ha => ?_
    by_contra hnull
    exact hne (hone _ (hes e he a ha hnull) x hx)
  · have hnull : ∀ e ∈ es, e.pid = pid → ∀ a ∈ e.addrs, a = 0 := by
      intro e he hep a ha
      by_contra hnull
      exact hpid ⟨_, hes e he a ha hnull, hep⟩
    have hnull' : ∀ e ∈ eventsOf pid es, e.pid = pid → ∀ a ∈ e.addrs, a = 0 := fun e he =>
      hnull e (List.mem_filter.mp he).1
    rw [hitsFor_null {} hnull, hitsFor_null {} hnull']

end DoubleFreeReport

/-! ### What is shared -/

section

open DoubleFreeReport

variable {x y : HeapSpot} {A : Set HeapSpot}

def freeSpot (x : HeapSpot) : HeapEvent := freeAt x.1 x.1 x.2

theorem freeSpot_touches (hx : x.2 ≠ 0) : (freeSpot x).touches x = true :=
  HeapEvent.touches_iff.mpr ⟨x.2, List.mem_cons_self, rfl, hx⟩

theorem freeSpot_untouched (hxy : x.1 ≠ y.1) : ¬ (freeSpot x).touches y = true := by
  intro ht
  obtain ⟨a, -, rfl, -⟩ := HeapEvent.touches_iff.mp ht
  exact hxy rfl

theorem freeSpot_within (hx : x ∈ A) : (freeSpot x).Within A := by
  intro a ha _
  obtain rfl := List.mem_singleton.mp ha
  exact hx

theorem priorFree_untouched {es : List HeapEvent} (h : ∀ e ∈ es, ¬ e.touches x = true) :
    priorFree es (freeSpot x) = none := by
  have hlast : lastFree x es = none := by
    rw [lastFree, lastTouch, List.filter_eq_nil_iff.mpr h]
    rfl
  rw [priorFree]
  split
  · exact hlast
  · rfl

/-- Two chunks under one key: the free of the second looks like a second
free. -/
theorem not_separate_collide (hx : x.2 ≠ 0) (hy : y.2 ≠ 0) (hxy : x.1 ≠ y.1) (hkey : spotKey x = spotKey y) :
    ¬ DoubleFreeSeparate [.heap (freeSpot x), .heap (freeSpot y)] := by
  intro h
  have hown : KeyOwn x (freeSpot x) := by
    intro a ha _
    obtain rfl := List.mem_singleton.mp ha
    exact ⟨fun _ => rfl, fun _ => rfl⟩
  have hfreed : rowOf (spotKey y) (see {} (freeSpot x)).freed = some ((freeSpot x).chunk (freedSize {} x)) := by
    rw [← hkey, freed_see hown, if_pos (freeSpot_touches hx)]
    exact if_pos rfl
  have hlive : rowOf (spotKey y) (see {} (freeSpot x)).live = none := by
    rw [← hkey, live_see hown, if_pos (freeSpot_touches hx)]
    exact if_neg hx.symm
  have hfound : (see {} (freeSpot x)).found? (freeSpot y) =
      some ((freeSpot y).hit ((freeSpot x).chunk (freedSize {} x))) := by
    refine (if_pos ⟨rfl, hy, hlive⟩).trans ?_
    exact congrArg (Option.map _) hfreed
  have hnone : ∀ z : HeapSpot, (see {} (freeSpot z)).hits = [] := by
    intro z
    rw [hits_see, found?]
    split
    · split <;> rfl
    · rfl
  have hpx : (freeSpot x).pid ≠ y.1 := hxy
  have hpy : (freeSpot y).pid = y.1 := rfl
  have htogether : hitsFor y.1 {} ([freeSpot x] ++ [freeSpot y]) =
      [(freeSpot y).hit ((freeSpot x).chunk (freedSize {} x))] := by
    rw [hitsFor_concat, List.foldl_cons, List.foldl_nil, drop_hits_see, hfound, hnone, hitsFor, if_neg hpx,
      if_pos hpy]
    rfl
  have halone : hitsFor y.1 {} [freeSpot y] = [] := by
    rw [hitsFor, hnone, if_pos hpy]
    rfl
  have heq := h y.1
  rw [heapEvents_withoutOthers] at heq
  have hleft : eventsOf y.1 [freeSpot x, freeSpot y] = [freeSpot y] := by
    rw [eventsOf, List.filter_cons_of_neg (by simpa using hpx), List.filter_cons_of_pos (by simpa using hpy)]
    rfl
  exact absurd (htogether.symm.trans (heq.trans ((congrArg (hitsFor y.1 {}) hleft).trans halone))) (List.cons_ne_nil _ _)

theorem doubleFrees_two (hxy : x.1 ≠ y.1) : doubleFrees [freeSpot x, freeSpot y] = [] := by
  have hfirst : priorFree [] (freeSpot x) = none := priorFree_untouched fun _ he => absurd he List.not_mem_nil
  have hsecond : priorFree [freeSpot x] (freeSpot y) = none := by
    refine priorFree_untouched fun e he => ?_
    obtain rfl := List.mem_singleton.mp he
    exact freeSpot_untouched hxy
  have hcons : [freeSpot x, freeSpot y] = [] ++ [freeSpot x] ++ [freeSpot y] := rfl
  rw [hcons, doubleFrees_concat, doubleFrees_concat, hfirst, List.nil_append, hsecond]
  rfl

/-- One process fills the hits, and what the other one frees twice has no
room. -/
def crowd (x y : HeapSpot) : List TraceRecord :=
  (List.replicate (maxHits + 1) (freeSpot x) ++ [freeSpot y] ++ [freeSpot y]).map .heap

theorem heapEvents_map (es : List HeapEvent) : heapEvents (es.map .heap) = es := by
  rw [heapEvents, List.filterMap_map]
  exact List.filterMap_some

theorem length_doubleFrees_many (hx : x.2 ≠ 0) :
    (doubleFrees (List.replicate (maxHits + 1) (freeSpot x))).length = maxHits := by
  have hagain : (doubleFrees (heapEvents (freesAt x.1 x.1 x.2 (maxHits + 1)))).length = maxHits :=
    length_doubleFrees_freesAt hx maxHits
  rwa [heapEvents_freesAt] at hagain

theorem length_doubleFrees_crowd (hx : x.2 ≠ 0) (hy : y.2 ≠ 0) (hxy : x.1 ≠ y.1) :
    (doubleFrees (heapEvents (crowd x y))).length = maxHits + 1 := by
  have hnone : priorFree (List.replicate (maxHits + 1) (freeSpot x)) (freeSpot y) = none := by
    refine priorFree_untouched fun e he => ?_
    obtain rfl := (List.mem_replicate.mp he).2
    exact freeSpot_untouched hxy
  have hlast := length_doubleFrees_again (List.replicate (maxHits + 1) (freeSpot x)) (e := freeSpot y) rfl hy 1
  rw [doubleFrees_concat, hnone, List.length_append, length_doubleFrees_many hx] at hlast
  rw [crowd, heapEvents_map]
  exact hlast

theorem crowd_within (hx : x ∈ A) (hy : y ∈ A) : ∀ e ∈ heapEvents (crowd x y), e.Within A := by
  intro e he
  rw [crowd, heapEvents_map, List.append_assoc] at he
  rcases List.mem_append.mp he with he | he
  · obtain rfl := (List.mem_replicate.mp he).2
    exact freeSpot_within hx
  · have he : e = freeSpot y := by simpa using he
    rw [he]
    exact freeSpot_within hy

theorem not_separate_crowd (hA : SpotsApart A) (hx : x ∈ A) (hy : y ∈ A) (hxn : x.2 ≠ 0) (hyn : y.2 ≠ 0)
    (hxy : x.1 ≠ y.1) : ¬ DoubleFreeSeparate (crowd x y) := by
  intro h
  have hpx : (freeSpot x).pid ≠ y.1 := hxy
  have hpy : (freeSpot y).pid = y.1 := rfl
  have hmem : ∀ e ∈ List.replicate (maxHits + 1) (freeSpot x) ++ [freeSpot y], e.Within A := by
    intro e he
    refine crowd_within hx hy e ?_
    rw [crowd, heapEvents_map]
    exact List.mem_append_left _ he
  have hmany := length_doubleFrees_many hxn
  -- no hit is added once the first process has filled them
  have hfull : ∀ es, (∀ e ∈ es, e.Within A) → maxHits ≤ (doubleFrees es).length →
      ((es.foldl see {}).see (freeSpot y)).hits.drop (es.foldl see {}).hits.length = [] := by
    intro es hes hle
    rw [drop_hits_see, length_hits_foldl hA hes, Nat.min_eq_left hle, if_neg (Nat.lt_irrefl _)]
  have htogether : hitsFor y.1 {} (heapEvents (crowd x y)) = [] := by
    rw [crowd, heapEvents_map, hitsFor_concat, hitsFor_concat,
      hfull _ hmem (Nat.le_trans (Nat.le_of_eq hmany.symm) (length_doubleFrees_le_concat _ _)),
      hfull _ (fun e he => hmem e (List.mem_append_left _ he)) (Nat.le_of_eq hmany.symm), ite_self, List.append_nil,
      List.append_nil]
    refine hitsFor_others {} fun e he => ?_
    obtain rfl := (List.mem_replicate.mp he).2
    exact hpx
  have hown : eventsOf y.1 (heapEvents (crowd x y)) = [freeSpot y] ++ [freeSpot y] := by
    rw [crowd, heapEvents_map, eventsOf, List.append_assoc, List.filter_append,
      List.filter_replicate_of_neg (by simpa using hpx), List.nil_append, List.singleton_append,
      List.filter_cons_of_pos (by simpa using hpy), List.filter_cons_of_pos (by simpa using hpy)]
    rfl
  have halone : (hitsFor y.1 {} ([freeSpot y] ++ [freeSpot y])).length = 1 := by
    have hall : ∀ e ∈ [freeSpot y] ++ [freeSpot y], e.pid = y.1 := by
      intro e he
      have he : e = freeSpot y := by simpa using he
      rw [he, hpy]
    have hone : (doubleFrees (heapEvents (freesAt y.1 y.1 y.2 2))).length = 1 := length_doubleFrees_freesAt hyn 1
    rw [heapEvents_freesAt] at hone
    rw [hitsFor_eq_hits hall, length_hits_foldl (spotsApart_process y.1) fun e he _ _ _ => hall e he]
    exact (congrArg (min maxHits) hone).trans (by decide)
  have heq := h y.1
  rw [heapEvents_withoutOthers, htogether, hown] at heq
  rw [← heq] at halone
  exact absurd halone (by decide)

end

/-- **`doublefree` and the processes.** In all streams that touch only some
chunks and have so many double frees, the processes are kept apart if and only
if the chunks are all of one process, or no two of them share a key and the
hits have room for all double frees. -/
theorem doubleFree_separate_iff (A : Set HeapSpot) (hA : ∀ x ∈ A, x.2 ≠ 0) (n : Nat) :
    (∀ trace, (∀ e ∈ heapEvents trace, e.Within A) → (doubleFrees (heapEvents trace)).length ≤ n →
        DoubleFreeSeparate trace) ↔
      (∀ x ∈ A, ∀ y ∈ A, x.1 = y.1) ∨ SpotsApart A ∧ n ≤ maxHits := by
  constructor
  · intro h
    have hapart : SpotsApart A := by
      intro x hx y hy hkey
      by_cases hpid : x.1 = y.1
      · rw [spotKey, spotKey, hpid] at hkey
        exact Prod.ext hpid (heapKey_inj _ hkey)
      · refine absurd (h _ (fun e he => ?_) ?_) (not_separate_collide (hA x hx) (hA y hy) hpid hkey)
        · rcases List.mem_cons.mp he with rfl | he
          · exact freeSpot_within hx
          · obtain rfl := List.mem_singleton.mp he
            exact freeSpot_within hy
        · exact Nat.le_trans (Nat.le_of_eq (congrArg List.length (doubleFrees_two hpid))) (Nat.zero_le _)
    by_cases hone : ∀ x ∈ A, ∀ y ∈ A, x.1 = y.1
    · exact .inl hone
    · refine .inr ⟨hapart, ?_⟩
      by_contra hmany
      simp only [not_forall] at hone
      obtain ⟨x, hx, y, hy, hxy⟩ := hone
      refine not_separate_crowd hapart hx hy (hA x hx) (hA y hy) hxy (h _ (crowd_within hx hy) ?_)
      rw [length_doubleFrees_crowd (hA x hx) (hA y hy) hxy]
      omega
  · rintro (hone | ⟨hapart, hroom⟩) trace hwithin hfew pid
    · rw [heapEvents_withoutOthers]
      exact DoubleFreeReport.hitsFor_one hwithin hone
    · rw [heapEvents_withoutOthers]
      exact (DoubleFreeReport.agree_alone hapart hwithin (Nat.le_trans hfew hroom)).2

theorem doubleFree_separate_one : (∀ trace, (∀ e ∈ heapEvents trace, e.Within {(1000, 0x7f30000042a0)}) →
      (doubleFrees (heapEvents trace)).length ≤ 3 → DoubleFreeSeparate trace) ↔
    (∀ x ∈ ({(1000, 0x7f30000042a0)} : Set HeapSpot), ∀ y ∈ ({(1000, 0x7f30000042a0)} : Set HeapSpot), x.1 = y.1) ∨
      SpotsApart {(1000, 0x7f30000042a0)} ∧ 3 ≤ maxHits :=
  doubleFree_separate_iff _ (fun x hx => by
    obtain rfl := Set.mem_singleton_iff.mp hx
    decide) 3

/-- The processes 1000 and 1016 free one chunk each, and the two keys are
equal. -/
theorem not_doubleFreeSeparate_collide :
    ¬ ∀ trace, (∀ e ∈ heapEvents trace, e.pid < 2 ^ 22 ∧ e.addr < 2 ^ 47) → DoubleFreeSeparate trace := by
  intro h
  refine not_separate_collide (x := (1000, 0x7f30000042a0)) (y := (1016, 0x6f3000005ff0)) (by decide) (by decide)
    (by decide) (by decide) (h _ fun e he => ?_)
  rcases List.mem_cons.mp he with rfl | he
  · decide
  · obtain rfl := List.mem_singleton.mp he
    decide

end Montauk.Tools
