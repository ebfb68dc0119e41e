import Mathlib.Algebra.BigOperators.Group.List.Lemmas
import Mathlib.Data.List.Dedup
import Montauk.Machine.Lines
import Montauk.Sort.Entry
import Montauk.Sort.PairWord

/-!
# Tallying records

`sublimation_tally` of `tally.c`: the distinct lines of a buffer with their
counts, the most frequent first. A table in open addressing counts the records,
then a word is packed for each (its count above its place among the distinct
ones, inverted) and the words are sorted; read from the top they name the
entries in the order of the output.

`tallied` is the list the table stands for: the distinct records in the order
in which they first appear. `Tallied` says what the output is.
-/

namespace Montauk.Text

open Montauk.Sort Probing Lines

/-! ## The table -/

/-- `kptr[p]`, as an offset into the buffer, `klen[p]`, `count[p]` and
`seen[p]` of an occupied slot. -/
structure TallyEntry where
  kptr : Nat
  klen : Nat
  count : Nat
  seen : Nat

/-- `tally_map`; `cap` is the number of slots. -/
structure TallyMap where
  slots : List (Option TallyEntry)
  used : Nat

/-- `sub_tally_t`. -/
structure SubTally where
  offset : Nat
  length : Nat
  count : Nat

/-- What the machine gives a call: whether the table and its growths can be
allocated, the two arrays of the sort, and what the sort gets. -/
structure TallyMem where
  init : Bool
  grow : Nat → Bool
  packed : Option (Nat → UInt64)
  seen2slot : Option (Nat → Nat)
  sort : EntryEnv UInt64

def fnvSpan (s : List UInt8) : UInt64 :=
  s.foldl (fun h c => (h ^^^ c.toUInt64) * 1099511628211) 1469598103934665603

/-- The `len` bytes at `data + offset`. -/
def span (data : List UInt8) (offset len : Nat) : List UInt8 := (data.drop offset).take len

def TallyEntry.bytes (data : List UInt8) (e : TallyEntry) : List UInt8 := span data e.kptr e.klen

/-- `tm_init`, when the table can be allocated. -/
def tmInit : TallyMap := ⟨List.replicate 1024 none, 0⟩

section
variable (mem : TallyMem) (data : List UInt8)

/-- `tm_grow`; `some none` is its return of -1. -/
def tmGrow (m : TallyMap) : Option (Option TallyMap) :=
  if mem.grow (m.slots.length * 2) then do
    let slots ← grow fnvSpan (TallyEntry.bytes data) m.slots
    some (some { m with slots })
  else some none

def tmBump (m : TallyMap) (s len : Nat) : Option (Option TallyMap) := do
  let grown ← (if m.slots.length ≤ (m.used + 1) * 2 then tmGrow mem data m else some (some m))
  match grown with
  | none => some none
  | some m => do
      let p ← findSlot fnvSpan (TallyEntry.bytes data) m.slots (span data s len)
      let slot ← m.slots[p]?
      match slot with
      | some e => some (some { m with slots := m.slots.set p (some { e with count := e.count + 1 }) })
      | none => some (some ⟨m.slots.set p (some ⟨s, len, 1, m.used⟩), m.used + 1⟩)

/-- The loop over the bytes, of which the first argument is left. -/
def tallyLoop : List UInt8 → Nat → Nat → TallyMap → Nat → Option (Option (TallyMap × Nat))
  | [], start, i, m, records =>
      if start < i then do
        let bumped ← tmBump mem data m start (i - start)
        match bumped with
        | none => some none
        | some m => some (some (m, records + 1))
      else some (some (m, records))
  | c :: rest, start, i, m, records =>
      if c = 0x0a then do
        let bumped ← tmBump mem data m start (i - start)
        match bumped with
        | none => some none
        | some m => tallyLoop rest (i + 1) (i + 1) m (records + 1)
      else tallyLoop rest start (i + 1) m records

end

/-! ## The sort and the output -/

def packTally (count seen : Nat) : UInt64 :=
  let c := if 0xFFFFFFFF < count then 0xFFFFFFFF else count
  (UInt64.ofNat c <<< 32) ||| (0xFFFFFFFF - UInt64.ofNat seen)

def TallyEntry.word (e : TallyEntry) : UInt64 := packTally e.count e.seen

def unpackSeen (w : UInt64) : Nat := (0xFFFFFFFF - (w &&& 0xFFFFFFFF)).toNat

/-- The loop that packs the slots from `j` on. -/
def packSlots : List (Option TallyEntry) → Nat → Nat → List UInt64 → List Nat → Option (List UInt64 × List Nat)
  | [], _, _, packed, seen2slot => some (packed, seen2slot)
  | none :: slots, j, d, packed, seen2slot => packSlots slots (j + 1) d packed seen2slot
  | some e :: slots, j, d, packed, seen2slot => do
      let packed ← store packed d e.word
      let seen2slot ← store seen2slot e.seen j
      packSlots slots (j + 1) (d + 1) packed seen2slot

/-- The output loop, downwards from `r`; `out` is the caller's array of
`out_cap` entries. -/
def emitTally (slots : List (Option TallyEntry)) (packed : List UInt64) (seen2slot : List Nat) :
    Nat → Nat → List SubTally → Option (List SubTally)
  | 0, _, out => some out
  | r + 1, written, out =>
      if written < out.length then do
        let w ← load packed r
        let j ← load seen2slot (unpackSeen w)
        let slot ← load slots j
        let e ← slot
        let out ← store out written ⟨e.kptr, e.klen, e.count⟩
        emitTally slots packed seen2slot r (written + 1) out
      else some out

/-- `sublimation_tally`: what it returns, `*total`, and `out`. -/
def sublimationTally (flt : Floats) {ρ : Type} (resistance : Int → Int → ρ) (gt : ρ → ρ → Bool) (mem : TallyMem)
    (data : List UInt8) (out : List SubTally) : Option (Nat × Nat × List SubTally) :=
  if !mem.init then some (0, 0, out)
  else do
    let counted ← tallyLoop mem data data 0 0 tmInit 0
    match counted with
    | none => some (0, 0, out)
    | some (m, records) =>
        if m.used = 0 then some (0, records, out)
        else
          match malloc mem.packed m.used, malloc mem.seen2slot m.used with
          | some packed, some seen2slot => do
              let (packed, seen2slot) ← packSlots m.slots 0 0 packed seen2slot
              let packed ← sublimationU64 flt resistance gt mem.sort packed
              let out ← emitTally m.slots packed seen2slot m.used 0 out
              some (m.used, records, out)
          | _, _ => some (0, records, out)

/-! ## What it is for -/

/-- The records of a list of lines, the first of which starts at `offset`. -/
def recordsFrom : Nat → List (List UInt8) → List (Nat × List UInt8)
  | _, [] => []
  | offset, l :: ls => (offset, chomp 0x0a l) :: recordsFrom (offset + l.length) ls

/-- The records of a buffer: where each starts, and its bytes. -/
def records (data : List UInt8) : List (Nat × List UInt8) := recordsFrom 0 (lines 0x0a data)

def SubTally.bytes (data : List UInt8) (t : SubTally) : List UInt8 := span data t.offset t.length

/-- The list of the distinct records: each once, where it first occurs, with
its count, ordered by count and then by first appearance. -/
structure Tallied (data : List UInt8) (ts : List SubTally) : Prop where
  inside : ∀ t ∈ ts, t.offset + t.length ≤ data.length
  once : (ts.map (SubTally.bytes data)).Nodup
  all : ∀ w, w ∈ ts.map (SubTally.bytes data) ↔ w ∈ (records data).map Prod.snd
  first : ∀ t ∈ ts, ∃ pre post, records data = pre ++ (t.offset, t.bytes data) :: post ∧
    t.bytes data ∉ pre.map Prod.snd
  count : ∀ t ∈ ts, t.count = ((records data).map Prod.snd).count (t.bytes data)
  ordered : ts.Pairwise fun t u => u.count < t.count ∨ u.count = t.count ∧ t.offset < u.offset

/-! ## The distinct records -/

/-- What a record does to the list of the distinct ones. -/
def tallyStep (data : List UInt8) (es : List TallyEntry) (r : Nat × List UInt8) : List TallyEntry :=
  if r.2 ∈ es.map (TallyEntry.bytes data) then
    es.map fun e => if e.bytes data = r.2 then { e with count := e.count + 1 } else e
  else es ++ [⟨r.1, r.2.length, 1, es.length⟩]

/-- The distinct records of `rs`, in the order in which they first appear. -/
def tallied (data : List UInt8) (rs : List (Nat × List UInt8)) : List TallyEntry :=
  rs.foldl (tallyStep data) []

/-- The records lie in the buffer, one behind the other. -/
structure InBuffer (data : List UInt8) (rs : List (Nat × List UInt8)) : Prop where
  spans : ∀ r ∈ rs, span data r.1 r.2.length = r.2
  inside : ∀ r ∈ rs, r.1 + r.2.length ≤ data.length
  ascending : rs.Pairwise fun r r' => r.1 < r'.1

/-- What the list says of the records. -/
structure FirstSeen (data : List UInt8) (rs : List (Nat × List UInt8)) (es : List TallyEntry) : Prop where
  seen : es.map TallyEntry.seen = List.range es.length
  inside : ∀ e ∈ es, e.kptr + e.klen ≤ data.length
  once : (es.map (TallyEntry.bytes data)).Nodup
  all : ∀ w, w ∈ es.map (TallyEntry.bytes data) ↔ w ∈ rs.map Prod.snd
  first : ∀ e ∈ es, ∃ pre post, rs = pre ++ (e.kptr, e.bytes data) :: post ∧ e.bytes data ∉ pre.map Prod.snd
  count : ∀ e ∈ es, e.count = (rs.map Prod.snd).count (e.bytes data)
  ascending : es.Pairwise fun e e' => e.kptr < e'.kptr

section
variable {data : List UInt8} {rs : List (Nat × List UInt8)} {es : List TallyEntry} {r : Nat × List UInt8}

theorem InBuffer.init (h : InBuffer data (rs ++ [r])) : InBuffer data rs :=
  ⟨fun r' hr' => h.spans r' (List.mem_append_left _ hr'), fun r' hr' => h.inside r' (List.mem_append_left _ hr'),
    (List.pairwise_append.mp h.ascending).1⟩

theorem FirstSeen.again (h : FirstSeen data rs es) (hr : r.2 ∈ es.map (TallyEntry.bytes data)) :
    FirstSeen data (rs ++ [r])
      (es.map fun e => if e.bytes data = r.2 then { e with count := e.count + 1 } else e) := by
  -- only the count changes
  have hfield : ∀ {β : Type} (f : TallyEntry → β), (∀ e : TallyEntry, f { e with count := e.count + 1 } = f e) →
      ∀ e : TallyEntry, f (if e.bytes data = r.2 then { e with count := e.count + 1 } else e) = f e := by
    intro β f hf e
    split
    · exact hf e
    · rfl
  have hmap : ∀ {β : Type} (f : TallyEntry → β), (∀ e : TallyEntry, f { e with count := e.count + 1 } = f e) →
      (es.map fun e => if e.bytes data = r.2 then { e with count := e.count + 1 } else e).map f = es.map f := by
    intro β f hf
    rw [List.map_map]
    exact List.map_congr_left fun e _ => hfield f hf e
  refine ⟨?_, List.forall_mem_map.mpr fun e he => ?_, ?_, fun w => ?_, ?_, ?_, ?_⟩
  · rw [hmap _ fun _ => rfl, List.length_map]
    exact h.seen
  · rw [hfield TallyEntry.kptr fun _ => rfl, hfield TallyEntry.klen fun _ => rfl]
    exact h.inside e he
  · rw [hmap _ fun _ => rfl]
    exact h.once
  · rw [hmap _ fun _ => rfl, h.all, List.map_append, List.mem_append, List.map_singleton, List.mem_singleton]
    refine ⟨Or.inl, fun hw => hw.elim id fun heq => ?_⟩
    rw [heq]
    exact (h.all _).mp hr
  · refine List.forall_mem_map.mpr fun e he => ?_
    obtain ⟨pre, post, hrs, hfirst⟩ := h.first e he
    rw [hfield (TallyEntry.bytes data) fun _ => rfl, hfield TallyEntry.kptr fun _ => rfl]
    exact ⟨pre, post ++ [r], by rw [hrs, List.append_assoc, List.cons_append], hfirst⟩
  · refine List.forall_mem_map.mpr fun e he => ?_
    rw [hfield (TallyEntry.bytes data) fun _ => rfl, List.map_append, List.count_append, List.map_singleton]
    split
    · rename_i heq
      rw [heq, List.count_singleton_self, ← heq]
      exact congrArg (· + 1) (h.count e he)
    · rename_i hne
      rw [List.count_singleton, if_neg fun heq => hne (beq_iff_eq.mp heq).symm]
      exact h.count e he
  · refine List.pairwise_map.mpr (h.ascending.imp fun {e e'} hlt => ?_)
    rw [hfield TallyEntry.kptr fun _ => rfl, hfield TallyEntry.kptr fun _ => rfl]
    exact hlt

theorem FirstSeen.new (h : FirstSeen data rs es) (hbuf : InBuffer data (rs ++ [r]))
    (hr : r.2 ∉ es.map (TallyEntry.bytes data)) :
    FirstSeen data (rs ++ [r]) (es ++ [⟨r.1, r.2.length, 1, es.length⟩]) := by
  have hbytes : TallyEntry.bytes data ⟨r.1, r.2.length, 1, es.length⟩ = r.2 :=
    hbuf.spans r (List.mem_append_right _ (List.mem_singleton.mpr rfl))
  have hold : r.2 ∉ rs.map Prod.snd := fun hmem => hr ((h.all _).mpr hmem)
  have hne : ∀ e ∈ es, e.bytes data ≠ r.2 := fun e he heq => hr (heq ▸ List.mem_map_of_mem he)
  refine ⟨?_, fun e he => ?_, ?_, fun w => ?_, ?_, ?_, ?_⟩
  · rw [List.map_append, h.seen, List.length_append, List.length_singleton, List.range_succ]
    rfl
  · rcases List.mem_append.mp he with he | he
    · exact h.inside e he
    · rw [List.mem_singleton.mp he]
      exact hbuf.inside r (List.mem_append_right _ (List.mem_singleton.mpr rfl))
  · rw [List.map_append, List.map_singleton, hbytes]
    refine List.nodup_append.mpr ⟨h.once, List.nodup_singleton _, fun w hw v hv heq => ?_⟩
    rw [List.mem_singleton.mp hv] at heq
    exact hr (heq ▸ hw)
  · rw [List.map_append, List.map_append, List.mem_append, List.mem_append, h.all, List.map_singleton, hbytes,
      List.map_singleton]
  · intro e he
    rcases List.mem_append.mp he with he | he
    · obtain ⟨pre, post, hrs, hfirst⟩ := h.first e he
      exact ⟨pre, post ++ [r], by rw [hrs, List.append_assoc, List.cons_append], hfirst⟩
    · rw [List.mem_singleton.mp he, hbytes]
      exact ⟨rs, [], rfl, hold⟩
  · intro e he
    rw [List.map_append, List.count_append, List.map_singleton]
    rcases List.mem_append.mp he with he | he
    · rw [List.count_singleton, if_neg fun heq => hne e he (beq_iff_eq.mp heq).symm]
      exact h.count e he
    · rw [List.mem_singleton.mp he, hbytes, List.count_eq_zero_of_not_mem hold, List.count_singleton_self]
  · refine List.pairwise_append.mpr ⟨h.ascending, List.pairwise_singleton _ _, fun e he e' he' => ?_⟩
    rw [List.mem_singleton.mp he']
    obtain ⟨pre, post, hrs, -⟩ := h.first e he
    have hmem : (e.kptr, e.bytes data) ∈ rs := by
      rw [hrs]
      exact List.mem_append_right _ List.mem_cons_self
    exact (List.pairwise_append.mp hbuf.ascending).2.2 _ hmem r (List.mem_singleton.mpr rfl)

theorem tallied_concat (data : List UInt8) (rs : List (Nat × List UInt8)) (r : Nat × List UInt8) :
    tallied data (rs ++ [r]) = tallyStep data (tallied data rs) r := by
  rw [tallied, List.foldl_append]
  rfl

theorem tallied_firstSeen (h : InBuffer data rs) : FirstSeen data rs (tallied data rs) := by
  induction rs using List.reverseRecOn with
  | nil => exact ⟨rfl, nofun, List.nodup_nil, fun w => Iff.rfl, nofun, nofun, List.Pairwise.nil⟩
  | append_singleton rs r ih =>
      rw [tallied_concat, tallyStep]
      split
      · exact (ih h.init).again ‹_›
      · exact (ih h.init).new h ‹_›

end

/-! ## The table is the list -/

/-- The table holds the distinct records of `rs` and has more than half of its
slots free. -/
structure Tallies (data : List UInt8) (rs : List (Nat × List UInt8)) (m : TallyMap) : Prop where
  placed : Placed fnvSpan (TallyEntry.bytes data) m.slots
  used : m.used = (entries m.slots).length
  large : 1024 ≤ m.slots.length
  room : m.used * 2 < m.slots.length
  holds : (entries m.slots).Perm (tallied data rs)

/-- Every allocation of a call succeeds. -/
structure TallyMem.Succeeds (mem : TallyMem) : Prop where
  init : mem.init = true
  grow : ∀ cap, mem.grow cap = true
  packed : mem.packed.isSome = true
  seen2slot : mem.seen2slot.isSome = true

section
variable {mem : TallyMem} {data : List UInt8} {rs : List (Nat × List UInt8)} {m : TallyMap}

theorem tallies_init (data : List UInt8) : Tallies data [] tmInit where
  placed := placed_empty (m := 10) rfl
  used := by rw [tmInit, entries_replicate]; rfl
  large := by rw [tmInit, List.length_replicate]
  room := by
    show 0 * 2 < (List.replicate 1024 none).length
    rw [List.length_replicate]
    omega
  holds := by rw [tmInit, entries_replicate]; exact List.Perm.refl _

/-- **Growing** keeps the records. -/
theorem Tallies.grow (h : Tallies data rs m) (hmem : mem.Succeeds) :
    ∃ m', tmGrow mem data m = some (some m') ∧ Tallies data rs m' ∧ m'.used = m.used ∧
      m'.slots.length = m.slots.length * 2 := by
  obtain ⟨slots, hrun, hplaced, hlen, hent⟩ := h.placed.grow
  refine ⟨{ m with slots }, ?_, ⟨hplaced, h.used.trans hent.length_eq.symm, ?_, ?_, hent.trans h.holds⟩, rfl, hlen⟩
  · rw [tmGrow, if_pos (hmem.grow _), hrun]
    rfl
  · have := h.large
    show 1024 ≤ slots.length
    omega
  · have := h.room
    show m.used * 2 < slots.length
    omega

theorem Tallies.reserve (h : Tallies data rs m) (hmem : mem.Succeeds) :
    ∃ m', (if m.slots.length ≤ (m.used + 1) * 2 then tmGrow mem data m else some (some m)) = some (some m') ∧
      Tallies data rs m' ∧ (m'.used + 1) * 2 < m'.slots.length := by
  have hroom := h.room
  by_cases hfull : m.slots.length ≤ (m.used + 1) * 2
  · obtain ⟨m', hrun, htallies, hused, hlen⟩ := h.grow hmem
    refine ⟨m', by rw [if_pos hfull, hrun], htallies, ?_⟩
    have := h.large
    omega
  · exact ⟨m, if_neg hfull, h, by omega⟩

/-- **`tm_bump`** counts a record. -/
theorem Tallies.bump (h : Tallies data rs m) (hmem : mem.Succeeds) {start len : Nat}
    (hlen : (span data start len).length = len) :
    ∃ m', tmBump mem data m start len = some (some m') ∧
      Tallies data (rs ++ [(start, span data start len)]) m' := by
  obtain ⟨m, hreserve, h, hroom⟩ := h.reserve hmem
  rw [tmBump, hreserve, Option.bind_eq_bind, Option.bind_some]
  dsimp only
  have hlist := tallied_concat data rs (start, span data start len)
  generalize hw : span data start len = w at hlen hlist
  rw [tallyStep] at hlist
  have hmap := h.holds.map (TallyEntry.bytes data)
  by_cases hthere : w ∈ (tallied data rs).map (TallyEntry.bytes data)
  · obtain ⟨e, he, rfl⟩ := List.mem_map.mp (hmap.mem_iff.mpr hthere)
    obtain ⟨p, hp⟩ := mem_entries.mp he
    have hentries := h.placed.entries_update hp fun e => { e with count := e.count + 1 }
    rw [if_pos hthere] at hlist
    rw [h.placed.findSlot_eq hp, Option.bind_eq_bind, Option.bind_some, hp, Option.bind_eq_bind, Option.bind_some]
    refine ⟨_, rfl, h.placed.update hp rfl, ?_, ?_, ?_, ?_⟩
    · rw [hentries, List.length_map]
      exact h.used
    · rw [List.length_set]
      exact h.large
    · rw [List.length_set]
      exact h.room
    · rw [hentries, hlist]
      exact h.holds.map _
  · rw [if_neg hthere] at hlist
    have hbytes : TallyEntry.bytes data ⟨start, len, 1, m.used⟩ = w := hw
    have habsent : ∀ e ∈ entries m.slots, TallyEntry.bytes data e ≠ w := fun e he heq =>
      hthere (hmap.mem_iff.mp (heq ▸ List.mem_map_of_mem he))
    have hfew : (entries m.slots).length < m.slots.length := by
      have := h.used
      omega
    obtain ⟨p, hfind, hp, hway⟩ := h.placed.findSlot_free (free_of_length hfew) habsent
    have hfill := entries_fill hp (TallyEntry.mk start len 1 m.used)
    rw [hfind, Option.bind_eq_bind, Option.bind_some, hp, Option.bind_eq_bind, Option.bind_some]
    refine ⟨_, rfl, h.placed.insert hp (hbytes ▸ hway) (hbytes ▸ habsent), ?_, ?_, ?_, ?_⟩
    · rw [hfill.length_eq, List.length_cons, h.used]
    · rw [List.length_set]
      exact h.large
    · rw [List.length_set]
      exact hroom
    · have hplace : (tallied data rs).length = m.used := by rw [h.used, h.holds.length_eq]
      rw [hlist, hlen, hplace]
      exact hfill.trans ((h.holds.cons _).trans (List.perm_append_singleton _ _).symm)

/-! ## The records of the loop -/

theorem span_append {pre w rest : List UInt8} : span (pre ++ w ++ rest) pre.length w.length = w := by
  rw [span, List.append_assoc, List.drop_left, List.take_left]

theorem recordsFrom_inBuffer {ls : List (List UInt8)} {pre : List UInt8} (hdata : data = pre ++ ls.flatten)
    (hne : ∀ l ∈ ls, l ≠ []) :
    InBuffer data (recordsFrom pre.length ls) ∧ ∀ r ∈ recordsFrom pre.length ls, pre.length ≤ r.1 := by
  induction ls generalizing pre with
  | nil => exact ⟨⟨nofun, nofun, List.Pairwise.nil⟩, nofun⟩
  | cons l ls ih =>
      rw [List.flatten_cons, ← List.append_assoc] at hdata
      obtain ⟨hbuf, hle⟩ := ih hdata fun l hl => hne l (List.mem_cons_of_mem _ hl)
      rw [List.length_append] at hbuf hle
      have hpos : 0 < l.length := List.length_pos_of_ne_nil (hne l List.mem_cons_self)
      obtain ⟨s, hs⟩ := chomp_prefix 0x0a l
      refine ⟨⟨List.forall_mem_cons.mpr ⟨?_, hbuf.spans⟩, List.forall_mem_cons.mpr ⟨?_, hbuf.inside⟩,
        List.pairwise_cons.mpr ⟨fun r hr => ?_, hbuf.ascending⟩⟩,
        List.forall_mem_cons.mpr ⟨Nat.le_refl _, fun r hr => ?_⟩⟩
      · have hsplit : data = pre ++ chomp 0x0a l ++ (s ++ ls.flatten) := by
          rw [hdata, ← List.append_assoc (pre ++ _) s, List.append_assoc pre (chomp 0x0a l), hs]
        rw [hsplit]
        exact span_append
      · have hchomp : (chomp 0x0a l).length ≤ l.length := (List.IsPrefix.length_le ⟨s, hs⟩)
        rw [hdata, List.length_append, List.length_append]
        show pre.length + (chomp 0x0a l).length ≤ _
        omega
      · have := hle r hr
        show pre.length < r.1
        omega
      · have := hle r hr
        omega

theorem records_inBuffer (data : List UInt8) : InBuffer data (records data) :=
  (@recordsFrom_inBuffer data _ [] (flatten_lines data).symm fun _ hl => ne_nil_of_mem_lines hl).1

/-- **The loop** counts the records: `cur` is what has been read of the record
that starts behind `pre`. -/
theorem tallyLoop_spec (hmem : mem.Succeeds) {rest cur pre : List UInt8} {m : TallyMap} {n : Nat}
    (hdata : data = pre ++ cur ++ rest) (hcur : 0x0a ∉ cur) (h : Tallies data rs m) :
    ∃ m', tallyLoop mem data rest pre.length (pre.length + cur.length) m n
        = some (some (m', n + (recordsFrom pre.length (lines 0x0a (cur ++ rest))).length)) ∧
      Tallies data (rs ++ recordsFrom pre.length (lines 0x0a (cur ++ rest))) m' := by
  have hspan : span data pre.length cur.length = cur := by
    rw [hdata]
    exact span_append
  induction rest generalizing rs cur pre m n with
  | nil =>
      rw [tallyLoop, List.append_nil]
      by_cases hempty : cur = []
      · rw [hempty, List.length_nil, Nat.add_zero, if_neg (Nat.lt_irrefl _)]
        refine ⟨m, rfl, ?_⟩
        rw [show lines 0x0a ([] : List UInt8) = [] from rfl, recordsFrom, List.append_nil]
        exact h
      · have hpos := List.length_pos_of_ne_nil hempty
        obtain ⟨m', hbump, hnext⟩ := h.bump hmem (by rw [hspan] : (span data pre.length cur.length).length = _)
        rw [if_pos (by omega), Nat.add_sub_cancel_left, hbump, lines_last hcur hempty]
        rw [hspan] at hnext
        refine ⟨m', rfl, ?_⟩
        rw [recordsFrom, recordsFrom, chomp_of_notMem hcur]
        exact hnext
  | cons c rest ih =>
      rw [tallyLoop]
      by_cases hc : c = 0x0a
      · obtain ⟨m₁, hbump, hnext⟩ := h.bump hmem (by rw [hspan] : (span data pre.length cur.length).length = _)
        rw [hspan] at hnext
        subst hc
        rw [if_pos rfl, Nat.add_sub_cancel_left, hbump, Option.bind_eq_bind, Option.bind_some]
        dsimp only
        have hlen : (pre ++ cur ++ [0x0a]).length = pre.length + cur.length + 1 := by
          rw [List.length_append, List.length_append, List.length_singleton]
        have hdata' : data = pre ++ cur ++ [0x0a] ++ [] ++ rest := by
          rw [hdata, List.append_nil, List.append_assoc _ [0x0a], List.singleton_append]
        obtain ⟨m', hrun, hall⟩ := ih (n := n + 1) hdata' List.not_mem_nil hnext
          (by rw [span, List.length_nil, List.take_zero])
        rw [hlen, List.length_nil, Nat.add_zero, List.nil_append] at hrun
        rw [hlen, List.nil_append] at hall
        rw [lines_separated hcur, recordsFrom, chomp_concat, List.length_append, List.length_singleton,
          ← Nat.add_assoc]
        refine ⟨m', ?_, ?_⟩
        · rw [hrun, List.length_cons, Nat.add_assoc, Nat.add_comm 1]
        · rw [List.append_assoc] at hall
          exact hall
      · rw [if_neg hc]
        have hdata' : data = pre ++ (cur ++ [c]) ++ rest := by
          rw [hdata, List.append_assoc, List.append_assoc, List.append_assoc, List.singleton_append]
        have hcur' : (0x0a : UInt8) ∉ cur ++ [c] := fun hmem =>
          (List.mem_append.mp hmem).elim hcur fun hlast => hc (List.mem_singleton.mp hlast).symm
        have hspan' : span data pre.length (cur ++ [c]).length = cur ++ [c] := by
          rw [hdata']
          exact span_append
        obtain ⟨m', hrun, hall⟩ := ih (n := n) hdata' hcur' h hspan'
        rw [List.append_assoc, List.singleton_append] at hrun hall
        rw [List.length_append, List.length_singleton, ← Nat.add_assoc] at hrun
        exact ⟨m', hrun, hall⟩

end

/-! ## The words -/

theorem toNat_small {n : Nat} (h : n < 2 ^ 32) : (UInt64.ofNat n).toNat = n := by
  rw [UInt64.toNat_ofNat', Nat.mod_eq_of_lt (by omega)]

theorem invert_toNat {w : UInt64} (h : w.toNat < 2 ^ 32) : (0xFFFFFFFF - w).toNat = 2 ^ 32 - 1 - w.toNat := by
  have hmax : (0xFFFFFFFF : UInt64).toNat = 2 ^ 32 - 1 := rfl
  have hle : w ≤ 0xFFFFFFFF := by
    rw [UInt64.le_iff_toNat_le, hmax]
    omega
  rw [UInt64.toNat_sub_of_le _ _ hle, hmax]

theorem packTally_toNat {count seen : Nat} (hcount : count < 2 ^ 32) (hseen : seen < 2 ^ 32) :
    (packTally count seen).toNat = count * 2 ^ 32 + (2 ^ 32 - 1 - seen) := by
  have hhigh := toNat_small hcount
  have hlow : (0xFFFFFFFF - UInt64.ofNat seen).toNat = 2 ^ 32 - 1 - seen := by
    have hsmall := toNat_small hseen
    rw [invert_toNat (by omega), hsmall]
  rw [packTally, if_neg (by omega), shiftOr_toNat (by omega) (by omega), hhigh, hlow]

theorem unpackSeen_packTally {count seen : Nat} (hcount : count < 2 ^ 32) (hseen : seen < 2 ^ 32) :
    unpackSeen (packTally count seen) = seen := by
  have hlow : (packTally count seen &&& 0xFFFFFFFF).toNat = 2 ^ 32 - 1 - seen := by
    rw [lowHalf_toNat, packTally_toNat hcount hseen, Nat.mul_add_mod_self_right, Nat.mod_eq_of_lt (by omega)]
  rw [unpackSeen, invert_toNat (by omega), hlow]
  omega

/-- The order of the words: by count, then the earlier of two places above. -/
theorem packTally_le_iff {count seen count' seen' : Nat} (hcount : count < 2 ^ 32) (hseen : seen < 2 ^ 32)
    (hcount' : count' < 2 ^ 32) (hseen' : seen' < 2 ^ 32) :
    (packTally count seen).toNat ≤ (packTally count' seen').toNat
      ↔ count < count' ∨ count = count' ∧ seen' ≤ seen := by
  rw [packTally_toNat hcount hseen, packTally_toNat hcount' hseen']
  omega

/-! ## Packing and output -/

/-- The entry that is written for a table entry. -/
def TallyEntry.sub (e : TallyEntry) : SubTally := ⟨e.kptr, e.klen, e.count⟩

section
variable {slots : List (Option TallyEntry)} {packed : List UInt64} {seen2slot : List Nat}

def Located (slots : List (Option TallyEntry)) (seen2slot : List Nat) : Prop :=
  ∀ (p : Nat) (e : TallyEntry), slots[p]? = some (some e) → load seen2slot e.seen = some p

theorem getElem?_concat {β : Type} {xs : List β} {x y : β} {p : Nat} (h : (xs ++ [x])[p]? = some y) :
    xs[p]? = some y ∨ p = xs.length ∧ y = x := by
  by_cases hlt : p < xs.length
  · rw [List.getElem?_append_left hlt] at h
    exact .inl h
  · obtain ⟨hle, -⟩ := List.getElem?_eq_some_iff.mp h
    rw [List.length_append, List.length_singleton] at hle
    have hplace : p = xs.length := by omega
    rw [hplace, List.getElem?_append_right (Nat.le_refl _), Nat.sub_self] at h
    exact .inr ⟨hplace, (Option.some.inj h).symm⟩

theorem Located.skip {pre : List (Option TallyEntry)} (h : Located pre seen2slot) :
    Located (pre ++ [none]) seen2slot := by
  intro p e hp
  rcases getElem?_concat hp with hp | ⟨-, hnone⟩
  · exact h p e hp
  · cases hnone

theorem Located.concat {pre : List (Option TallyEntry)} {e : TallyEntry} (h : Located pre seen2slot)
    (hseen : e.seen < seen2slot.length) (hnew : ∀ e' ∈ entries pre, e'.seen ≠ e.seen) :
    Located (pre ++ [some e]) (seen2slot.set e.seen pre.length) := by
  intro p e' hp
  rw [load]
  rcases getElem?_concat hp with hp | ⟨hplace, he⟩
  · rw [List.getElem?_set_ne (hnew e' (mem_entries.mpr ⟨p, hp⟩)).symm]
    exact h p e' hp
  · rw [Option.some.inj he, hplace, List.getElem?_set_self hseen]

theorem packSlots_spec {pre rest : List (Option TallyEntry)} {junk : List UInt64}
    (hnodup : ((entries (pre ++ rest)).map TallyEntry.seen).Nodup)
    (hseen : ∀ e ∈ entries (pre ++ rest), e.seen < seen2slot.length)
    (hjunk : junk.length = (entries rest).length) (h : Located pre seen2slot) :
    ∃ seen2slot', packSlots rest pre.length (entries pre).length
        ((entries pre).map TallyEntry.word ++ junk) seen2slot
        = some ((entries (pre ++ rest)).map TallyEntry.word, seen2slot') ∧
      Located (pre ++ rest) seen2slot' := by
  induction rest generalizing pre junk seen2slot with
  | nil =>
      rw [List.eq_nil_of_length_eq_zero hjunk, List.append_nil, List.append_nil]
      exact ⟨seen2slot, rfl, h⟩
  | cons s rest ih =>
      have hsplit : pre ++ s :: rest = pre ++ [s] ++ rest := by rw [List.append_assoc, List.singleton_append]
      rw [hsplit] at hnodup hseen ⊢
      cases s with
      | none =>
          have hnone : entries (pre ++ [none]) = entries pre := by
            rw [entries_append, entries_none]
            exact List.append_nil _
          obtain ⟨seen2slot', hrun, hall⟩ := ih hnodup hseen hjunk h.skip
          rw [hnone, List.length_append, List.length_singleton] at hrun
          exact ⟨seen2slot', hrun, hall⟩
      | some e =>
          have hsome : entries (pre ++ [some e]) = entries pre ++ [e] := by
            rw [entries_append, entries_some]
            rfl
          rw [entries_some, List.length_cons] at hjunk
          obtain ⟨x, junk, rfl⟩ := List.exists_cons_of_length_eq_add_one hjunk
          have he : e ∈ entries (pre ++ [some e] ++ rest) := by
            rw [entries_append, hsome]
            exact List.mem_append_left _ (List.mem_append_right _ (List.mem_singleton.mpr rfl))
          have hnew : ∀ e' ∈ entries pre, e'.seen ≠ e.seen := by
            intro e' he' heq
            rw [entries_append, hsome, List.map_append, List.map_append, List.map_singleton] at hnodup
            exact (List.nodup_append.mp (List.nodup_append.mp hnodup).1).2.2 _ (List.mem_map_of_mem he') _
              (List.mem_singleton.mpr rfl) heq
          have hstore : store ((entries pre).map TallyEntry.word ++ x :: junk) (entries pre).length e.word
              = some ((entries pre).map TallyEntry.word ++ e.word :: junk) :=
            store_append (List.length_map _).symm
          have hplace : store seen2slot e.seen pre.length = some (seen2slot.set e.seen pre.length) :=
            if_pos (hseen e he)
          obtain ⟨seen2slot', hrun, hall⟩ := ih hnodup (by rwa [List.length_set]) (Nat.succ.inj hjunk)
            (h.concat (hseen e he) hnew)
          rw [hsome, List.map_append, List.map_singleton, List.length_append, List.length_append,
            List.length_singleton, List.length_singleton, List.append_assoc, List.singleton_append] at hrun
          refine ⟨seen2slot', ?_, hall⟩
          rw [packSlots, hstore, Option.bind_eq_bind, Option.bind_some, hplace, Option.bind_eq_bind,
            Option.bind_some]
          exact hrun

theorem emitTally_spec {front back : List TallyEntry}
    (hslot : ∀ e ∈ front ++ back, ∃ j, load seen2slot (unpackSeen e.word) = some j ∧ slots[j]? = some (some e))
    (done rest : List SubTally) :
    emitTally slots ((front ++ back).map TallyEntry.word) seen2slot front.length done.length (done ++ rest)
      = some (done ++ ((front.reverse.map TallyEntry.sub).take rest.length ++ rest.drop front.length)) := by
  induction front using List.reverseRecOn generalizing back done rest with
  | nil =>
      rw [List.reverse_nil, List.map_nil, List.take_nil]
      rfl
  | append_singleton front e ih =>
      have hsplit : front ++ [e] ++ back = front ++ (e :: back) := by rw [List.append_assoc, List.singleton_append]
      rw [hsplit] at hslot ⊢
      rw [List.length_append, List.length_singleton, emitTally, List.length_append, List.reverse_append,
        List.reverse_singleton, List.singleton_append, List.map_cons]
      cases rest with
      | nil =>
          rw [List.length_nil, Nat.add_zero, if_neg (Nat.lt_irrefl _), List.take_zero, List.drop_nil]
          rfl
      | cons x rest =>
          obtain ⟨j, hj, hentry⟩ := hslot e (List.mem_append_right _ List.mem_cons_self)
          have hword : load ((front ++ e :: back).map TallyEntry.word) front.length = some e.word := by
            rw [List.map_append, List.map_cons]
            exact load_append (List.length_map _).symm
          have hload : load slots j = some (some e) := hentry
          have hnext := ih hslot (done ++ [e.sub]) rest
          rw [List.length_append, List.length_singleton, List.append_assoc, List.singleton_append] at hnext
          rw [List.length_cons, if_pos (by omega)]
          simp only [hword, hj, hload, store_append rfl, Option.bind_eq_bind, Option.bind_some]
          refine hnext.trans ?_
          rw [List.append_assoc, List.take_succ_cons, List.drop_succ_cons]
          rfl

end

/-! ## The tally -/

section
variable {data : List UInt8} {rs : List (Nat × List UInt8)} {es L : List TallyEntry} {e e' : TallyEntry}

theorem FirstSeen.length_le (h : FirstSeen data rs es) : es.length ≤ rs.length := by
  have hsub : (es.map (TallyEntry.bytes data)).Subperm (rs.map Prod.snd) :=
    List.subperm_of_subset h.once fun w hw => (h.all w).mp hw
  have hle := hsub.length_le
  rwa [List.length_map, List.length_map] at hle

theorem FirstSeen.count_le (h : FirstSeen data rs es) (he : e ∈ es) : e.count ≤ rs.length := by
  rw [h.count e he, ← List.length_map Prod.snd]
  exact List.count_le_length

theorem FirstSeen.getElem? (h : FirstSeen data rs es) (he : e ∈ es) : es[e.seen]? = some e := by
  obtain ⟨i, hi⟩ := List.mem_iff_getElem?.mp he
  have hseen : (es.map TallyEntry.seen)[i]? = some e.seen := by rw [List.getElem?_map, hi, Option.map_some]
  obtain ⟨hlt, -⟩ := List.getElem?_eq_some_iff.mp hi
  rw [h.seen, List.getElem?_range hlt] at hseen
  rw [← Option.some.inj hseen, hi]

theorem FirstSeen.seen_lt (h : FirstSeen data rs es) (he : e ∈ es) : e.seen < es.length :=
  (List.getElem?_eq_some_iff.mp (h.getElem? he)).1

theorem FirstSeen.kptr_lt (h : FirstSeen data rs es) (he : e ∈ es) (he' : e' ∈ es) (hlt : e.seen < e'.seen) :
    e.kptr < e'.kptr := by
  obtain ⟨hi, hget⟩ := List.getElem?_eq_some_iff.mp (h.getElem? he)
  obtain ⟨hj, hget'⟩ := List.getElem?_eq_some_iff.mp (h.getElem? he')
  have hpair := List.pairwise_iff_getElem.mp h.ascending _ _ hi hj hlt
  rwa [hget, hget'] at hpair

/-- The words in ascending order name the entries from the last of the output
to the first. -/
theorem FirstSeen.ordered (h : FirstSeen data rs es) (hsmall : rs.length < 2 ^ 32) (hL : L.Perm es)
    (hsorted : Ascending SubInt.value (L.map TallyEntry.word)) :
    (L.reverse.map TallyEntry.sub).Pairwise fun t u => u.count < t.count ∨ u.count = t.count ∧ t.offset < u.offset := by
  have hdistinct : (L.map TallyEntry.seen).Nodup := by
    rw [(hL.map _).nodup_iff, h.seen]
    exact List.nodup_range
  rw [Ascending, List.pairwise_map] at hsorted
  rw [List.Nodup, List.pairwise_map] at hdistinct
  rw [List.pairwise_map, List.pairwise_reverse]
  refine (hsorted.and hdistinct).imp_of_mem fun {e e'} he he' hpair => ?_
  obtain ⟨hle, hne⟩ := hpair
  have hin := hL.mem_iff.mp he
  have hin' := hL.mem_iff.mp he'
  have hcount := h.count_le hin
  have hcount' := h.count_le hin'
  have hseen := h.seen_lt hin
  have hseen' := h.seen_lt hin'
  have hfew := h.length_le
  have hword := (packTally_le_iff (by omega) (by omega) (by omega) (by omega)).mp (Int.ofNat_le.mp hle)
  exact hword.imp_right fun hplace => ⟨hplace.1, h.kptr_lt hin' hin (by have := hplace.2; omega)⟩

theorem FirstSeen.tallied (h : FirstSeen data (records data) es) (hsmall : (records data).length < 2 ^ 32)
    (hL : L.Perm es) (hsorted : Ascending SubInt.value (L.map TallyEntry.word)) :
    Tallied data (L.reverse.map TallyEntry.sub) := by
  have hperm : (L.reverse.map TallyEntry.sub).Perm (es.map TallyEntry.sub) := ((List.reverse_perm L).trans hL).map _
  have hbytes : (es.map TallyEntry.sub).map (SubTally.bytes data) = es.map (TallyEntry.bytes data) := List.map_map ..
  have hmem : ∀ t ∈ L.reverse.map TallyEntry.sub, ∃ e ∈ es, e.sub = t := fun t ht =>
    List.mem_map.mp (hperm.mem_iff.mp ht)
  refine ⟨fun t ht => ?_, ?_, fun w => ?_, fun t ht => ?_, fun t ht => ?_, h.ordered hsmall hL hsorted⟩
  · obtain ⟨e, he, rfl⟩ := hmem t ht
    exact h.inside e he
  · rw [(hperm.map _).nodup_iff, hbytes]
    exact h.once
  · rw [(hperm.map _).mem_iff, hbytes]
    exact h.all w
  · obtain ⟨e, he, rfl⟩ := hmem t ht
    exact h.first e he
  · obtain ⟨e, he, rfl⟩ := hmem t ht
    exact h.count e he

/-- How often each word is there adds up, whatever instance compares them. -/
theorem sum_count_dedup {β : Type} [inst : BEq β] [LawfulBEq β] [DecidableEq β] (ws : List β) :
    (ws.dedup.map fun w => ws.count w).sum = ws.length := by
  obtain rfl : inst = instBEqOfDecidableEq := lawful_beq_subsingleton _ _
  exact List.sum_map_count_dedup_eq_length ws

theorem Tallied.sum_count {ts : List SubTally} (h : Tallied data ts) :
    (ts.map SubTally.count).sum = (records data).length := by
  have hperm : (ts.map (SubTally.bytes data)).Perm ((records data).map Prod.snd).dedup :=
    (List.perm_ext_iff_of_nodup h.once (List.nodup_dedup _)).mpr fun w => by rw [List.mem_dedup, h.all]
  have hsum := sum_count_dedup ((records data).map Prod.snd)
  rw [← (hperm.map _).sum_eq, List.map_map, List.length_map] at hsum
  rw [← hsum]
  exact congrArg List.sum (List.map_congr_left fun t ht => h.count t ht)

end

/-- **`sublimation_tally`**, when its allocations succeed: the number of the
distinct records, the number of records, and as much of the list of the distinct
ones as there is room for. -/
theorem sublimationTally_spec (flt : Floats) {ρ : Type} (resistance : Int → Int → ρ) (gt : ρ → ρ → Bool)
    {mem : TallyMem} (hmem : mem.Succeeds) {data : List UInt8} (hfew : (records data).length < 2 ^ 32)
    (out : List SubTally) :
    ∃ ts out', sublimationTally flt resistance gt mem data out
        = some (ts.length, (records data).length, out') ∧
      Tallied data ts ∧ out' = ts.take out.length ++ out.drop ts.length ∧
      (ts.length ≤ out.length → ((out'.take ts.length).map SubTally.count).sum = (records data).length) := by
  have hfirst := tallied_firstSeen (records_inBuffer data)
  have hloops : ∃ m, tallyLoop mem data data ([] : List UInt8).length (([] : List UInt8).length + 0) tmInit 0
        = some (some (m, 0 + (records data).length)) ∧ Tallies data (records data) m :=
    @tallyLoop_spec _ _ _ hmem data [] [] tmInit 0 rfl List.not_mem_nil (tallies_init data)
  obtain ⟨m, hloop, htallies⟩ := hloops
  have hrun : tallyLoop mem data data 0 0 tmInit 0 = some (some (m, 0 + (records data).length)) := hloop
  have hholds : (entries m.slots).Perm (tallied data (records data)) := htallies.holds
  have hused : m.used = (tallied data (records data)).length := htallies.used.trans hholds.length_eq
  generalize tallied data (records data) = es at hfirst hholds hused
  rw [Nat.zero_add] at hrun
  rw [sublimationTally, hmem.init, if_neg (by decide), hrun, Option.bind_eq_bind, Option.bind_some]
  dsimp only
  -- the list, once its output is known
  have hresult : ∀ {L : List TallyEntry} {out' : List SubTally}, L.Perm es →
      Ascending SubInt.value (L.map TallyEntry.word) →
      out' = (L.reverse.map TallyEntry.sub).take out.length ++ out.drop L.length →
      ∃ ts out'', some (m.used, (records data).length, out') = some (ts.length, (records data).length, out'') ∧
        Tallied data ts ∧ out'' = ts.take out.length ++ out.drop ts.length ∧
        (ts.length ≤ out.length → ((out''.take ts.length).map SubTally.count).sum = (records data).length) := by
    intro L out' hL hsorted hout
    have htallied := hfirst.tallied hfew hL hsorted
    have hlen : (L.reverse.map TallyEntry.sub).length = L.length := by rw [List.length_map, List.length_reverse]
    refine ⟨_, out', ?_, htallied, by rw [hout, hlen], fun hfits => ?_⟩
    · rw [hlen, hL.length_eq, hused]
    · rw [hout, List.take_of_length_le hfits, List.take_left, htallied.sum_count]
  by_cases hzero : m.used = 0
  · have hnil : es = [] := List.eq_nil_of_length_eq_zero (by omega)
    rw [if_pos hzero]
    have hnone : out = ([].reverse.map TallyEntry.sub).take out.length ++ out.drop 0 := by
      rw [List.reverse_nil, List.map_nil, List.take_nil]
      rfl
    have hempty := @hresult [] out (hnil ▸ List.Perm.refl []) List.Pairwise.nil hnone
    rwa [hzero] at hempty
  · rw [if_neg hzero]
    obtain ⟨packed, hpacked, hroom⟩ := malloc_isSome hmem.packed m.used
    obtain ⟨seen2slot, hseen2slot, hroom'⟩ := malloc_isSome hmem.seen2slot m.used
    rw [hpacked, hseen2slot]
    dsimp only
    have hdistinct : ((entries m.slots).map TallyEntry.seen).Nodup := by
      rw [(hholds.map _).nodup_iff, hfirst.seen]
      exact List.nodup_range
    have hplaces : ∀ e ∈ entries m.slots, e.seen < seen2slot.length := fun e he => by
      rw [hroom', hused]
      exact hfirst.seen_lt (hholds.mem_iff.mp he)
    have hpacks : ∃ seen2slot', packSlots m.slots 0 0 packed seen2slot
        = some ((entries m.slots).map TallyEntry.word, seen2slot') ∧ Located m.slots seen2slot' :=
      @packSlots_spec _ [] m.slots packed hdistinct hplaces (hroom.trans htallies.used)
        (fun p e hp => absurd hp nofun)
    obtain ⟨seen2slot', hpack', hlocated⟩ := hpacks
    have hsorts : ∃ sorted, sublimationU64 flt resistance gt mem.sort ((entries m.slots).map TallyEntry.word)
        = some sorted ∧ StableSort SubInt.value ((entries m.slots).map TallyEntry.word) sorted :=
      sublimationU64_spec mem.sort _
    obtain ⟨sorted, hsort, hsorted⟩ := hsorts
    obtain ⟨L, rfl, hL⟩ := (congrFun (congrFun (List.eq_map_comp_perm TallyEntry.word) sorted) _).mpr hsorted.perm
    have hall : L.Perm es := hL.trans hholds
    have hslot : ∀ e ∈ L ++ [], ∃ j, load seen2slot' (unpackSeen e.word) = some j ∧
        m.slots[j]? = some (some e) := by
      intro e he
      rw [List.append_nil] at he
      obtain ⟨j, hj⟩ := mem_entries.mp (hL.mem_iff.mp he)
      have hin := hall.mem_iff.mp he
      have hcount := hfirst.count_le hin
      have hseen := hfirst.seen_lt hin
      have hle := hfirst.length_le
      rw [TallyEntry.word, unpackSeen_packTally (by omega) (by omega)]
      exact ⟨j, hlocated j e hj, hj⟩
    have hemit := emitTally_spec hslot [] out
    rw [List.append_nil, hL.length_eq, ← htallies.used] at hemit
    have hemit' : emitTally m.slots (L.map TallyEntry.word) seen2slot' m.used 0 out
        = some ((L.reverse.map TallyEntry.sub).take out.length ++ out.drop m.used) := hemit
    rw [hpack', Option.bind_eq_bind, Option.bind_some]
    dsimp only
    rw [hsort, Option.bind_eq_bind, Option.bind_some, hemit', Option.bind_eq_bind, Option.bind_some]
    exact hresult hall hsorted.sorted (by rw [hall.length_eq, hused])

/-- A machine with memory for everything and one worker. -/
def plainSort : SortMem (RadixMem UInt64) where
  first := ⟨true, some fun _ => 0⟩
  second := ⟨true, some fun _ => 0⟩
  merge := ⟨true, fun _ => true⟩

def plainTally : TallyMem where
  init := true
  grow _ := true
  packed := some fun _ => 0
  seen2slot := some fun _ => 0
  sort := ⟨plainSort, ⟨fun _ => plainSort, true, plainSort⟩, ⟨true, 1, fun _ => 0⟩, 1⟩

/-- Three records, the last one without a newline, and room for one entry. -/
theorem sublimationTally_words :
    ∃ ts out', sublimationTally noFloats (fun x _ => x) (fun x y => y < x) plainTally
        [0x62, 0x0a, 0x61, 0x0a, 0x62] [⟨0, 0, 0⟩] = some (ts.length, 3, out') ∧
      Tallied [0x62, 0x0a, 0x61, 0x0a, 0x62] ts ∧ out' = ts.take 1 ++ List.drop ts.length [⟨0, 0, 0⟩] ∧
      (ts.length ≤ 1 → ((out'.take ts.length).map SubTally.count).sum = 3) :=
  sublimationTally_spec noFloats (fun x _ => x) (fun x y => y < x) ⟨rfl, fun _ => rfl, rfl, rfl⟩ (by decide)
    [⟨0, 0, 0⟩]

end Montauk.Text
