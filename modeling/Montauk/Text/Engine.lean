import Montauk.Automata.PosAutomaton
import Montauk.Text.Field

/-!
# Running the field

The engine half of `field.inc`: the per-byte position map, the reach
closure with its hashed memo, the full-field count `scanGnfa`, the
fixed-start walk and the whole-input match.

Everything is related to one thing, the language of the field read as a
position automaton (`Gnfa.frag`): `gnfaFull_iff` for the whole-input match
and `gnfaStartLongest_spec` for the walk. The count has its own module,
`ScanCount`.
-/

namespace Montauk

open PosAutomaton

variable {w : Nat}

/-! ## The position map and the reach closure -/

/-- `build_imap`: for each byte, the positions whose set admits it. -/
def buildImap (g : Gnfa w) (c : UInt8) : BitVec w :=
  (List.range g.npos).foldl
    (fun a i => if (g.setb i).has c then a ||| psSingle w i else a) 0

/-- `PS_FOREACH(D, i, { ps_or(out, follow[i]); })` on `out = init`. -/
def reachFollows (g : Gnfa w) (D init : BitVec w) : BitVec w :=
  (List.range w).foldl (fun out i => if D.getLsbD i then out ||| g.follow i else out) init

/-- `reach(D) = first | union(follow[i], i in D)`. -/
def reachCompute (g : Gnfa w) (D : BitVec w) : BitVec w := reachFollows g D g.first

structure ReachEnt (w : Nat) where
  used : Bool
  key : BitVec w
  reach : BitVec w

abbrev ReachCache (w : Nat) := Nat → ReachEnt w

def reachCap : Nat := 8192

/-- The memo as `reach_cache_get` hands it out: cleared. -/
def ReachCache.empty (w : Nat) : ReachCache w := fun _ => ⟨false, 0, 0⟩

/-- The slot a state set hashes to: the words mixed, the top `REACH_BITS`
bits kept. -/
def reachHash (D : BitVec w) : Nat :=
  (((List.range (w / 64)).foldl
    (fun mix i => (mix ^^^ (D >>> (64 * i)).setWidth 64) * 0x9E3779B97F4A7C15#64)
    0#64) >>> 51).toNat

/-- Linear probing for the slot of `D`; `none` once `n` probes failed,
which is a full table. -/
def reachProbe (cache : ReachCache w) (D : BitVec w) : Nat → Nat → Option Nat
  | 0, _ => none
  | n + 1, h =>
      if (cache h).used && (cache h).key != D then
        reachProbe cache D n ((h + 1) % reachCap)
      else some h

/-- `reach_of`: the closure of `D`, from the memo where it is there. -/
def reachOf (D : BitVec w) (g : Gnfa w) (cache : ReachCache w) :
    BitVec w × ReachCache w :=
  if D = 0 then (g.first, cache)
  else
    match reachProbe cache D reachCap (reachHash D) with
    | none => (reachCompute g D, cache)
    | some h =>
        if (cache h).used then ((cache h).reach, cache)
        else
          let out := reachCompute g D
          (out, fun i => if i = h then ⟨true, D, out⟩ else cache i)

/-! ## Full-field count -/

/-- The anchored loop of `scan_gnfa`, from offset `j` on. -/
def scanAnchored (g : Gnfa w) (I : UInt8 → BitVec w) :
    Nat → BitVec w → Nat → List UInt8 → Nat
  | _, _, count, [] => count
  | j, D, count, c :: rest =>
      let init := if !g.anchoredStart || j == 0 then g.first else 0
      let D := reachFollows g D init &&& I c
      let hit := D &&& g.last != 0 && (!g.anchoredEnd || rest.isEmpty)
      scanAnchored g I (j + 1) D (if hit then count + 1 else count) rest

/-- The loop without a memo, taken when its allocation failed. -/
def scanNoCache (g : Gnfa w) (I : UInt8 → BitVec w) :
    BitVec w → Nat → List UInt8 → Nat
  | _, count, [] => count
  | D, count, c :: rest =>
      let D := reachCompute g D &&& I c
      scanNoCache g I D (if D &&& g.last != 0 then count + 1 else count) rest

/-- The memoised loop; the same loop body is `gnfa_range`. -/
def scanMemo (g : Gnfa w) (I : UInt8 → BitVec w) :
    BitVec w → ReachCache w → Nat → List UInt8 → Nat × ReachCache w
  | _, cache, count, [] => (count, cache)
  | D, cache, count, c :: rest =>
      let (reach, cache) := reachOf D g cache
      let D := reach &&& I c
      scanMemo g I D cache (if D &&& g.last != 0 then count + 1 else count) rest

/-- `scan_gnfa`: full-field match-end count. `alloc` is whether the memo
could be allocated. -/
def scanGnfa (alloc : Bool) (hay : List UInt8) (g : Gnfa w) (I : UInt8 → BitVec w) : Nat :=
  if g.nullableAll && !g.anchoredStart && !g.anchoredEnd then hay.length + 1
  else if g.npos = 0 then
    if g.anchoredStart && g.anchoredEnd then (if hay.length = 0 then 1 else 0) else 1
  else if g.anchoredStart || g.anchoredEnd then scanAnchored g I 0 0 0 hay
  else if alloc then (scanMemo g I 0 (ReachCache.empty w) 0 hay).1
  else scanNoCache g I 0 0 hay

/-! ## Whole-input match and fixed-start walk -/

def gnfaFullLoop (g : Gnfa w) (I : UInt8 → BitVec w) : BitVec w → List UInt8 → Bool
  | D, [] => D &&& g.last != 0
  | D, c :: rest =>
      let D := reachFollows g D 0 &&& I c
      if D = 0 then false else gnfaFullLoop g I D rest

/-- `gnfa_full`: does the field match `hay` end to end? -/
def gnfaFull (g : Gnfa w) (I : UInt8 → BitVec w) (hay : List UInt8) : Bool :=
  match hay with
  | [] => g.nullableAll
  | c :: rest =>
      let D := g.first &&& I c
      if D = 0 then false else gnfaFullLoop g I D rest

/-- The loop of `gnfa_start_longest`, at offset `j` with `rest` ahead. -/
def startLongestLoop (g : Gnfa w) (I : UInt8 → BitVec w) :
    Bool → BitVec w → Nat → Option Nat → List UInt8 → Option Nat
  | _, _, _, best, [] => best
  | consumed, D, j, best, c :: rest =>
      let cand := if consumed then reachFollows g D 0 else g.first
      let D := cand &&& I c
      if D = 0 then best
      else
        let hit := D &&& g.last != 0 && (!g.anchoredEnd || rest.isEmpty)
        startLongestLoop g I true D (j + 1) (if hit then some (j + 1) else best) rest

/-- `gnfa_start_longest`: the longest match end for a match starting
exactly at `start`; `none` is the source's `-1`. -/
def gnfaStartLongest (g : Gnfa w) (I : UInt8 → BitVec w) (hay : List UInt8)
    (start : Nat) : Option Nat :=
  startLongestLoop g I false 0 start
    (if g.nullableAll && (!g.anchoredEnd || start == hay.length) then some start else none)
    (hay.drop start)

/-! ## The field as a position automaton -/

/-- The field read as a position automaton. -/
def Gnfa.frag (g : Gnfa w) (I : UInt8 → BitVec w) : Frag UInt8 Nat where
  sym p := {c | (I c).getLsbD p}
  fol p q := (g.follow p).getLsbD q
  first := {p | g.first.getLsbD p}
  last := {p | g.last.getLsbD p}
  nul := g.nullableAll

def bits (D : BitVec w) : Set Nat := {p | D.getLsbD p}

@[simp] theorem mem_bits {D : BitVec w} {p : Nat} : p ∈ bits D ↔ D.getLsbD p = true :=
  Iff.rfl

theorem bits_zero : bits (0#w) = ∅ := by
  ext p
  simp

theorem getLsbD_psSingle {p q : Nat} (hp : p < w) :
    (psSingle w p).getLsbD q = decide (q = p) := by
  simp only [psSingle, BitVec.getLsbD_shiftLeft, BitVec.getLsbD_one]
  by_cases h : q = p
  · subst h; simp [hp]; omega
  · by_cases hlt : q < p
    · simp [hlt, h]
    · have : q - p ≠ 0 := by omega
      simp [h, this]

theorem and_ne_zero_iff {D E : BitVec w} :
    (D &&& E != 0) = true ↔ ∃ p, p ∈ bits D ∧ p ∈ bits E := by
  rw [bne_iff_ne, ne_eq, ← not_iff_not, not_not]
  simp only [mem_bits, not_exists]
  constructor
  · intro h p hp
    have := congrArg (fun b => b.getLsbD p) h
    simp [BitVec.getLsbD_and, hp.1, hp.2] at this
  · intro h
    refine BitVec.eq_of_getLsbD_eq fun p _ => ?_
    have := h p
    simpa [BitVec.getLsbD_and] using this

theorem eq_zero_iff {D : BitVec w} : D = 0 ↔ bits D = ∅ := by
  constructor
  · rintro rfl
    exact bits_zero
  · intro h
    refine BitVec.eq_of_getLsbD_eq fun p _ => ?_
    have hp : p ∉ bits D := by rw [h]; exact Set.notMem_empty p
    simpa using hp

theorem getLsbD_foldl_or (f : Nat → BitVec w) (P : Nat → Bool) (q : Nat) :
    ∀ (l : List Nat) (a : BitVec w),
      (l.foldl (fun out i => if P i then out ||| f i else out) a).getLsbD q
        = (a.getLsbD q || l.any fun i => P i && (f i).getLsbD q)
  | [], a => by simp
  | i :: l, a => by
      rw [List.foldl_cons, getLsbD_foldl_or f P q l, List.any_cons]
      cases h : P i <;> simp [Bool.or_assoc]

theorem mem_bits_reachFollows {g : Gnfa w} {D init : BitVec w} {q : Nat} :
    q ∈ bits (reachFollows g D init)
      ↔ q ∈ bits init ∨ ∃ p ∈ bits D, (g.follow p).getLsbD q = true := by
  simp only [reachFollows, mem_bits, getLsbD_foldl_or, Bool.or_eq_true, List.any_eq_true,
    Bool.and_eq_true, List.mem_range]
  refine or_congr Iff.rfl ⟨fun ⟨p, _, hp⟩ => ⟨p, hp⟩, fun ⟨p, hp⟩ => ⟨p, ?_, hp⟩⟩
  exact BitVec.lt_of_getLsbD hp.1

theorem mem_buildImap {g : Gnfa w} (hw : g.npos ≤ w) {c : UInt8} {p : Nat} :
    (buildImap g c).getLsbD p = true ↔ p < g.npos ∧ (g.setb p).has c = true := by
  simp only [buildImap, getLsbD_foldl_or, BitVec.ofNat_eq_ofNat, BitVec.getLsbD_zero,
    Bool.false_or, List.any_eq_true, List.mem_range, Bool.and_eq_true]
  constructor
  · rintro ⟨i, hi, hc, hp⟩
    rw [getLsbD_psSingle (by omega), decide_eq_true_eq] at hp
    exact hp ▸ ⟨hi, hc⟩
  · rintro ⟨hp, hc⟩
    refine ⟨p, hp, hc, ?_⟩
    rw [getLsbD_psSingle (by omega)]
    simp

/-! ## The step of each loop, on sets -/

variable {g : Gnfa w} {I : UInt8 → BitVec w}

theorem bits_step (D init : BitVec w) (c : UInt8) :
    bits (reachFollows g D init &&& I c)
      = {r | (r ∈ bits init ∨ ∃ q ∈ bits D, (g.frag I).fol q r) ∧ c ∈ (g.frag I).sym r} := by
  ext r
  rw [mem_bits, BitVec.getLsbD_and, Bool.and_eq_true, ← mem_bits, mem_bits_reachFollows]
  rfl

theorem bits_first (c : UInt8) :
    bits (g.first &&& I c) = (g.frag I).ends [c] := by
  rw [Frag.ends_singleton]
  ext r
  rw [mem_bits, BitVec.getLsbD_and, Bool.and_eq_true]
  rfl

theorem bits_ends_snoc {D : BitVec w} {u : List UInt8} (hu : u ≠ [])
    (hD : bits D = (g.frag I).ends u) (c : UInt8) :
    bits (reachFollows g D 0 &&& I c) = (g.frag I).ends (u ++ [c]) := by
  rw [bits_step, Frag.ends_snoc hu, hD]
  ext r
  simp [bits_zero]

theorem bits_sweep_snoc {D : BitVec w} {u : List UInt8}
    (hD : bits D = (g.frag I).sweep u) (c : UInt8) :
    bits (reachFollows g D g.first &&& I c) = (g.frag I).sweep (u ++ [c]) := by
  rw [bits_step, Frag.sweep_snoc, hD]
  rfl

theorem accepts_of_bits {D : BitVec w} {u : List UInt8} (hu : u ≠ [])
    (hD : bits D = (g.frag I).ends u) :
    (D &&& g.last != 0) = true ↔ u ∈ (g.frag I).lang := by
  rw [and_ne_zero_iff, hD, Frag.mem_lang_iff_ends hu]
  exact exists_congr fun p => and_comm

theorem not_mem_of_ends_empty {u v : List UInt8} (hu : u ≠ [])
    (h : (g.frag I).ends u = ∅) : u ++ v ∉ (g.frag I).lang := by
  have hends : ∀ v, (g.frag I).ends (u ++ v) = ∅ := by
    intro v
    induction v using List.reverseRecOn with
    | nil => rwa [List.append_nil]
    | append_singleton v c ih =>
        rw [← List.append_assoc, Frag.ends_snoc (by simp [hu]), ih]
        ext r
        simp
  rw [Frag.mem_lang_iff_ends (by simp [hu]), hends]
  simp

/-! ## The whole-input match -/

theorem gnfaFullLoop_iff :
    ∀ (v u : List UInt8) (D : BitVec w), u ≠ [] → bits D = (g.frag I).ends u →
      (gnfaFullLoop g I D v = true ↔ u ++ v ∈ (g.frag I).lang)
  | [], u, D, hu, hD => by
      rw [gnfaFullLoop, accepts_of_bits hu hD, List.append_nil]
  | c :: v, u, D, hu, hD => by
      have hD' := bits_ends_snoc hu hD c
      have hsplit : u ++ c :: v = (u ++ [c]) ++ v := by simp
      rw [gnfaFullLoop]
      split
      · rename_i h0
        rw [eq_zero_iff, hD'] at h0
        rw [hsplit]
        simpa using not_mem_of_ends_empty (by simp) h0
      · rw [gnfaFullLoop_iff v (u ++ [c]) _ (by simp) hD', hsplit]

/-- **The whole-input match** accepts exactly the language of the field. -/
theorem gnfaFull_iff (hay : List UInt8) :
    gnfaFull g I hay = true ↔ hay ∈ (g.frag I).lang := by
  cases hay with
  | nil =>
      rw [gnfaFull, Frag.nil_mem_lang]
      rfl
  | cons c rest =>
      have hD := bits_first (g := g) (I := I) c
      rw [gnfaFull]
      split
      · rename_i h0
        rw [eq_zero_iff, hD] at h0
        have := not_mem_of_ends_empty (v := rest) (by simp) h0
        simpa using this
      · rw [gnfaFullLoop_iff rest [c] _ (by simp) hD]
        rfl

/-! ## Matches in a haystack -/

/-- `text[s..e)`. -/
def slice (hay : List UInt8) (s e : Nat) : List UInt8 := (hay.drop s).take (e - s)

/-- `text[s..e)` is a match that honours the anchors. -/
structure Gnfa.Match (g : Gnfa w) (I : UInt8 → BitVec w) (hay : List UInt8) (s e : Nat) :
    Prop where
  le : s ≤ e
  bound : e ≤ hay.length
  start : g.anchoredStart = true → s = 0
  stop : g.anchoredEnd = true → e = hay.length
  full : gnfaFull g I (slice hay s e) = true

theorem slice_self (hay : List UInt8) (s : Nat) : slice hay s s = [] := by
  simp [slice]

theorem length_slice {hay : List UInt8} {s e : Nat} (hb : e ≤ hay.length) :
    (slice hay s e).length = e - s := by
  simp only [slice, List.length_take, List.length_drop]
  omega

theorem slice_append_drop {hay : List UInt8} {s e : Nat} (h : s ≤ e) :
    slice hay s e ++ hay.drop e = hay.drop s := by
  have : hay.drop e = (hay.drop s).drop (e - s) := by
    rw [List.drop_drop]; congr 1; omega
  rw [slice, this, List.take_append_drop]

theorem take_append_slice {hay : List UInt8} {s e : Nat} (h : s ≤ e) :
    hay.take s ++ slice hay s e = hay.take e := by
  have he : e = s + (e - s) := by omega
  conv_rhs => rw [he, List.take_add]
  rfl

theorem slice_succ {hay : List UInt8} {s e : Nat} {c : UInt8} (h : s ≤ e)
    (hc : hay[e]? = some c) : slice hay s (e + 1) = slice hay s e ++ [c] := by
  have hsub : e + 1 - s = e - s + 1 := by omega
  have hget : (hay.drop s)[e - s]? = some c := by
    rw [List.getElem?_drop]; convert hc using 2; omega
  rw [slice, slice, hsub, List.take_add_one, hget]
  rfl

/-! ## The fixed-start walk -/

/-- An end the walk from `start` reports: the match honours the trailing
anchor, the leading one is the caller's business. -/
structure Gnfa.EndAt (g : Gnfa w) (I : UInt8 → BitVec w) (hay : List UInt8) (s e : Nat) :
    Prop where
  le : s ≤ e
  bound : e ≤ hay.length
  stop : g.anchoredEnd = true → e = hay.length
  full : gnfaFull g I (slice hay s e) = true

/-- The walk invariant at offset `j`: `D` holds the positions after
`text[s..j)`, and `best` is the greatest end up to `j`. -/
structure WalkInv (g : Gnfa w) (I : UInt8 → BitVec w) (hay : List UInt8) (s j : Nat)
    (consumed : Bool) (D : BitVec w) (best : Option Nat) : Prop where
  le : s ≤ j
  consumed : consumed = true ↔ s < j
  held : s < j → bits D = (g.frag I).ends (slice hay s j)
  best_ge : ∀ e ≤ j, g.EndAt I hay s e → ∃ b, best = some b ∧ e ≤ b
  best_end : ∀ b, best = some b → g.EndAt I hay s b

theorem WalkInv.step_held {hay : List UInt8} {s j : Nat} {consumed : Bool}
    {D : BitVec w} {best : Option Nat} {c : UInt8}
    (h : WalkInv g I hay s j consumed D best) (hc : hay[j]? = some c) :
    bits ((if consumed then reachFollows g D 0 else g.first) &&& I c)
      = (g.frag I).ends (slice hay s (j + 1)) := by
  rw [slice_succ h.le hc]
  rcases Nat.lt_or_eq_of_le h.le with hlt | rfl
  · rw [if_pos (h.consumed.mpr hlt)]
    have hne : slice hay s j ≠ [] := by
      have hj : j < hay.length := (List.getElem?_eq_some_iff.mp hc).1
      rw [← List.length_pos_iff, length_slice hj.le]
      omega
    exact bits_ends_snoc hne (h.held hlt) c
  · have : ¬ consumed = true := fun hh => Nat.lt_irrefl _ (h.consumed.mp hh)
    rw [if_neg this, slice_self]
    exact bits_first c

theorem startLongestLoop_spec {hay : List UInt8} {s : Nat} :
    ∀ (rest : List UInt8) (consumed : Bool) (D : BitVec w) (j : Nat) (best : Option Nat),
      hay.drop j = rest → WalkInv g I hay s j consumed D best →
      (∀ e, g.EndAt I hay s e →
        ∃ b, startLongestLoop g I consumed D j best rest = some b ∧ e ≤ b)
        ∧ ∀ b, startLongestLoop g I consumed D j best rest = some b → g.EndAt I hay s b
  | [], consumed, D, j, best, hrest, h => by
      have hj : hay.length ≤ j := List.drop_eq_nil_iff.mp hrest
      rw [startLongestLoop]
      exact ⟨fun e he => h.best_ge e (he.bound.trans hj) he, h.best_end⟩
  | c :: rest, consumed, D, j, best, hrest, h => by
      have hc : hay[j]? = some c := by
        rw [← List.head?_drop, hrest]; rfl
      have hj : j < hay.length := (List.getElem?_eq_some_iff.mp hc).1
      have hrest' : hay.drop (j + 1) = rest := by
        rw [← List.drop_drop, hrest]; rfl
      have hheld := h.step_held hc
      have hle := h.le
      have hne : slice hay s (j + 1) ≠ [] := by
        rw [← List.length_pos_iff, length_slice hj]
        omega
      simp only [startLongestLoop]
      set D' := (if consumed = true then reachFollows g D 0 else g.first) &&& I c
      by_cases h0 : D' = 0
      · -- no position is held: no longer end exists
        rw [if_pos h0]
        rw [eq_zero_iff, hheld] at h0
        refine ⟨fun e he => ?_, h.best_end⟩
        rcases Nat.lt_or_ge j e with hlt | hge
        · have hsplit : slice hay s e = slice hay s (j + 1) ++ slice hay (j + 1) e := by
            have hcat : hay.take s ++ slice hay s e
                = hay.take s ++ (slice hay s (j + 1) ++ slice hay (j + 1) e) := by
              rw [take_append_slice he.le, ← List.append_assoc,
                take_append_slice (by omega), take_append_slice (by omega)]
            exact List.append_cancel_left hcat
          have hfull := (gnfaFull_iff _).mp he.full
          rw [hsplit] at hfull
          exact absurd hfull (not_mem_of_ends_empty hne h0)
        · exact h.best_ge e hge he
      · rw [if_neg h0]
        have hhit : (D' &&& g.last != 0 && (!g.anchoredEnd || rest.isEmpty)) = true
            ↔ g.EndAt I hay s (j + 1) := by
          rw [Bool.and_eq_true, accepts_of_bits hne hheld, ← gnfaFull_iff]
          have hlast : rest.isEmpty = true ↔ j + 1 = hay.length := by
            rw [List.isEmpty_iff, ← hrest', List.drop_eq_nil_iff]
            omega
          rw [Bool.or_eq_true, Bool.not_eq_true', hlast]
          constructor
          · rintro ⟨hf, ha⟩
            refine ⟨by omega, hj, fun hE => ?_, hf⟩
            exact ha.resolve_left (by simp [hE])
          · intro he
            refine ⟨he.full, ?_⟩
            cases hE : g.anchoredEnd with
            | false => exact Or.inl rfl
            | true => exact Or.inr (he.stop hE)
        refine startLongestLoop_spec rest true D' (j + 1) _ hrest' ?_
        refine ⟨by omega, by simp; omega, fun _ => hheld, ?_, ?_⟩
        · intro e he hend
          split
          · exact ⟨j + 1, rfl, he⟩
          · rename_i hno
            rcases Nat.lt_or_eq_of_le he with hlt | rfl
            · exact h.best_ge e (by omega) hend
            · exact absurd (hhit.mpr hend) hno
        · intro b hb
          split at hb
          · rename_i hyes
            obtain rfl := Option.some.inj hb
            exact hhit.mp hyes
          · exact h.best_end b hb

theorem endAt_self {hay : List UInt8} {s : Nat} (hs : s ≤ hay.length) :
    g.EndAt I hay s s
      ↔ (g.nullableAll && (!g.anchoredEnd || s == hay.length)) = true := by
  have hfull : gnfaFull g I (slice hay s s) = g.nullableAll := by
    rw [slice_self, gnfaFull]
  constructor
  · intro h
    have := h.full
    rw [hfull] at this
    cases hE : g.anchoredEnd with
    | false => simp [this]
    | true => simp [this, h.stop hE]
  · intro h
    rw [Bool.and_eq_true, Bool.or_eq_true, Bool.not_eq_true', beq_iff_eq] at h
    refine ⟨le_rfl, hs, fun hE => ?_, hfull.trans h.1⟩
    exact h.2.resolve_left (by simp [hE])

/-- **The fixed-start walk** reports the greatest end of a match from
`s`, and nothing when there is none. -/
theorem gnfaStartLongest_spec {hay : List UInt8} {s : Nat} (hs : s ≤ hay.length) :
    (∀ e, g.EndAt I hay s e → ∃ b, gnfaStartLongest g I hay s = some b ∧ e ≤ b)
      ∧ ∀ b, gnfaStartLongest g I hay s = some b → g.EndAt I hay s b := by
  rw [gnfaStartLongest]
  refine startLongestLoop_spec _ _ _ _ _ rfl ⟨le_rfl, by simp, by simp, ?_, ?_⟩
  · intro e he hend
    obtain rfl := le_antisymm he hend.le
    exact ⟨e, if_pos ((endAt_self hs).mp hend), le_rfl⟩
  · intro b hb
    split at hb
    · rename_i hyes
      obtain rfl := Option.some.inj hb
      exact (endAt_self hs).mpr hyes
    · cases hb

end Montauk
