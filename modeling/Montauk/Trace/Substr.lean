import Montauk.Text.Literals
import Montauk.Trace.Tracking

/-!
# The pattern match in the kernel

`bpf_substr_match` copies the haystack into a scratch buffer of 64 bytes,
lower-cases it there and tries one offset after the other. The verifier wants
to see every offset bounded, so each comparison starts at `pos & 31`: the loop
goes on to `hay_len - need_len`, the comparisons start over behind 31. A
pattern that only occurs further back is not found (`bpfSubstrMatch_iff`).

`Trace.bpfSubstrMatch`, which the handlers use, is this function without its
buffer (`bpfSubstrMatch_eq`).
-/

namespace Montauk.Trace.Bpf

/-! ## The function -/

def tracePatternMax : Nat := 32

/-- `bpf_strncmp(s1, n, s2)`; there is no result when it reads behind a buffer. -/
def bpfStrncmp : Nat → List UInt8 → List UInt8 → Option Int
  | 0, _, _ => some 0
  | n + 1, c :: s, d :: t =>
      if c ≠ d then some ((c.toNat : Int) - d.toNat)
      else if c = 0 then some 0
      else bpfStrncmp n s t
  | _ + 1, _, _ => none

/-- `match_at_pos`: what it returns (1 stops the loop), and `ctx->found`. -/
def matchAtPos (data pattern : List UInt8) (needLen hayLen pos : Nat) : Option (Bool × Bool) :=
  if needLen = 0 ∨ tracePatternMax < needLen then some (true, false)
  else if hayLen < pos + needLen then some (true, false)
  else do
    let safePos := pos &&& 31
    let c ← bpfStrncmp needLen (data.drop safePos) pattern
    if c = 0 then some (true, true) else some (false, false)

/-- `bpf_loop(n, match_at_pos, &ctx, 0)` from round `i` on. -/
def bpfLoop (data pattern : List UInt8) (needLen hayLen : Nat) : Nat → Nat → Option Bool
  | 0, _ => some false
  | n + 1, i => do
      let (stop, found) ← matchAtPos data pattern needLen hayLen i
      if stop then some found else bpfLoop data pattern needLen hayLen n (i + 1)

/-- The loop that lower-cases the first `n` bytes. -/
def lowerFront : Nat → List UInt8 → List UInt8
  | 0, data => data
  | _ + 1, [] => []
  | n + 1, c :: data => lowerAscii c :: lowerFront n data

/-- `bpf_substr_match`, with what the scratch buffer holds from the call before. -/
def bpfSubstrMatch (scratch haystack : List UInt8) (hayLen : Int) (pattern : List UInt8)
    (needLen : Int) : Option Bool :=
  if needLen ≤ 0 ∨ hayLen ≤ 0 ∨ hayLen < needLen then some false
  else
    let hayLen := if 64 < hayLen then 64 else hayLen.toNat
    let needLen := if (tracePatternMax : Int) < needLen then tracePatternMax else needLen.toNat
    let n := hayLen &&& 63
    let data := haystack.take n ++ scratch.drop n
    bpfLoop (lowerFront hayLen data) pattern needLen hayLen hayLen 0

/-- `trace_pat.pattern` when `p` is stored in it. -/
def tracePat (p : List UInt8) : List UInt8 := p ++ List.replicate (tracePatternMax - p.length) 0

/-! ## The rule -/

/-- The pattern occurs at offset `i` of the lower-cased haystack. -/
def OccursAt (hay p : List UInt8) (i : Nat) : Prop :=
  i + p.length ≤ hay.length ∧ ((hay.map lowerAscii).drop i).take p.length = p

instance (hay p : List UInt8) (i : Nat) : Decidable (OccursAt hay p i) :=
  inferInstanceAs (Decidable (_ ∧ _))

variable {hay p : List UInt8} {n i pos : Nat}

theorem bpfStrncmp_spec {q : List UInt8} (s rest : List UInt8) (hnul : 0 ∉ q) (hlen : q.length ≤ s.length) :
    ∃ r, bpfStrncmp q.length s (q ++ rest) = some r ∧ (r = 0 ↔ s.take q.length = q) := by
  induction q generalizing s with
  | nil => exact ⟨0, rfl, iff_of_true rfl rfl⟩
  | cons d q ih =>
      cases s with
      | nil => exact absurd hlen (Nat.not_succ_le_zero _)
      | cons c s =>
          rw [List.length_cons, List.cons_append, bpfStrncmp, List.take_succ_cons, List.cons.injEq]
          by_cases hcd : c = d
          · have hc : c ≠ 0 := fun h => hnul (by rw [← h, hcd]; exact List.mem_cons_self)
            rw [if_neg (not_not.mpr hcd), if_neg hc]
            obtain ⟨r, hr, hiff⟩ := ih s (fun h => hnul (List.mem_cons_of_mem _ h))
              (Nat.le_of_succ_le_succ hlen)
            exact ⟨r, hr, by rw [hiff]; exact ⟨fun h => ⟨hcd, h⟩, fun h => h.2⟩⟩
          · rw [if_pos hcd]
            refine ⟨_, rfl, iff_of_false (fun h => hcd ?_) fun h => hcd h.1⟩
            exact UInt8.toNat_inj.mp (by omega)

theorem lowerFront_append (hay rest : List UInt8) :
    lowerFront hay.length (hay ++ rest) = hay.map lowerAscii ++ rest := by
  induction hay with
  | nil => rfl
  | cons c hay ih => rw [List.length_cons, List.cons_append, lowerFront, ih, List.map_cons, List.cons_append]

/-! ## What it finds -/

/-- One offset: the comparison starts at `pos & 31`, and stays inside of the
buffer. -/
theorem matchAtPos_spec (rest : List UInt8) (hp : 0 < p.length ∧ p.length ≤ tracePatternMax)
    (hnul : 0 ∉ p) (hpos : pos + p.length ≤ hay.length) :
    ∃ found, matchAtPos (hay.map lowerAscii ++ rest) (tracePat p) p.length hay.length pos
        = some (found, found)
      ∧ (found = true ↔ OccursAt hay p (pos % 32)) := by
  have hmask : pos &&& 31 = pos % 32 := Nat.and_two_pow_sub_one_eq_mod pos 5
  have hle : pos % 32 ≤ pos := Nat.mod_le _ _
  have hfit : (hay.map lowerAscii).length = hay.length := List.length_map _
  have hdrop : (hay.map lowerAscii ++ rest).drop (pos % 32)
      = (hay.map lowerAscii).drop (pos % 32) ++ rest :=
    List.drop_append_of_le_length (by omega)
  have hwindow : p.length ≤ ((hay.map lowerAscii).drop (pos % 32)).length := by
    rw [List.length_drop]
    omega
  obtain ⟨r, hr, hiff⟩ := bpfStrncmp_spec ((hay.map lowerAscii).drop (pos % 32) ++ rest)
    (List.replicate (tracePatternMax - p.length) 0) hnul (by rw [List.length_append]; omega)
  rw [List.take_append_of_le_length hwindow] at hiff
  have hocc : OccursAt hay p (pos % 32) ↔ r = 0 := by
    rw [hiff, OccursAt]
    exact ⟨fun h => h.2, fun h => ⟨by omega, h⟩⟩
  rw [matchAtPos, if_neg (by omega), if_neg (by omega), hmask]
  dsimp only
  rw [hdrop, tracePat, hr, Option.bind_eq_bind, Option.bind_some, hocc]
  by_cases hr0 : r = 0
  · exact ⟨true, if_pos hr0, iff_of_true rfl hr0⟩
  · exact ⟨false, if_neg hr0, iff_of_false Bool.false_ne_true hr0⟩

theorem bpfLoop_spec (rest : List UInt8) (hp : 0 < p.length ∧ p.length ≤ tracePatternMax)
    (hnul : 0 ∉ p) (hn : i + n = hay.length) :
    ∃ found, bpfLoop (hay.map lowerAscii ++ rest) (tracePat p) p.length hay.length n i = some found
      ∧ (found = true ↔ ∃ pos, i ≤ pos ∧ pos + p.length ≤ hay.length ∧ OccursAt hay p (pos % 32)) := by
  induction n generalizing i with
  | zero =>
      refine ⟨false, rfl, iff_of_false Bool.false_ne_true ?_⟩
      rintro ⟨pos, hi, hfit, -⟩
      omega
  | succ n ih =>
      rw [bpfLoop]
      by_cases hfit : i + p.length ≤ hay.length
      · obtain ⟨found, hmatch, hiff⟩ := matchAtPos_spec rest hp hnul hfit
        rw [hmatch, Option.bind_eq_bind, Option.bind_some]
        cases hf : found with
        | true => exact ⟨true, rfl, iff_of_true rfl ⟨i, le_refl i, hfit, hiff.mp hf⟩⟩
        | false =>
            obtain ⟨found', hloop, hiff'⟩ := ih (i := i + 1) (by omega)
            refine ⟨found', hloop, hiff'.trans ⟨?_, ?_⟩⟩
            · rintro ⟨pos, hi, h⟩
              exact ⟨pos, by omega, h⟩
            · rintro ⟨pos, hi, hle, hocc⟩
              have hne : pos ≠ i := by
                rintro rfl
                rw [hiff.mpr hocc] at hf
                exact absurd hf.symm Bool.false_ne_true
              exact ⟨pos, by omega, hle, hocc⟩
      · have hmatch : matchAtPos (hay.map lowerAscii ++ rest) (tracePat p) p.length hay.length i
            = some (true, false) := by
          rw [matchAtPos, if_neg (by omega), if_pos (by omega)]
        rw [hmatch]
        refine ⟨false, rfl, iff_of_false Bool.false_ne_true ?_⟩
        rintro ⟨pos, hi, hle, -⟩
        omega

/-- The call on a haystack of up to 63 bytes finds what starts in front of 32. -/
theorem bpfSubstrMatch_spec (scratch : List UInt8) (hp : 0 < p.length ∧ p.length ≤ tracePatternMax) (hnul : 0 ∉ p)
    (hlen : hay.length ≤ 63) :
    ∃ found, bpfSubstrMatch scratch hay hay.length (tracePat p) p.length = some found
      ∧ (found = true ↔ ∃ i < 32, OccursAt hay p i) := by
  rw [bpfSubstrMatch]
  by_cases hshort : (p.length : Int) ≤ 0 ∨ (hay.length : Int) ≤ 0 ∨ (hay.length : Int) < p.length
  · rw [if_pos hshort]
    refine ⟨false, rfl, iff_of_false Bool.false_ne_true ?_⟩
    rintro ⟨i, -, hfit, -⟩
    omega
  · have hmax : ¬ (tracePatternMax : Int) < p.length := by
      have := hp.2
      omega
    have hmask : hay.length &&& 63 = hay.length := by
      have hmod : hay.length &&& 63 = hay.length % 64 := Nat.and_two_pow_sub_one_eq_mod _ 6
      omega
    rw [if_neg hshort]
    dsimp only
    rw [if_neg (by omega), if_neg hmax, Int.toNat_natCast, Int.toNat_natCast, hmask, List.take_length,
      lowerFront_append]
    obtain ⟨found, hloop, hiff⟩ := bpfLoop_spec (scratch.drop hay.length) hp hnul
      (Nat.zero_add hay.length)
    refine ⟨found, hloop, hiff.trans ⟨?_, ?_⟩⟩
    · rintro ⟨pos, -, -, hocc⟩
      exact ⟨pos % 32, Nat.mod_lt _ (by omega), hocc⟩
    · rintro ⟨i, hi, hocc⟩
      exact ⟨i, Nat.zero_le i, hocc.1, by rwa [Nat.mod_eq_of_lt hi]⟩

theorem bpfSubstrMatch_eq (scratch : List UInt8) (hp : 0 < p.length ∧ p.length ≤ tracePatternMax) (hnul : 0 ∉ p)
    (hlen : hay.length ≤ 63) :
    bpfSubstrMatch scratch hay hay.length (tracePat p) p.length = some (Trace.bpfSubstrMatch hay p) := by
  obtain ⟨found, hrun, hiff⟩ := bpfSubstrMatch_spec scratch hp hnul hlen
  have hsame : Trace.bpfSubstrMatch hay p = true ↔ ∃ i < 32, OccursAt hay p i := by
    rw [Trace.bpfSubstrMatch]
    by_cases hshort : p = [] ∨ hay = [] ∨ hay.length < p.length
    · rw [if_pos hshort]
      refine iff_of_false Bool.false_ne_true ?_
      rintro ⟨i, -, hfit, -⟩
      rcases hshort with rfl | rfl | h
      · exact absurd hp.1 (Nat.lt_irrefl 0)
      · rw [List.length_nil] at hfit
        omega
      · omega
    · rw [if_neg hshort]
      dsimp only
      rw [List.take_of_length_le (by omega : hay.length ≤ 64), List.length_map, List.any_eq_true]
      simp only [List.mem_range, Bool.and_eq_true, decide_eq_true_eq, beq_iff_eq]
      constructor
      · rintro ⟨pos, hpos, hfit, hocc⟩
        exact ⟨pos % 32, Nat.mod_lt _ (by omega), by have := Nat.mod_le pos 32; omega, hocc⟩
      · rintro ⟨i, hi, hfit, hocc⟩
        exact ⟨i, by omega, hfit, by rwa [Nat.mod_eq_of_lt hi]⟩
  rw [hrun]
  congr 1
  rw [Bool.eq_iff_iff, hiff, hsame]

/-! ## Against userspace -/

theorem occursAt_append_iff {s : List UInt8} (hpos : 0 < p.length) (hnul : 0 ∉ p) (n : Nat) :
    OccursAt (s ++ List.replicate n 0) p i ↔ OccursAt s p i := by
  rw [OccursAt, OccursAt, List.length_append, List.length_replicate, List.map_append,
    List.map_replicate]
  have hzero : lowerAscii 0 = 0 := rfl
  rw [hzero]
  constructor
  · rintro ⟨hfit, hocc⟩
    have hinside : i + p.length ≤ s.length := by
      by_contra hout
      refine hnul ?_
      have hlast : p[p.length - 1]? = some 0 := by
        rw [← hocc, List.getElem?_take_of_lt (by rw [hocc]; omega), List.getElem?_drop, hocc,
          List.getElem?_append_right (by rw [List.length_map]; omega), List.length_map,
          List.getElem?_replicate, if_pos (by omega)]
      exact List.mem_of_getElem? hlast
    refine ⟨hinside, ?_⟩
    rwa [List.drop_append_of_le_length (by rw [List.length_map]; omega),
      List.take_append_of_le_length (by rw [List.length_drop, List.length_map]; omega)] at hocc
  · rintro ⟨hfit, hocc⟩
    refine ⟨by omega, ?_⟩
    rwa [List.drop_append_of_le_length (by rw [List.length_map]; omega),
      List.take_append_of_le_length (by rw [List.length_drop, List.length_map]; omega)]

/-- The matcher of userspace looks at the string in front of the padding, and
finds the pattern at any offset of it. -/
theorem searchFind_iff (hp : 0 < p.length ∧ p.length ≤ tracePatternMax) (hnul : 0 ∉ p)
    (hlower : p.map lowerAscii = p) (s : List UInt8) (n : Nat) :
    (searchFind (searchCompile p ⟨true, true⟩ 0) s).isSome = true
      ↔ ∃ i, OccursAt (s ++ List.replicate n 0) p i := by
  simp only [occursAt_append_iff hp.1 hnul]
  have hshort : p.length ≤ searchMaxPattern := Nat.le_trans hp.2 (by decide)
  obtain ⟨hvalid, hmode, hpattern, hicase⟩ :=
    searchCompile_fixed true (List.ne_nil_of_length_pos hp.1) hshort
  have hmatch : ∀ st e, (searchCompile p ⟨true, true⟩ 0).Match s st e
      ↔ e = st + p.length ∧ OccursAt s p st := by
    intro st e
    rw [Search.Match, hmode]
    dsimp only
    rw [hpattern, hicase]
    have hfold : (fun c => fold c true) = lowerAscii := rfl
    rw [hfold, hlower]
    constructor
    · rintro ⟨rfl, hfit, hocc⟩
      rw [slice, Nat.add_sub_cancel_left, List.map_take, List.map_drop] at hocc
      exact ⟨rfl, hfit, hocc⟩
    · rintro ⟨rfl, hfit, hocc⟩
      refine ⟨rfl, hfit, ?_⟩
      rw [slice, Nat.add_sub_cancel_left, List.map_take, List.map_drop]
      exact hocc
  have hspec := searchFindFrom_leftmost hvalid (pattern_ne_nil_of_valid hvalid) s 0
  rw [searchFind]
  cases hfind : searchFindFrom (searchCompile p ⟨true, true⟩ 0) s 0 with
  | none =>
      rw [hfind] at hspec
      refine iff_of_false Bool.false_ne_true ?_
      rintro ⟨i, hocc⟩
      exact hspec i (i + p.length) (Nat.zero_le i) ((hmatch _ _).mpr ⟨rfl, hocc⟩)
  | some span =>
      rw [hfind] at hspec
      exact iff_of_true rfl ⟨span.1, ((hmatch _ _).mp hspec.2.1).2⟩

/-- The function follows the rule: 1 exactly when the pattern occurs. -/
def FollowsRule (scratch hay p : List UInt8) : Prop :=
  ∃ found, bpfSubstrMatch scratch hay hay.length (tracePat p) p.length = some found
    ∧ (found = true ↔ ∃ i, OccursAt hay p i)

/-- **The match in the kernel** follows the rule of the userspace matcher
exactly when the pattern does not occur or occurs at an offset below 32. It
never reads outside of its buffer. -/
theorem bpfSubstrMatch_iff (scratch p s : List UInt8) (n : Nat)
    (hp : 0 < p.length ∧ p.length ≤ tracePatternMax) (hnul : 0 ∉ p) (hlower : p.map lowerAscii = p)
    (hlen : (s ++ List.replicate n 0).length ≤ 63) :
    (FollowsRule scratch (s ++ List.replicate n 0) p
      ↔ ((∃ i, OccursAt (s ++ List.replicate n 0) p i) →
          ∃ i < 32, OccursAt (s ++ List.replicate n 0) p i))
    ∧ (∃ found, bpfSubstrMatch scratch (s ++ List.replicate n 0) (s ++ List.replicate n 0).length
        (tracePat p) p.length = some found)
    ∧ ((searchFind (searchCompile p ⟨true, true⟩ 0) s).isSome = true
      ↔ ∃ i, OccursAt (s ++ List.replicate n 0) p i) := by
  obtain ⟨found, hrun, hiff⟩ := bpfSubstrMatch_spec scratch hp hnul hlen
  refine ⟨⟨?_, fun h => ⟨found, hrun, hiff.trans ⟨?_, h⟩⟩⟩, ⟨found, hrun⟩,
    searchFind_iff hp hnul hlower s n⟩
  · rintro ⟨found', hrun', hrule⟩ hocc
    obtain rfl := Option.some.inj (hrun.symm.trans hrun')
    exact hiff.mp (hrule.mpr hocc)
  · rintro ⟨i, -, hocc⟩
    exact ⟨i, hocc⟩

/-- The pattern `g` in the name `Xgame`. -/
theorem bpfSubstrMatch_game :
    (0 < [(0x67 : UInt8)].length ∧ [(0x67 : UInt8)].length ≤ tracePatternMax)
      ∧ (0 : UInt8) ∉ [(0x67 : UInt8)] ∧ [(0x67 : UInt8)].map lowerAscii = [0x67]
      ∧ FollowsRule (List.replicate 64 0) ([0x58, 0x67, 0x61, 0x6d, 0x65] ++ List.replicate 11 0) [0x67] := by
  have hp : 0 < [(0x67 : UInt8)].length ∧ [(0x67 : UInt8)].length ≤ tracePatternMax := by decide
  have hnul : (0 : UInt8) ∉ [(0x67 : UInt8)] := by decide
  exact ⟨hp, hnul, rfl, (bpfSubstrMatch_iff (List.replicate 64 0) [0x67] [0x58, 0x67, 0x61, 0x6d, 0x65]
    11 hp hnul rfl (by decide)).1.mpr fun _ => ⟨1, by decide, by decide, rfl⟩⟩

/-- The pattern `z` behind a path of forty letters. -/
theorem not_followsRule_late :
    ¬ FollowsRule (List.replicate 64 0) (List.replicate 40 0x61 ++ 0x7a :: List.replicate 15 0) [0x7a] := by
  rintro ⟨found, hrun, hrule⟩
  have hspec : ∃ found, bpfSubstrMatch _ _ _ _ _ = some found ∧ _ :=
    bpfSubstrMatch_spec (List.replicate 64 0) (p := [0x7a]) (by decide) (by decide)
      (by decide : (List.replicate 40 0x61 ++ 0x7a :: List.replicate 15 0 : List UInt8).length ≤ 63)
  obtain ⟨found', hrun', hiff⟩ := hspec
  obtain rfl := Option.some.inj (hrun.symm.trans hrun')
  exact absurd (hiff.mp (hrule.mpr ⟨40, by decide, rfl⟩)) (by decide)

end Montauk.Trace.Bpf
