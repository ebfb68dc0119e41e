import Montauk.Text.Match

/-!
# Lines, pattern sets and spans

Which lines a pattern set selects and which spans it marks: the word
filter of `-w` (`search_next_match`), the leftmost-longest choice across a
set (`next_any_pat`), the span walk `sublimation_search_spans` and line
selection.

The walk is followed twice: `walk` lists every span it records, and
`searchSpans_eq_walk` says the array of any capacity is a prefix of that
list. Under `-x` the walk records the whole text without asking whether a
pattern matches it, so what it reports is genuine exactly when one does
(`searchSpans_genuine_iff`).
-/

namespace Montauk

/-- `word_byte`: `[A-Za-z0-9_]`. -/
def wordByte (c : UInt8) : Bool := isAlnum c || c == 0x5f

/-- `word_bounded`: neither neighbour of `line[s..e)` is a word byte. -/
def wordBounded (line : List UInt8) (s e : Nat) : Bool :=
  !(decide (0 < s) && wordByte (line.getD (s - 1) 0))
    && !(decide (e < line.length) && wordByte (line.getD e 0))

/-- The probe of `search_next_match` for a shorter end at a start whose
longest match is not word-bounded, from `e - 1` down. -/
def shorterEnd (s : Search) (line : List UInt8) (st e : Nat) : Option Nat :=
  (List.range' st (e - st)).reverse.find? fun e2 =>
    wordBounded line st e2 && searchFullMatch s (slice line st e2)

/-- The loop of `search_next_match`; `off` grows each round, so the text's
length bounds it. -/
def nextMatchLoop (s : Search) (regexFace : Bool) (line : List UInt8) (wword : Bool) :
    Nat → Nat → Option (Nat × Nat)
  | 0, _ => none
  | fuel + 1, off =>
      if off ≤ line.length then
        match searchFindFrom s line off with
        | none => none
        | some (st, e) =>
            if !wword || wordBounded line st e then some (st, e)
            else
              match if regexFace && !s.g.anchoredEnd then shorterEnd s line st e else none with
              | some e2 => some (st, e2)
              | none => nextMatchLoop s regexFace line wword fuel (st + 1)
      else none

def searchNextMatch (s : Search) (regexFace : Bool) (line : List UInt8) (start : Nat)
    (wword : Bool) : Option (Nat × Nat) :=
  nextMatchLoop s regexFace line wword (line.length + 1) start

/-- One round of `next_any_pat`: the better of the spans so far and the
next span of pattern `p`. -/
def betterSpan (best : Option (Nat × Nat × Nat)) (cand : Option (Nat × Nat)) (p : Nat) :
    Option (Nat × Nat × Nat) :=
  match cand with
  | none => best
  | some (st, e) =>
      match best with
      | none => some (st, e, p)
      | some (bs, be, bp) =>
          if st < bs || (st == bs && be < e) then some (st, e, p) else some (bs, be, bp)

/-- `next_any_pat`: leftmost-longest across the set, with the pattern. -/
def nextAnyPat (set : List Search) (regexFace : Bool) (line : List UInt8) (off : Nat)
    (wword : Bool) : Option (Nat × Nat × Nat) :=
  set.zipIdx.foldl
    (fun best q => betterSpan best (searchNextMatch q.1 regexFace line off wword) q.2) none

def searchNextAny (set : List Search) (regexFace : Bool) (line : List UInt8) (off : Nat)
    (wword : Bool) : Option (Nat × Nat) :=
  (nextAnyPat set regexFace line off wword).map fun r => (r.1, r.2.1)

/-- `sublimation_match_span`; the offsets are `uint32_t` in the source. -/
structure MatchSpan where
  start : Nat
  stop : Nat
  pat : Int
deriving DecidableEq, Repr

/-- `(uint32_t)v`. -/
def u32 (v : Nat) : Nat := v % 2 ^ 32

/-- The walk of `sublimation_search_spans`: the total and the filled part
of the array. A NULL array is `cap = 0`, nothing is stored either way. -/
def spansLoop (set : List Search) (regexFace : Bool) (text : List UInt8) (wword xline : Bool)
    (cap : Nat) : Nat → Nat → Nat → List MatchSpan → Nat × List MatchSpan
  | 0, _, found, out => (found, out)
  | fuel + 1, off, found, out =>
      if off ≤ text.length then
        match if xline then some (0, text.length, (-1 : Int))
            else (nextAnyPat set regexFace text off wword).map
              fun r => (r.1, r.2.1, (r.2.2 : Int)) with
        | none => (found, out)
        | some (s, e, pat) =>
            let (found', off', out') :=
              if s < e then
                (found + 1, e,
                  if found < cap then
                    out ++ [⟨u32 s, u32 e, if xline then -1 else pat⟩] else out)
              else (found, s + 1, out)
            if xline then (found', out')
            else spansLoop set regexFace text wword xline cap fuel off' found' out'
      else (found, out)

def searchSpans (set : List Search) (regexFace : Bool) (text : List UInt8) (wword xline : Bool)
    (cap : Nat) : Nat × List MatchSpan :=
  spansLoop set regexFace text wword xline cap (text.length + 2) 0 0 []

def searchSelects (set : List Search) (regexFace : Bool) (line : List UInt8)
    (xline wword : Bool) : Bool :=
  set.any fun s =>
    if xline then searchFullMatch s line
    else (searchNextMatch s regexFace line 0 wword).isSome

/-! ## The next span of one pattern -/

/-- A shorter end found by the probe is a match too: the start is the
search's own, and the probe is off for a pattern anchored at its end. -/
theorem match_of_probe {s : Search} (hv : s.valid = true) {line : List UInt8} {st e e2 : Nat}
    (hend : s.g.anchoredEnd = false) (hm : s.Match line st e) (hlt : st ≤ e2 ∧ e2 < e)
    (hf : searchFullMatch s (slice line st e2) = true) : s.Match line st e2 := by
  have hb := match_bound hm
  have hlen : (slice line st e2).length = e2 - st := length_slice (by omega)
  have h := (searchFullMatch_iff hv _).mp hf
  have hss : slice (slice line st e2) 0 (slice line st e2).length = slice line st e2 := by
    simp [slice]
  rw [Search.Match] at h hm ⊢
  cases hmode : s.mode with
  | regex =>
      rw [hmode] at h hm
      refine ⟨hlt.1, by omega, hm.start, fun hE => ?_, hss ▸ h.full⟩
      exact absurd (hend ▸ hE) Bool.false_ne_true
  | exact =>
      rw [hmode] at h hm
      have h1 := h.1
      have h2 := hm.1
      omega
  | fuzzy =>
      rw [hmode] at h hm
      have h1 := h.1
      have h2 := hm.1
      omega

/-- What a search set asks of its members. -/
def Search.Usable (s : Search) : Prop :=
  s.valid = true ∧ (s.mode ≠ .regex → s.pattern ≠ [])

theorem usable_of_valid {pattern : List UInt8} {flags : SearchFlags} {k : Int}
    (hv : (searchCompile pattern flags k).valid = true) :
    (searchCompile pattern flags k).Usable :=
  ⟨hv, pattern_ne_nil_of_valid hv⟩

/-- A span of one pattern under the word rule. -/
def Search.WordMatch (s : Search) (wword : Bool) (line : List UInt8) (st e : Nat) : Prop :=
  s.Match line st e ∧ (wword = true → wordBounded line st e = true)

theorem nextMatchLoop_genuine {s : Search} (hs : s.Usable) {regexFace : Bool}
    {line : List UInt8} {wword : Bool} :
    ∀ (fuel off st e : Nat), nextMatchLoop s regexFace line wword fuel off = some (st, e) →
      off ≤ st ∧ s.WordMatch wword line st e
  | 0, _, _, _, h => absurd h (by simp [nextMatchLoop])
  | fuel + 1, off, st, e, h => by
      rw [nextMatchLoop] at h
      split at h
      · have hleft := searchFindFrom_leftmost hs.1 hs.2 line off
        cases hf : searchFindFrom s line off with
        | none =>
            rw [hf] at h
            exact absurd h (by simp)
        | some r =>
            obtain ⟨st₁, e₁⟩ := r
            rw [hf] at h hleft
            obtain ⟨hge, hm, -, -⟩ := hleft
            dsimp only at h
            split at h
            · rename_i hb
              obtain ⟨rfl, rfl⟩ := Prod.mk.inj (Option.some.inj h)
              refine ⟨hge, hm, fun hw => ?_⟩
              rw [hw] at hb
              simpa using hb
            · split at h
              · rename_i e2 hprobe
                obtain ⟨rfl, rfl⟩ := Prod.mk.inj (Option.some.inj h)
                split at hprobe
                · rename_i hface
                  rw [shorterEnd] at hprobe
                  have hmem := List.mem_of_find?_eq_some hprobe
                  have htest := List.find?_some hprobe
                  rw [List.mem_reverse, List.mem_range'_1] at hmem
                  rw [Bool.and_eq_true] at htest hface
                  have hend : s.g.anchoredEnd = false := by simpa using hface.2
                  have hb := match_bound hm
                  exact ⟨hge, match_of_probe hs.1 hend hm ⟨hmem.1, by omega⟩ htest.2,
                    fun _ => htest.1⟩
                · exact absurd hprobe (by simp)
              · obtain ⟨hge', hm'⟩ := nextMatchLoop_genuine hs fuel _ st e h
                exact ⟨by omega, hm'⟩
      · exact absurd h (by simp)

/-- The rounds of `search_next_match` are bounded by the text left. -/
theorem nextMatchLoop_fuel {s : Search} (hs : s.Usable) {regexFace : Bool}
    {line : List UInt8} {wword : Bool} :
    ∀ (fuel fuel' off : Nat), line.length + 1 - off ≤ fuel → line.length + 1 - off ≤ fuel' →
      nextMatchLoop s regexFace line wword fuel off
        = nextMatchLoop s regexFace line wword fuel' off
  | 0, 0, _, _, _ => rfl
  | 0, fuel' + 1, off, h, _ => by
      rw [nextMatchLoop, nextMatchLoop, if_neg (by omega)]
  | fuel + 1, 0, off, _, h => by
      rw [nextMatchLoop, nextMatchLoop, if_neg (by omega)]
  | fuel + 1, fuel' + 1, off, h, h' => by
      rw [nextMatchLoop, nextMatchLoop]
      by_cases hoff : off ≤ line.length
      · rw [if_pos hoff, if_pos hoff]
        have hleft := searchFindFrom_leftmost hs.1 hs.2 line off
        cases hf : searchFindFrom s line off with
        | none => rfl
        | some r =>
            obtain ⟨st, e⟩ := r
            rw [hf] at hleft
            have hge : off ≤ st := hleft.1
            dsimp only
            rw [nextMatchLoop_fuel hs fuel fuel' (st + 1) (by omega) (by omega)]
      · rw [if_neg hoff, if_neg hoff]

/-! ## The next span of a set -/

/-- A span that pattern `p` of the set has at or after `off`. -/
def SetSpan (set : List Search) (regexFace : Bool) (line : List UInt8) (off : Nat) (wword : Bool)
    (r : Nat × Nat × Nat) : Prop :=
  ∃ s, set[r.2.2]? = some s
    ∧ searchNextMatch s regexFace line off wword = some (r.1, r.2.1)

theorem nextAnyPat_setSpan {set : List Search} {regexFace : Bool} {line : List UInt8} {off : Nat}
    {wword : Bool} {r : Nat × Nat × Nat}
    (h : nextAnyPat set regexFace line off wword = some r) :
    SetSpan set regexFace line off wword r := by
  have hloop : ∀ (l : List (Search × Nat)) (best : Option (Nat × Nat × Nat)),
      (∀ q ∈ l, set[q.2]? = some q.1) →
      (∀ r, best = some r → SetSpan set regexFace line off wword r) →
      ∀ r, l.foldl (fun best q =>
          betterSpan best (searchNextMatch q.1 regexFace line off wword) q.2) best = some r →
        SetSpan set regexFace line off wword r := by
    intro l
    induction l with
    | nil => exact fun best _ hb r hr => hb r hr
    | cons q l ih =>
        intro best hl hb r hr
        rw [List.foldl_cons] at hr
        refine ih _ (fun q' hq' => hl q' (List.mem_cons_of_mem q hq')) (fun r' hr' => ?_) r hr
        have hq := hl q List.mem_cons_self
        cases hn : searchNextMatch q.1 regexFace line off wword with
        | none =>
            rw [hn] at hr'
            exact hb r' hr'
        | some c =>
            obtain ⟨st, e⟩ := c
            rw [hn] at hr'
            have hnew : ∀ r', some (st, e, q.2) = some r' →
                SetSpan set regexFace line off wword r' := by
              rintro r' hr'
              obtain rfl := Option.some.inj hr'
              exact ⟨q.1, hq, hn⟩
            cases best with
            | none => exact hnew r' hr'
            | some b =>
                obtain ⟨bs, be, bp⟩ := b
                simp only [betterSpan] at hr'
                split at hr'
                · exact hnew r' hr'
                · exact hb r' hr'
  rw [nextAnyPat] at h
  refine hloop _ none (fun q hq => ?_) (fun r hr => absurd hr (by simp)) r h
  exact List.mem_zipIdx_iff_getElem?.mp hq

/-! ## The span walk -/

/-- Every span the walk records from `off` on, were the array unbounded. -/
def walk (set : List Search) (regexFace : Bool) (text : List UInt8) (wword xline : Bool) :
    Nat → Nat → List MatchSpan
  | 0, _ => []
  | fuel + 1, off =>
      if off ≤ text.length then
        if xline then (if 0 < text.length then [⟨u32 0, u32 text.length, -1⟩] else [])
        else
          match nextAnyPat set regexFace text off wword with
          | none => []
          | some (s, e, pat) =>
              if s < e then
                ⟨u32 s, u32 e, pat⟩ :: walk set regexFace text wword xline fuel e
              else walk set regexFace text wword xline fuel (s + 1)
      else []

theorem take_snoc {β : Type} (l : List β) (x : β) (cap : Nat) :
    (l ++ [x]).take cap = if l.length < cap then l.take cap ++ [x] else l.take cap := by
  split
  · rename_i h
    rw [List.take_of_length_le (by simp; omega), List.take_of_length_le (by omega)]
  · rename_i h
    rw [List.take_append_of_le_length (by omega)]

variable {set : List Search} {regexFace wword xline : Bool} {text : List UInt8}

/-- The walk with a bounded array: the total counts every span, the array
keeps the first `cap`. -/
theorem spansLoop_eq (cap : Nat) :
    ∀ (fuel off : Nat) (prev : List MatchSpan),
      spansLoop set regexFace text wword xline cap fuel off prev.length (prev.take cap)
        = ((prev ++ walk set regexFace text wword xline fuel off).length,
            (prev ++ walk set regexFace text wword xline fuel off).take cap)
  | 0, off, prev => by rw [spansLoop, walk, List.append_nil]
  | fuel + 1, off, prev => by
      rw [spansLoop, walk]
      by_cases hoff : off ≤ text.length
      · rw [if_pos hoff, if_pos hoff]
        have hlen : ∀ x : MatchSpan, prev.length + 1 = (prev ++ [x]).length := fun x => by
          rw [List.length_append, List.length_singleton]
        by_cases hx : xline = true
        · simp only [if_pos hx]
          by_cases hpos : 0 < text.length
          · rw [if_pos hpos, if_pos hpos, take_snoc, hlen]
          · rw [if_neg hpos, if_neg hpos, List.append_nil]
        · simp only [if_neg hx]
          cases nextAnyPat set regexFace text off wword with
          | none => rw [Option.map_none, List.append_nil]
          | some r =>
              obtain ⟨s, e, pat⟩ := r
              rw [Option.map_some]
              dsimp only
              by_cases hse : s < e
              · rw [if_pos hse, if_pos hse, ← take_snoc, hlen ⟨u32 s, u32 e, pat⟩]
                have ih := spansLoop_eq cap fuel e (prev ++ [(⟨u32 s, u32 e, pat⟩ : MatchSpan)])
                rw [List.append_assoc, List.singleton_append] at ih
                exact ih
              · rw [if_neg hse, if_neg hse]
                exact spansLoop_eq cap fuel (s + 1) prev
      · rw [if_neg hoff, if_neg hoff, List.append_nil]

theorem searchSpans_eq (cap : Nat) :
    searchSpans set regexFace text wword xline cap
      = ((walk set regexFace text wword xline (text.length + 2) 0).length,
          (walk set regexFace text wword xline (text.length + 2) 0).take cap) := by
  have hloop : spansLoop set regexFace text wword xline cap _ _ _ _ = _ :=
    spansLoop_eq cap (text.length + 2) 0 []
  rwa [List.take_nil, List.nil_append, List.length_nil] at hloop

theorem walk_fuel (hset : ∀ s ∈ set, s.Usable) :
    ∀ (fuel fuel' off : Nat), text.length + 1 - off ≤ fuel → text.length + 1 - off ≤ fuel' →
      walk set regexFace text wword xline fuel off = walk set regexFace text wword xline fuel' off
  | 0, 0, _, _, _ => rfl
  | 0, fuel' + 1, off, h, _ => by rw [walk, walk, if_neg (by omega)]
  | fuel + 1, 0, off, _, h => by rw [walk, walk, if_neg (by omega)]
  | fuel + 1, fuel' + 1, off, h, h' => by
      rw [walk, walk]
      by_cases hoff : off ≤ text.length
      · rw [if_pos hoff, if_pos hoff]
        cases hn : nextAnyPat set regexFace text off wword with
        | none => rfl
        | some r =>
            obtain ⟨s, e, pat⟩ := r
            obtain ⟨q, hq, hspan⟩ := nextAnyPat_setSpan hn
            have hge : off ≤ s :=
              (nextMatchLoop_genuine (hset q (List.mem_of_getElem? hq)) _ _ _ _ hspan).1
            dsimp only
            by_cases hse : s < e
            · rw [if_pos hse, if_pos hse, walk_fuel hset fuel fuel' e (by omega) (by omega)]
            · rw [if_neg hse, if_neg hse, walk_fuel hset fuel fuel' (s + 1) (by omega) (by omega)]
      · rw [if_neg hoff, if_neg hoff]

/-- A span that is what the flags say: a match of a pattern of the set
(the one it names, except under `-x`), the whole text under `-x`,
word-bounded under `-w`. -/
structure MatchSpan.Genuine (set : List Search) (text : List UInt8) (wword xline : Bool)
    (sp : MatchSpan) : Prop where
  nonempty : sp.start < sp.stop
  isMatch : ∃ s ∈ set, s.Match text sp.start sp.stop
    ∧ (xline = false → set[sp.pat.toNat]? = some s)
  whole : xline = true → sp.start = 0 ∧ sp.stop = text.length
  word : wword = true → wordBounded text sp.start sp.stop = true

def MatchSpan.Before (a b : MatchSpan) : Prop := a.start < b.start ∧ a.stop ≤ b.start

/-- What the callers of `sublimation_search_spans` rely on: both loops end
within the rounds allotted here, and for every capacity the total is the
same and the array is a prefix of one list of genuine, increasing and
disjoint spans. -/
structure SpansOk (set : List Search) (regexFace : Bool) (text : List UInt8)
    (wword xline : Bool) : Prop where
  ends : ∀ cap fuel, text.length + 2 ≤ fuel →
    spansLoop set regexFace text wword xline cap fuel 0 0 []
      = searchSpans set regexFace text wword xline cap
  nextEnds : ∀ s ∈ set, ∀ off fuel, text.length + 1 ≤ fuel →
    nextMatchLoop s regexFace text wword fuel off = searchNextMatch s regexFace text off wword
  spans : ∃ sps : List MatchSpan,
    (∀ cap, searchSpans set regexFace text wword xline cap = (sps.length, sps.take cap))
      ∧ sps.Pairwise MatchSpan.Before ∧ ∀ sp ∈ sps, sp.Genuine set text wword xline

theorem u32_eq {v : Nat} (h : v < 2 ^ 32) : u32 v = v := Nat.mod_eq_of_lt h

/-- The walk without `-x`, from `off` on. -/
theorem walk_genuine (hset : ∀ s ∈ set, s.Usable) (hn : text.length < 2 ^ 32) :
    ∀ (fuel off : Nat),
      (walk set regexFace text wword false fuel off).Pairwise MatchSpan.Before
        ∧ ∀ sp ∈ walk set regexFace text wword false fuel off,
            off ≤ sp.start ∧ sp.Genuine set text wword false
  | 0, off => ⟨List.Pairwise.nil, fun sp hsp => absurd hsp List.not_mem_nil⟩
  | fuel + 1, off => by
      have hnil : ([] : List MatchSpan).Pairwise MatchSpan.Before
          ∧ ∀ sp ∈ ([] : List MatchSpan), off ≤ sp.start ∧ sp.Genuine set text wword false :=
        ⟨List.Pairwise.nil, fun sp hsp => absurd hsp List.not_mem_nil⟩
      rw [walk]
      split
      · rw [if_neg Bool.false_ne_true]
        cases hany : nextAnyPat set regexFace text off wword with
        | none => exact hnil
        | some r =>
            obtain ⟨s, e, pat⟩ := r
            obtain ⟨q, hq, hspan⟩ := nextAnyPat_setSpan hany
            have hqm := List.mem_of_getElem? hq
            obtain ⟨hge, hm, hw⟩ := nextMatchLoop_genuine (hset q hqm) _ _ _ _ hspan
            have hb := match_bound hm
            dsimp only at hb hm hw hge ⊢
            by_cases hse : s < e
            · rw [if_pos hse, u32_eq (by omega), u32_eq (by omega)]
              obtain ⟨hpw, hall⟩ := walk_genuine hset hn fuel e
              refine ⟨List.pairwise_cons.mpr ⟨fun sp hsp => ?_, hpw⟩, fun sp hsp => ?_⟩
              · have := (hall sp hsp).1
                exact ⟨by dsimp only; omega, this⟩
              · rcases List.mem_cons.mp hsp with rfl | hsp
                · exact ⟨hge, hse, ⟨q, hqm, hm, fun _ => hq⟩, fun h => absurd h Bool.false_ne_true,
                    hw⟩
                · obtain ⟨h1, h2⟩ := hall sp hsp
                  exact ⟨by omega, h2⟩
            · rw [if_neg hse]
              obtain ⟨hpw, hall⟩ := walk_genuine hset hn fuel (s + 1)
              refine ⟨hpw, fun sp hsp => ?_⟩
              obtain ⟨h1, h2⟩ := hall sp hsp
              exact ⟨by omega, h2⟩
      · exact hnil

theorem walk_xline :
    walk set regexFace text wword true (text.length + 2) 0
      = if 0 < text.length then [⟨u32 0, u32 text.length, -1⟩] else [] := by
  rw [walk, if_pos (Nat.zero_le _), if_pos rfl]

/-- The spans reported for `-x`, when the caller's condition holds: some
pattern matches the whole text, if there is any. -/
theorem walk_xline_genuine (hset : ∀ s ∈ set, s.Usable) (hn : text.length < 2 ^ 32)
    (hm : text = [] ∨ ∃ s ∈ set, searchFullMatch s text = true) :
    (walk set regexFace text wword true (text.length + 2) 0).Pairwise MatchSpan.Before
      ∧ ∀ sp ∈ walk set regexFace text wword true (text.length + 2) 0,
          sp.Genuine set text wword true := by
  rw [walk_xline]
  split
  · rename_i hpos
    refine ⟨List.pairwise_singleton _ _, fun sp hsp => ?_⟩
    obtain rfl := List.mem_singleton.mp hsp
    rw [u32_eq hn]
    obtain ⟨s, hs, hf⟩ := hm.resolve_left (List.length_pos_iff.mp hpos)
    refine ⟨hpos, ⟨s, hs, (searchFullMatch_iff (hset s hs).1 text).mp hf,
      fun h => absurd h (by simp)⟩, fun _ => ⟨rfl, rfl⟩, fun _ => ?_⟩
    have h0 : u32 0 = 0 := rfl
    simp [wordBounded, h0]
  · exact ⟨List.Pairwise.nil, fun sp hsp => absurd hsp List.not_mem_nil⟩

theorem spansOk_of_walk (hset : ∀ s ∈ set, s.Usable)
    (h : (walk set regexFace text wword xline (text.length + 2) 0).Pairwise MatchSpan.Before
      ∧ ∀ sp ∈ walk set regexFace text wword xline (text.length + 2) 0,
          sp.Genuine set text wword xline) :
    SpansOk set regexFace text wword xline where
  ends cap fuel hf := by
    have hloop : spansLoop set regexFace text wword xline cap _ _ _ _ = _ :=
      spansLoop_eq cap fuel 0 []
    rw [List.take_nil, List.nil_append, List.length_nil] at hloop
    rw [hloop, searchSpans_eq, walk_fuel hset fuel (text.length + 2) 0 (by omega) (by omega)]
  nextEnds s hs off fuel hf :=
    nextMatchLoop_fuel (hset s hs) fuel (text.length + 1) off (by omega) (by omega)
  spans := ⟨_, searchSpans_eq, h⟩

/-- What `-x` reports for a non-empty text is genuine only if a pattern
matches all of it. -/
theorem SpansOk.full_match (hset : ∀ s ∈ set, s.Usable) (hn : text.length < 2 ^ 32)
    (h : SpansOk set regexFace text wword true) (hne : text ≠ []) :
    ∃ s ∈ set, searchFullMatch s text = true := by
  obtain ⟨sps, hall, -, hgen⟩ := h.spans
  have hlen := congrArg Prod.fst ((hall 1).symm.trans (searchSpans_eq 1))
  have htake := congrArg Prod.snd ((hall 1).symm.trans (searchSpans_eq 1))
  dsimp only at hlen htake
  rw [walk_xline, if_pos (List.length_pos_iff.mpr hne)] at hlen htake
  obtain ⟨sp, rfl⟩ := List.length_eq_one_iff.mp hlen
  have hsp : sp = ⟨u32 0, u32 text.length, -1⟩ := by simpa using htake
  obtain ⟨s, hs, hm, -⟩ := (hgen sp List.mem_cons_self).isMatch
  refine ⟨s, hs, (searchFullMatch_iff (hset s hs).1 text).mpr ?_⟩
  rw [hsp, u32_eq hn] at hm
  exact hm

/-- **Spans are genuine** for every valid set, every flag and every text
below 4 GiB exactly when, under `-x`, some pattern matches the whole text. -/
theorem searchSpans_ok_iff
    (hset : ∀ s ∈ set, ∃ pattern flags k, s = searchCompile pattern flags k ∧ s.valid = true)
    (hn : text.length < 2 ^ 32) :
    SpansOk set regexFace text wword xline
      ↔ (xline = true → text = [] ∨ ∃ s ∈ set, searchFullMatch s text = true) := by
  have husable : ∀ s ∈ set, s.Usable := by
    intro s hs
    obtain ⟨pattern, flags, k, rfl, hv⟩ := hset s hs
    exact usable_of_valid hv
  constructor
  · rintro h rfl
    by_cases hne : text = []
    · exact Or.inl hne
    · exact Or.inr (h.full_match husable hn hne)
  · intro h
    refine spansOk_of_walk husable ?_
    by_cases hx : xline = true
    · subst hx
      exact walk_xline_genuine husable hn (h rfl)
    · obtain rfl : xline = false := Bool.eq_false_iff.mpr hx
      obtain ⟨hpw, hall⟩ := walk_genuine husable hn (text.length + 2) 0
      exact ⟨hpw, fun sp hsp => (hall sp hsp).2⟩

/-- The pattern `a`, on the regex face. -/
def patternA : Search := searchCompile [0x61] ⟨false, false⟩ 0

/-- `a+` with `-w` on `a ab aa`. -/
theorem searchSpans_ok_words :
    SpansOk [searchCompile [0x61, 0x2b] ⟨false, false⟩ 0] true
        [0x61, 0x20, 0x61, 0x62, 0x20, 0x61, 0x61] true false
      ↔ (false = true → [0x61, 0x20, 0x61, 0x62, 0x20, 0x61, 0x61] = ([] : List UInt8)
          ∨ ∃ s ∈ [searchCompile [0x61, 0x2b] ⟨false, false⟩ 0],
              searchFullMatch s [0x61, 0x20, 0x61, 0x62, 0x20, 0x61, 0x61] = true) :=
  searchSpans_ok_iff
    (fun s hs => ⟨[0x61, 0x2b], ⟨false, false⟩, 0, List.mem_singleton.mp hs, by
      rw [List.mem_singleton.mp hs]
      decide +kernel⟩)
    (by decide)

/-- `-x` with the pattern `a` marks the whole of the text `b`. -/
theorem searchSpans_xline_unmatched :
    patternA.valid = true ∧ ¬ SpansOk [patternA] true [0x62] false true := by
  refine ⟨by decide +kernel, fun h => ?_⟩
  have hset : ∀ s ∈ [patternA], s.Usable := by
    intro s hs
    rw [List.mem_singleton.mp hs]
    exact usable_of_valid (by decide +kernel)
  obtain ⟨s, hs, hf⟩ := h.full_match hset (by decide) (by simp)
  rw [List.mem_singleton.mp hs] at hf
  exact absurd hf (by decide +kernel)

/-! ## Leftmost-longest under the word rule -/

theorem find_reverse_range {p : Nat → Bool} (a : Nat) :
    ∀ n, Longest (fun _ i => a ≤ i ∧ i < a + n ∧ p i = true) 0 ((List.range' a n).reverse.find? p)
  | 0 => by
      rintro i ⟨h1, h2, -⟩
      omega
  | n + 1 => by
      rw [List.range'_concat, List.reverse_append, List.reverse_singleton, List.singleton_append,
        List.find?_cons, Nat.one_mul]
      cases hp : p (a + n) with
      | true =>
          refine ⟨⟨by omega, by omega, hp⟩, ?_⟩
          rintro i ⟨-, hi, -⟩
          omega
      | false =>
          have ih := find_reverse_range (p := p) a n
          have hlast : ∀ i, i < a + (n + 1) → p i = true → i < a + n := by
            intro i hi hpi
            rcases Nat.lt_or_ge i (a + n) with h | h
            · exact h
            · obtain rfl : i = a + n := by omega
              exact absurd (hp.symm.trans hpi) Bool.false_ne_true
          cases hf : (List.range' a n).reverse.find? p with
          | none =>
              rw [hf] at ih
              rintro i ⟨h1, h2, h3⟩
              exact ih i ⟨h1, hlast i h2 h3, h3⟩
          | some b =>
              rw [hf] at ih
              obtain ⟨⟨h1, h2, h3⟩, hmax⟩ := ih
              refine ⟨⟨h1, by omega, h3⟩, ?_⟩
              rintro i ⟨hi1, hi2, hi3⟩
              exact hmax i ⟨hi1, hlast i hi2 hi3, hi3⟩

/-- A field without entries matches the empty word only. -/
theorem match_empty {w : Nat} {g : Gnfa w} {I : UInt8 → BitVec w} (hfirst : g.first = 0) {line : List UInt8}
    {st e : Nat} (h : g.Match I line st e) : e = st := by
  have hnil : slice line st e = [] := by
    rcases PosAutomaton.Frag.mem_lang.mp ((gnfaFull_iff _).mp h.full) with ⟨hnil, -⟩ | ⟨p, hp, -⟩
    · exact hnil
    · have hp : p ∈ bits g.first := hp
      rw [hfirst] at hp
      exact absurd (bits_zero ▸ hp) (Set.notMem_empty p)
  have hlen := length_slice (s := st) h.bound
  rw [hnil, List.length_nil] at hlen
  have := h.le
  omega

/-- Off the regex face, under a trailing anchor and for a field without entries,
a start has one end. -/
theorem match_end_unique {s : Search} {line : List UInt8} {st e e' : Nat}
    (hone : s.mode ≠ .regex ∨ s.g.anchoredEnd = true ∨ s.g.first = 0) (h : s.Match line st e)
    (h' : s.Match line st e') : e' = e := by
  rw [Search.Match] at h h'
  cases hm : s.mode with
  | exact =>
      rw [hm] at h h'
      exact h'.1.trans h.1.symm
  | fuzzy =>
      rw [hm] at h h'
      exact h'.1.trans h.1.symm
  | regex =>
      rw [hm] at h h'
      rcases hone.resolve_left (not_not.mpr hm) with hE | hfirst
      · exact (h'.stop hE).trans (h.stop hE).symm
      · exact (match_empty hfirst h').trans (match_empty hfirst h).symm

theorem full_of_match {s : Search} (hv : s.valid = true) {line : List UInt8} {st e : Nat}
    (hm : s.Match line st e) : searchFullMatch s (slice line st e) = true := by
  have hb := match_bound hm
  have hlen : (slice line st e).length = e - st := length_slice (by omega)
  have hss : slice (slice line st e) 0 (slice line st e).length = slice line st e := by
    simp [slice]
  rw [searchFullMatch_iff hv]
  rw [Search.Match] at hm ⊢
  cases hmode : s.mode with
  | regex =>
      rw [hmode] at hm
      exact ⟨Nat.zero_le _, le_rfl, fun _ => rfl, fun _ => rfl, hss.symm ▸ hm.full⟩
  | exact =>
      rw [hmode] at hm
      have h1 := hm.1
      exact ⟨by omega, le_rfl, hss.symm ▸ hm.2.2⟩
  | fuzzy =>
      rw [hmode] at hm
      have h1 := hm.1
      exact ⟨by omega, le_rfl, hss.symm ▸ hm.2.2⟩

/-- What the probe behind a rejected span finds: the longest end at that
start which the word rule admits. -/
theorem longest_shorterEnd {s : Search} (hs : s.Usable) {regexFace : Bool}
    (hface : s.mode = .regex → regexFace = true ∨ s.g.first = 0) {line : List UInt8} {st e : Nat}
    (hm : s.Match line st e) (hmax : ∀ e', s.Match line st e' → e' ≤ e)
    (hrej : wordBounded line st e = false) :
    Longest (s.WordMatch true line) st
      (if regexFace && !s.g.anchoredEnd then shorterEnd s line st e else none) := by
  have hlt : ∀ e', s.WordMatch true line st e' → e' < e := by
    rintro e' ⟨hm', hw⟩
    rcases Nat.lt_or_eq_of_le (hmax e' hm') with h | rfl
    · exact h
    · exact absurd (hrej.symm.trans (hw rfl)) Bool.false_ne_true
  split
  · rename_i hprobe
    rw [Bool.and_eq_true] at hprobe
    have hend : s.g.anchoredEnd = false := by simpa using hprobe.2
    have hiff : ∀ e', s.WordMatch true line st e'
        ↔ st ≤ e' ∧ e' < st + (e - st)
          ∧ (wordBounded line st e' && searchFullMatch s (slice line st e')) = true := by
      intro e'
      rw [Bool.and_eq_true]
      constructor
      · intro hwm
        have hb := match_bound hwm.1
        have := hlt e' hwm
        exact ⟨hb.1, by omega, hwm.2 rfl, full_of_match hs.1 hwm.1⟩
      · rintro ⟨h1, h2, h3, h4⟩
        exact ⟨match_of_probe hs.1 hend hm ⟨h1, by omega⟩ h4, fun _ => h3⟩
    have hfind := find_reverse_range
      (p := fun e' => wordBounded line st e' && searchFullMatch s (slice line st e')) st (e - st)
    rw [shorterEnd]
    cases hf : (List.range' st (e - st)).reverse.find? fun e2 =>
        wordBounded line st e2 && searchFullMatch s (slice line st e2) with
    | none =>
        rw [hf] at hfind
        exact fun e' h => hfind e' ((hiff e').mp h)
    | some b =>
        rw [hf] at hfind
        exact ⟨(hiff b).mpr hfind.1, fun e' h => hfind.2 e' ((hiff e').mp h)⟩
  · rename_i hno
    have hone : s.mode ≠ .regex ∨ s.g.anchoredEnd = true ∨ s.g.first = 0 := by
      by_contra hcon
      rw [not_or, not_or, not_not] at hcon
      rw [(hface hcon.1).resolve_right hcon.2.2] at hno
      simp [hcon.2.1] at hno
    intro e' hwm
    have := hlt e' hwm
    have := match_end_unique hone hm hwm.1
    omega

/-- **The next span of one pattern**: the leftmost start with a match that
the word rule admits, and the longest such end there. -/
theorem nextMatchLoop_leftmost {s : Search} (hs : s.Usable) {regexFace : Bool}
    (hface : s.mode = .regex → regexFace = true ∨ s.g.first = 0) {line : List UInt8} {wword : Bool} :
    ∀ (fuel off : Nat), line.length + 1 - off ≤ fuel →
      LeftmostLongest (s.WordMatch wword line) off
        (nextMatchLoop s regexFace line wword fuel off)
  | 0, off, hf => by
      rintro st e hst ⟨hm, -⟩
      have := match_bound hm
      omega
  | fuel + 1, off, hf => by
      rw [nextMatchLoop]
      by_cases hoff : off ≤ line.length
      · rw [if_pos hoff]
        have hleft := searchFindFrom_leftmost hs.1 hs.2 line off
        cases hfind : searchFindFrom s line off with
        | none =>
            rw [hfind] at hleft
            exact fun st e hst hm => hleft st e hst hm.1
        | some r =>
            obtain ⟨st, e⟩ := r
            rw [hfind] at hleft
            obtain ⟨hge, hm, hmin, hmax⟩ := hleft
            dsimp only
            by_cases hok : (!wword || wordBounded line st e) = true
            · rw [if_pos hok]
              refine ⟨hge, ⟨hm, fun hw => ?_⟩, fun st' e' hst' hm' => hmin st' e' hst' hm'.1,
                fun e' hm' => hmax e' hm'.1⟩
              simpa [hw] using hok
            · rw [if_neg hok]
              rw [Bool.not_eq_true, Bool.or_eq_false_iff] at hok
              obtain ⟨hw, hrej⟩ := hok
              obtain rfl : wword = true := by simpa using hw
              have hlong := longest_shorterEnd hs hface hm hmax hrej
              cases hp : (if regexFace && !s.g.anchoredEnd then shorterEnd s line st e else none)
                with
              | some e2 =>
                  rw [hp] at hlong
                  exact ⟨hge, hlong.1, fun st' e' hst' hm' => hmin st' e' hst' hm'.1, hlong.2⟩
              | none =>
                  -- no end at `st` is admitted, so the next round starts behind it
                  rw [hp] at hlong
                  have hb := match_bound hm
                  have ih : LeftmostLongest (s.WordMatch true line) (st + 1) _ :=
                    nextMatchLoop_leftmost hs hface fuel (st + 1)
                    (by omega : line.length + 1 - (st + 1) ≤ fuel)
                  have hbehind : ∀ st' e', off ≤ st' → s.WordMatch true line st' e' →
                      st + 1 ≤ st' := by
                    intro st' e' hst' hm'
                    rcases Nat.lt_or_eq_of_le (hmin st' e' hst' hm'.1) with h | rfl
                    · exact h
                    · exact absurd hm' (hlong e')
                  dsimp only
                  cases hn : nextMatchLoop s regexFace line true fuel (st + 1) with
                  | none =>
                      rw [hn] at ih
                      exact fun st' e' hst' hm' => ih st' e' (hbehind st' e' hst' hm') hm'
                  | some r =>
                      rw [hn] at ih
                      obtain ⟨h1, h2, h3, h4⟩ := ih
                      exact ⟨by omega, h2,
                        fun st' e' hst' hm' => h3 st' e' (hbehind st' e' hst' hm') hm', h4⟩
      · rw [if_neg hoff]
        rintro st e hst ⟨hm, -⟩
        have := match_bound hm
        omega

/-- The span without the pattern that won. -/
def spanOf (r : Nat × Nat × Nat) : Nat × Nat := (r.1, r.2.1)

/-- One round of `next_any_pat` joins the spans of one more pattern. -/
theorem leftmostLongest_betterSpan {M N : Nat → Nat → Prop} {off p : Nat}
    {best : Option (Nat × Nat × Nat)} {cand : Option (Nat × Nat)}
    (hM : LeftmostLongest M off (best.map spanOf)) (hN : LeftmostLongest N off cand) :
    LeftmostLongest (fun st e => M st e ∨ N st e) off ((betterSpan best cand p).map spanOf) := by
  rcases cand with - | ⟨st, e⟩
  · rcases best with - | ⟨bs, be, bp⟩
    · rintro st' e' hst (h | h)
      · exact hM st' e' hst h
      · exact hN st' e' hst h
    · obtain ⟨h1, h2, h3, h4⟩ := hM
      refine ⟨h1, Or.inl h2, ?_, ?_⟩
      · rintro st' e' hst (h | h)
        · exact h3 st' e' hst h
        · exact absurd h (hN st' e' hst)
      · rintro e' (h | h)
        · exact h4 e' h
        · exact absurd h (hN _ e' h1)
  · obtain ⟨n1, n2, n3, n4⟩ := hN
    rcases best with - | ⟨bs, be, bp⟩
    · refine ⟨n1, Or.inr n2, ?_, ?_⟩
      · rintro st' e' hst (h | h)
        · exact absurd h (hM st' e' hst)
        · exact n3 st' e' hst h
      · rintro e' (h | h)
        · exact absurd h (hM _ e' n1)
        · exact n4 e' h
    · obtain ⟨m1, m2, m3, m4⟩ := hM
      rw [betterSpan]
      by_cases hb : (st < bs || (st == bs && be < e)) = true
      · rw [if_pos hb]
        have hb' : st < bs ∨ st = bs ∧ be < e := by simpa using hb
        refine ⟨n1, Or.inr n2, ?_, ?_⟩
        · rintro st' e' hst (h | h)
          · have := m3 st' e' hst h
            dsimp only [spanOf] at this ⊢
            omega
          · exact n3 st' e' hst h
        · rintro e' (h | h)
          · dsimp only [spanOf] at h ⊢
            have hle := m3 st e' n1 h
            dsimp only [spanOf] at hle
            obtain rfl : st = bs := by omega
            have := m4 e' h
            dsimp only [spanOf] at this
            omega
          · exact n4 e' h
      · rw [if_neg hb]
        have hb' : ¬ (st < bs ∨ st = bs ∧ be < e) := by simpa using hb
        refine ⟨m1, Or.inl m2, ?_, ?_⟩
        · rintro st' e' hst (h | h)
          · exact m3 st' e' hst h
          · have := n3 st' e' hst h
            dsimp only [spanOf] at this ⊢
            omega
        · rintro e' (h | h)
          · exact m4 e' h
          · dsimp only [spanOf] at h ⊢
            have hle := n3 bs e' m1 h
            obtain rfl : st = bs := by omega
            have := n4 e' h
            omega

/-- **The next span of a set**: leftmost, then longest, among the matches
of all its patterns that the word rule admits. -/
theorem searchNextAny_leftmost {set : List Search}
    (hset : ∀ s ∈ set, s.Usable ∧ (s.mode = .regex → regexFace = true ∨ s.g.first = 0)) {line : List UInt8}
    {off : Nat} :
    LeftmostLongest (fun st e => ∃ s ∈ set, s.WordMatch wword line st e) off
      (searchNextAny set regexFace line off wword) := by
  have hloop : ∀ (l : List (Search × Nat)) (M : Nat → Nat → Prop)
      (best : Option (Nat × Nat × Nat)),
      (∀ q ∈ l, q.1.Usable ∧ (q.1.mode = .regex → regexFace = true ∨ q.1.g.first = 0)) →
      LeftmostLongest M off (best.map spanOf) →
      LeftmostLongest (fun st e => M st e ∨ ∃ q ∈ l, q.1.WordMatch wword line st e) off
        ((l.foldl (fun best q =>
          betterSpan best (searchNextMatch q.1 regexFace line off wword) q.2) best).map spanOf) := by
    intro l
    induction l with
    | nil =>
        intro M best _ hM
        simpa using hM
    | cons q l ih =>
        intro M best hl hM
        have hq := hl q List.mem_cons_self
        have hN : LeftmostLongest (q.1.WordMatch wword line) off
            (searchNextMatch q.1 regexFace line off wword) :=
          nextMatchLoop_leftmost hq.1 hq.2 _ off (by omega)
        have hrest := ih _ _ (fun q' hq' => hl q' (List.mem_cons_of_mem q hq'))
          (leftmostLongest_betterSpan (p := q.2) hM hN)
        rw [List.foldl_cons]
        convert hrest using 3
        rw [List.exists_mem_cons_iff, or_assoc]
  have hzip : ∀ q ∈ set.zipIdx, q.1 ∈ set := fun q hq =>
    List.mem_of_getElem? (List.mem_zipIdx_iff_getElem?.mp hq)
  have h := hloop set.zipIdx (fun _ _ => False) none (fun q hq => hset q.1 (hzip q hq))
    (fun _ _ _ => not_false)
  have hiff : (fun st e => ∃ s ∈ set, s.WordMatch wword line st e)
      = fun st e => False ∨ ∃ q ∈ set.zipIdx, q.1.WordMatch wword line st e := by
    funext st e
    rw [false_or, eq_iff_iff]
    constructor
    · rintro ⟨s, hs, hm⟩
      obtain ⟨i, hi, rfl⟩ := List.getElem_of_mem hs
      exact ⟨(set[i], i), List.mem_zipIdx_iff_getElem?.mpr (List.getElem?_eq_getElem hi), hm⟩
    · rintro ⟨q, hq, hm⟩
      exact ⟨q.1, hzip q hq, hm⟩
  rw [hiff]
  exact h

theorem first_of_empty {pattern : List UInt8} {flags : SearchFlags} {k : Int} (hempty : cString pattern = []) :
    (searchCompile pattern flags k).g.first = 0 := by
  rw [searchCompile, hempty]
  dsimp only
  by_cases hlong : searchMaxPattern < pattern.length
  · rw [if_pos hlong]
    rfl
  rw [if_neg hlong]
  by_cases hk : 0 < k
  · rw [if_pos hk]
    rfl
  rw [if_neg hk]
  by_cases hfixed : flags.fixed = true
  · rw [if_pos hfixed]
    rfl
  rw [if_neg hfixed]
  cases flags.icase <;> rfl

/-- **Next match of a pattern set**: for every set of compiled patterns,
every line and every offset, with and without the word flag. `regexFace` is
set when the set was compiled to the regex face; it does not matter for the
empty pattern, which is always compiled to it. -/
theorem searchNextAny_spec {set : List Search}
    (hset : ∀ s ∈ set, ∃ pattern flags k, s = searchCompile pattern flags k ∧ s.valid = true
      ∧ (s.mode = .regex → cString pattern ≠ [] → regexFace = true)) (line : List UInt8) (off : Nat) :
    LeftmostLongest (fun st e => ∃ s ∈ set, s.WordMatch wword line st e) off
      (searchNextAny set regexFace line off wword) := by
  refine searchNextAny_leftmost fun s hs => ?_
  obtain ⟨pattern, flags, k, rfl, hv, hface⟩ := hset s hs
  refine ⟨usable_of_valid hv, fun hmode => ?_⟩
  by_cases hempty : cString pattern = []
  · exact .inr (first_of_empty hempty)
  · exact .inl (hface hmode hempty)

/-- `a-|a` with `-w` on `a-b`: the longer match is not word-bounded. -/
theorem searchNextAny_spec_words :
    LeftmostLongest
      (fun st e => ∃ s ∈ [searchCompile [0x61, 0x2d, 0x7c, 0x61] ⟨false, false⟩ 0],
        s.WordMatch true [0x61, 0x2d, 0x62] st e) 0
      (searchNextAny [searchCompile [0x61, 0x2d, 0x7c, 0x61] ⟨false, false⟩ 0] true
        [0x61, 0x2d, 0x62] 0 true) :=
  searchNextAny_spec
    (fun s hs => ⟨[0x61, 0x2d, 0x7c, 0x61], ⟨false, false⟩, 0, List.mem_singleton.mp hs, by
      rw [List.mem_singleton.mp hs]
      decide +kernel, fun _ _ => rfl⟩) _ 0

example : searchNextAny [searchCompile [0x61, 0x2d, 0x7c, 0x61] ⟨false, false⟩ 0] true
    [0x61, 0x2d, 0x62] 0 true = some (0, 1) := by decide +kernel

end Montauk
