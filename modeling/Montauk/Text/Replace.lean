import Montauk.Machine.Lines
import Montauk.Text.Spans

/-!
# Substitution on a line

`replace` rewrites each line of its input, as `sed -E s/P/R/g` does. The
loop asks `find_from` for the next match from where it stands, copies what
lies before it, writes the replacement and steps on, by one byte when the
match is empty.

`Sed` is the reference, over any match relation: an empty match right where
the previous match ended is not replaced. `Touches` says that the walk meets
one, which is what tells the two apart (`replaceLine_eq_sed_iff`).
-/

namespace Montauk

/-! ## The loop -/

/-- `has_escape`: a backslash with a byte behind it. -/
def hasEscape (repl : List UInt8) : Bool := repl.dropLast.any (· == 0x5c)

/-- `has_backref`: one of them asks for a group or the whole match. -/
def hasBackref (repl : List UInt8) : Bool :=
  (repl.zip repl.tail).any fun q => q.1 == 0x5c && (0x30 ≤ q.2 && q.2 ≤ 0x39)

/-- The text of group `gi`, empty when it did not participate. -/
def groupText (groups : Option (List MatchSpan)) (line : List UInt8) (ms gi : Nat) : List UInt8 :=
  match groups.bind (·[gi]?) with
  | none => []
  | some gr => if 0 ≤ gr.pat then (line.drop (ms + gr.start)).take (gr.stop - gr.start) else []

/-- The escape language of the replacement. -/
def expandRepl (groups : Option (List MatchSpan)) (line : List UInt8) (ms me : Nat) :
    List UInt8 → List UInt8
  | [] => []
  | [c] => [c]
  | c :: d :: rest =>
      if c = 0x5c then
        if 0x31 ≤ d ∧ d ≤ 0x39 then
          groupText groups line ms (d.toNat - 0x31) ++ expandRepl groups line ms me rest
        else if d = 0x30 then slice line ms me ++ expandRepl groups line ms me rest
        else if d = 0x5c then 0x5c :: expandRepl groups line ms me rest
        else c :: expandRepl groups line ms me (d :: rest)
      else c :: expandRepl groups line ms me (d :: rest)

/-- What is written for the match `line[ms..me)`; `captures` is
`sublimation_search_captures` of the pattern on the match's own text. -/
def matchOutput (captures : List UInt8 → Option (List MatchSpan)) (repl line : List UInt8)
    (ms me : Nat) : List UInt8 :=
  if hasEscape repl then
    expandRepl (if hasBackref repl && ms < me then captures (slice line ms me) else none)
      line ms me repl
  else repl

/-- The loop over one line. The tail behind the last match is written only
while `off` is inside the line. -/
def replaceLoop (s : Search) (line : List UInt8) (output : Nat → Nat → List UInt8) :
    Nat → Nat → Option (List UInt8)
  | 0, _ => none
  | fuel + 1, off =>
      if off ≤ line.length then
        match searchFindFrom s line off with
        | none => some (line.drop off)
        | some (ms, me) =>
            if ms < me then
              (replaceLoop s line output fuel me).map (slice line off ms ++ output ms me ++ ·)
            else
              (replaceLoop s line output fuel (ms + 1)).map
                (slice line off ms ++ output ms me ++ (line.drop ms).take 1 ++ ·)
      else some []

/-- The line as `getline` returns it, without its newline. -/
def lineBody (raw : List UInt8) : List UInt8 := Lines.chomp 0x0a raw

/-- `replace` on one line of its input. -/
def replaceLine (captures : List UInt8 → Option (List MatchSpan)) (s : Search)
    (repl raw : List UInt8) : Option (List UInt8) :=
  (replaceLoop s (lineBody raw) (matchOutput captures repl (lineBody raw))
    ((lineBody raw).length + 2) 0).map (· ++ [0x0a])

/-! ## The reference -/

/-- Global substitution of `R` for the spans of `M`, from `start`; `prev` is
where the match before it ended. -/
inductive Sed (M : Nat → Nat → Prop) (R line : List UInt8) :
    Nat → Option Nat → List UInt8 → Prop
  | done {start : Nat} {prev : Option Nat} (h : LeftmostLongest M start none) :
      Sed M R line start prev (line.drop start)
  | nonempty {start : Nat} {prev : Option Nat} {s e : Nat} {out : List UInt8}
      (h : LeftmostLongest M start (some (s, e))) (hne : s < e)
      (hrest : Sed M R line e (some e) out) :
      Sed M R line start prev (slice line start s ++ R ++ out)
  | empty {start : Nat} {prev : Option Nat} {s : Nat} {out : List UInt8}
      (h : LeftmostLongest M start (some (s, s))) (hrest : Sed M R line (s + 1) (some s) out) :
      Sed M R line start prev
        (slice line start s ++ (if prev = some s then [] else R) ++ (line.drop s).take 1 ++ out)

/-- `sed` keeps a missing newline at the end of its input. -/
def SedLine (M : Nat → Nat → Prop) (R raw out : List UInt8) : Prop :=
  ∃ body, Sed M R (lineBody raw) 0 none body
    ∧ out = body ++ if raw.getLast? = some 0x0a then [0x0a] else []

/-- The walk from `start` meets an empty match right where the match before
it ended. -/
inductive Touches (M : Nat → Nat → Prop) : Nat → Option Nat → Prop
  | here {start s : Nat} (h : LeftmostLongest M start (some (s, s))) : Touches M start (some s)
  | nonempty {start : Nat} {prev : Option Nat} {s e : Nat}
      (h : LeftmostLongest M start (some (s, e))) (hne : s < e) (hrest : Touches M e (some e)) :
      Touches M start prev
  | empty {start : Nat} {prev : Option Nat} {s : Nat}
      (h : LeftmostLongest M start (some (s, s))) (hrest : Touches M (s + 1) (some s)) :
      Touches M start prev

/-! ## The reference has one output -/

variable {M : Nat → Nat → Prop}

theorem leftmostLongest_unique {start : Nat} :
    ∀ {r r' : Option (Nat × Nat)}, LeftmostLongest M start r → LeftmostLongest M start r' → r = r'
  | none, none, _, _ => rfl
  | none, some (st, e), h, h' => absurd h'.2.1 (h st e h'.1)
  | some (st, e), none, h, h' => absurd h.2.1 (h' st e h.1)
  | some (st, e), some (st', e'), h, h' => by
      have h1 := h.2.2.1 st' e' h'.1 h'.2.1
      have h2 := h'.2.2.1 st e h.1 h.2.1
      obtain rfl : st = st' := by omega
      have h3 := h.2.2.2 e' h'.2.1
      have h4 := h'.2.2.2 e h.2.1
      obtain rfl : e = e' := by omega
      rfl

theorem Sed.unique {R line : List UInt8} {start : Nat} {prev : Option Nat} {out out' : List UInt8}
    (h : Sed M R line start prev out) (h' : Sed M R line start prev out') : out = out' := by
  induction h generalizing out' with
  | done h =>
      cases h' with
      | done _ => rfl
      | nonempty h₁ _ _ => exact absurd (leftmostLongest_unique h h₁) (by simp)
      | empty h₁ _ => exact absurd (leftmostLongest_unique h h₁) (by simp)
  | nonempty h hne _ ih =>
      cases h' with
      | done h₁ => exact absurd (leftmostLongest_unique h h₁) (by simp)
      | nonempty h₁ _ hrest =>
          obtain ⟨rfl, rfl⟩ := Prod.mk.inj (Option.some.inj (leftmostLongest_unique h h₁))
          rw [ih hrest]
      | empty h₁ _ =>
          obtain ⟨rfl, rfl⟩ := Prod.mk.inj (Option.some.inj (leftmostLongest_unique h h₁))
          exact absurd hne (Nat.lt_irrefl _)
  | empty h _ ih =>
      cases h' with
      | done h₁ => exact absurd (leftmostLongest_unique h h₁) (by simp)
      | nonempty h₁ hne _ =>
          obtain ⟨rfl, rfl⟩ := Prod.mk.inj (Option.some.inj (leftmostLongest_unique h h₁))
          exact absurd hne (Nat.lt_irrefl _)
      | empty h₁ hrest =>
          obtain ⟨rfl, -⟩ := Prod.mk.inj (Option.some.inj (leftmostLongest_unique h h₁))
          rw [ih hrest]

/-! ## The loop against the reference -/

section

variable {s : Search} {line R : List UInt8} {prev : Option Nat}

/-- The loop ends, and its output is the reference's, with a replacement more
for each empty match that touches the match before it. -/
theorem replaceLoop_sed (line R : List UInt8) (hs : s.Usable) :
    ∀ (fuel off : Nat), line.length + 2 ≤ off + fuel → off ≤ line.length + 1 →
      ∀ prev, ∃ code out, replaceLoop s line (fun _ _ => R) fuel off = some code
        ∧ Sed (s.Match line) R line off prev out
        ∧ out.length ≤ code.length
        ∧ (¬ Touches (s.Match line) off prev → code = out)
        ∧ (R = [] → code = out)
        ∧ (Touches (s.Match line) off prev → R ≠ [] → out.length < code.length)
  | 0, off, hf, ho => by omega
  | fuel + 1, off, hf, ho => by
      intro prev
      have hleft := searchFindFrom_leftmost hs.1 hs.2 line off
      have hstop : LeftmostLongest (s.Match line) off none →
          ¬ Touches (s.Match line) off prev := by
        rintro hnone (⟨h⟩ | ⟨h, -, -⟩ | ⟨h, -⟩)
        all_goals exact absurd (leftmostLongest_unique hnone h) (by simp)
      rw [replaceLoop]
      by_cases hoff : off ≤ line.length
      · rw [if_pos hoff]
        cases hfind : searchFindFrom s line off with
        | none =>
            rw [hfind] at hleft
            exact ⟨_, _, rfl, .done hleft, le_rfl, fun _ => rfl, fun _ => rfl,
              fun h => absurd h (hstop hleft)⟩
        | some r =>
            obtain ⟨ms, me⟩ := r
            rw [hfind] at hleft
            have hge : off ≤ ms := hleft.1
            have hb := match_bound hleft.2.1
            dsimp only
            by_cases hne : ms < me
            · rw [if_pos hne]
              obtain ⟨code, out, hc, hsed, hlen, h1, h2, h3⟩ :=
                replaceLoop_sed line R hs fuel me (by omega) (by omega) (some me)
              have htouch : Touches (s.Match line) off prev → Touches (s.Match line) me (some me) := by
                rintro (⟨h⟩ | ⟨h, -, hrest⟩ | ⟨h, -⟩)
                · obtain ⟨rfl, rfl⟩ :=
                    Prod.mk.inj (Option.some.inj (leftmostLongest_unique hleft h))
                  exact absurd hne (Nat.lt_irrefl _)
                · obtain ⟨rfl, rfl⟩ :=
                    Prod.mk.inj (Option.some.inj (leftmostLongest_unique hleft h))
                  exact hrest
                · obtain ⟨rfl, rfl⟩ :=
                    Prod.mk.inj (Option.some.inj (leftmostLongest_unique hleft h))
                  exact absurd hne (Nat.lt_irrefl _)
              refine ⟨_, _, by rw [hc, Option.map_some], .nonempty hleft hne hsed, ?_,
                fun hno => by rw [h1 fun h => hno (.nonempty hleft hne h)],
                fun hR => by rw [h2 hR], fun ht hR => ?_⟩
              · simpa using hlen
              · have := h3 (htouch ht) hR
                simpa using this
            · rw [if_neg hne]
              obtain rfl : ms = me := by omega
              obtain ⟨code, out, hc, hsed, hlen, h1, h2, h3⟩ :=
                replaceLoop_sed line R hs fuel (ms + 1) (by omega) (by omega) (some ms)
              have htouch : Touches (s.Match line) off prev →
                  prev = some ms ∨ Touches (s.Match line) (ms + 1) (some ms) := by
                rintro (⟨h⟩ | ⟨h, hlt, -⟩ | ⟨h, hrest⟩)
                · obtain ⟨rfl, -⟩ :=
                    Prod.mk.inj (Option.some.inj (leftmostLongest_unique hleft h))
                  exact Or.inl rfl
                · obtain ⟨rfl, rfl⟩ :=
                    Prod.mk.inj (Option.some.inj (leftmostLongest_unique hleft h))
                  exact absurd hlt (Nat.lt_irrefl _)
                · obtain ⟨rfl, -⟩ :=
                    Prod.mk.inj (Option.some.inj (leftmostLongest_unique hleft h))
                  exact Or.inr hrest
              have hhere : prev = some ms → Touches (s.Match line) off prev := by
                rintro rfl
                exact .here hleft
              refine ⟨_, _, by rw [hc, Option.map_some], .empty hleft hsed, ?_, fun hno => ?_,
                fun hR => ?_, fun ht hR => ?_⟩
              · simp only [List.length_append]
                split
                · rw [List.length_nil]
                  omega
                · omega
              · rw [if_neg fun h => hno (hhere h), h1 fun h => hno (.empty hleft h)]
              · rw [h2 hR, hR, ite_self]
              · have hpos := List.length_pos_iff.mpr hR
                simp only [List.length_append]
                by_cases hprev : prev = some ms
                · rw [if_pos hprev, List.length_nil]
                  omega
                · rw [if_neg hprev]
                  have := h3 ((htouch ht).resolve_left hprev) hR
                  omega
      · rw [if_neg hoff]
        have hnone : LeftmostLongest (s.Match line) off none := by
          rintro st e hst hm
          have := match_bound hm
          omega
        refine ⟨[], line.drop off, rfl, .done hnone, ?_, fun _ => ?_, fun _ => ?_,
          fun h => absurd h (hstop hnone)⟩
        all_goals rw [List.drop_eq_nil_of_le (by omega)]

/-- A replacement without a backslash stands for itself. -/
theorem matchOutput_plain {captures : List UInt8 → Option (List MatchSpan)} {repl : List UInt8}
    (hr : 0x5c ∉ repl) (ms me : Nat) : matchOutput captures repl line ms me = repl := by
  rw [matchOutput, if_neg]
  intro h
  obtain ⟨c, hc, heq⟩ := List.any_eq_true.mp h
  obtain rfl : c = 0x5c := by simpa using heq
  exact hr (List.mem_of_mem_dropLast hc)

/-- **Substitution against `sed`**: for every pattern that compiles on the
regex face, every replacement that stands for itself and every line, the
reference has one output, and `replace` ends with it exactly when the line
ends in a newline and the replacement is empty or no empty match touches the
match before it. -/
theorem replaceLine_eq_sed_iff {pattern : List UInt8} {icase : Bool}
    (hv : (searchCompile pattern ⟨false, icase⟩ 0).valid = true)
    (captures : List UInt8 → Option (List MatchSpan)) {repl : List UInt8} (hr : 0x5c ∉ repl)
    (raw : List UInt8) :
    ∃ out, SedLine ((searchCompile pattern ⟨false, icase⟩ 0).Match (lineBody raw)) repl raw out
      ∧ (∀ out', SedLine ((searchCompile pattern ⟨false, icase⟩ 0).Match (lineBody raw)) repl raw out'
          → out' = out)
      ∧ (replaceLine captures (searchCompile pattern ⟨false, icase⟩ 0) repl raw = some out
          ↔ raw.getLast? = some 0x0a
            ∧ (repl = [] ∨ ¬ Touches ((searchCompile pattern ⟨false, icase⟩ 0).Match (lineBody raw))
                0 none)) := by
  obtain ⟨code, out, hc, hsed, hlen, h1, h2, h3⟩ :=
    replaceLoop_sed (lineBody raw) repl (usable_of_valid hv)
      ((lineBody raw).length + 2) 0 (by omega) (by omega) none
  have hplain : matchOutput captures repl (lineBody raw) = fun _ _ => repl := by
    funext ms me
    exact matchOutput_plain hr ms me
  refine ⟨_, ⟨out, hsed, rfl⟩, ?_, ?_⟩
  · rintro out' ⟨body, hbody, rfl⟩
    rw [hsed.unique hbody]
  · rw [replaceLine, hplain, hc, Option.map_some, Option.some_inj]
    constructor
    · intro heq
      have hle := congrArg List.length heq
      simp only [List.length_append, List.length_singleton] at hle
      have hend : raw.getLast? = some 0x0a := by
        by_contra hend
        rw [if_neg hend, List.length_nil] at hle
        omega
      refine ⟨hend, ?_⟩
      by_contra hcon
      rw [not_or, not_not] at hcon
      have := h3 hcon.2 hcon.1
      rw [if_pos hend, List.length_singleton] at hle
      omega
    · rintro ⟨hend, hor⟩
      rw [if_pos hend]
      rcases hor with hR | hno
      · rw [h2 hR]
      · rw [h1 hno]

end

/-- `a` on the line `ba`. -/
theorem replaceLine_eq_sed_iff_ba :
    ∃ out, SedLine (patternA.Match (lineBody [0x62, 0x61, 0x0a])) [0x78] [0x62, 0x61, 0x0a] out
      ∧ (∀ out', SedLine (patternA.Match (lineBody [0x62, 0x61, 0x0a])) [0x78] [0x62, 0x61, 0x0a]
          out' → out' = out)
      ∧ (replaceLine (fun _ => none) patternA [0x78] [0x62, 0x61, 0x0a] = some out
          ↔ [0x62, 0x61, (0x0a : UInt8)].getLast? = some 0x0a
            ∧ ([(0x78 : UInt8)] = []
              ∨ ¬ Touches (patternA.Match (lineBody [0x62, 0x61, 0x0a])) 0 none)) :=
  replaceLine_eq_sed_iff (by decide +kernel) (fun _ => none)
    (by simp) [0x62, 0x61, 0x0a]

/-- The pattern `a*`. -/
def patternStar : Search := searchCompile [0x61, 0x2a] ⟨false, false⟩ 0

/-- `s/a*/x/g` on the line `a`: the empty match behind the `a` touches it. -/
theorem replaceLine_touching :
    patternStar.valid = true
      ∧ SedLine (patternStar.Match (lineBody [0x61, 0x0a])) [0x78] [0x61, 0x0a] [0x78, 0x0a]
      ∧ replaceLine (fun _ => none) patternStar [0x78] [0x61, 0x0a]
          = some [0x78, 0x78, 0x0a] := by
  have hv : patternStar.valid = true := by decide +kernel
  have hfind : ∀ start, LeftmostLongest (patternStar.Match (lineBody [0x61, 0x0a])) start
      (searchFindFrom patternStar (lineBody [0x61, 0x0a]) start) := fun start =>
    searchFindFrom_leftmost hv (usable_of_valid hv).2 _ start
  have h0 : searchFindFrom patternStar (lineBody [0x61, 0x0a]) 0 = some (0, 1) := by decide +kernel
  have h1 : searchFindFrom patternStar (lineBody [0x61, 0x0a]) 1 = some (1, 1) := by decide +kernel
  have h2 : searchFindFrom patternStar (lineBody [0x61, 0x0a]) 2 = none := by decide +kernel
  refine ⟨hv, ⟨[0x78], ?_, rfl⟩, by decide +kernel⟩
  exact .nonempty (h0 ▸ hfind 0) Nat.one_pos (.empty (h1 ▸ hfind 1) (.done (h2 ▸ hfind 2)))

end Montauk
