import Montauk.Text.Cut
import Montauk.Text.Spans

/-!
# Splitting an alternation

`sublimation_search_split_alternation`: the command line expands a pattern
that is too long for the field into its top-level branches, one pattern
each. The splitter reads the text with its own rules for escapes, bracket
expressions and parentheses; on a pattern that compiles it stops at every
bar the grammar reads as one and at no other (`parseRe_split`).

The branches then select the lines the whole pattern selects when none of
them begins with `^` or ends with `$`, which the whole pattern peels off
its own ends before it looks for bars, or reads literally, and when the
tree hands no position with a loop back (`searchSelects_split`). An
anchored branch is read otherwise on its own (`searchSelects_split_anchor`).

The splitter's one failure for want of memory is left out.
-/

namespace Montauk

/-- One step of the splitter past a byte that is no cut: the depth and the
text behind an escape, a bracket expression or the byte. -/
def splitNext (depth : Nat) (c : UInt8) (rest : List UInt8) : Nat × List UInt8 :=
  if c = Ch.backslash ∧ rest ≠ [] then (depth, rest.tail)
  else if c = Ch.lbrack then (depth, ((classSpan (c :: rest) false).map (·.2)).getD [])
  else if c = Ch.lparen then (depth + 1, rest)
  else if c = Ch.rparen then (depth - 1, rest)
  else (depth, rest)

/-- The loop of the splitter: `start` is the text from the branch being
read on, the last argument the text from the cursor on. -/
def splitLoop : Nat → Nat → List UInt8 → List UInt8 → List (List UInt8)
  | 0, _, start, _ => [start]
  | _ + 1, _, start, [] => [start]
  | n + 1, depth, start, c :: rest =>
      if c = Ch.bar ∧ depth = 0 then
        start.take (start.length - (c :: rest).length) :: splitLoop n depth rest rest
      else splitLoop n (splitNext depth c rest).1 start (splitNext depth c rest).2

/-- `sublimation_search_split_alternation`: the top-level branches, if
there are two or more. -/
def searchSplitAlternation (pattern : List UInt8) : Option (List (List UInt8)) :=
  let br := splitLoop ((cString pattern).length + 1) 0 (cString pattern) (cString pattern)
  if br.length < 2 then none else some br

/-! ## The branches make up the pattern -/

theorem splitNext_suffix (depth : Nat) (c : UInt8) (rest : List UInt8) :
    (splitNext depth c rest).2 <:+ rest := by
  rw [splitNext]
  split
  · exact List.tail_suffix rest
  split
  · cases h : classSpan (c :: rest) false with
    | none => exact List.nil_suffix
    | some r =>
        obtain ⟨S, a⟩ := r
        have hshort := classSpan_shorter h
        rcases List.suffix_cons_iff.mp hshort.suffix with rfl | hs
        · exact absurd hshort.lt (lt_irrefl _)
        · exact hs
  split
  · exact List.suffix_rfl
  split
  · exact List.suffix_rfl
  · exact List.suffix_rfl

theorem splitLoop_ne_nil : ∀ (n depth : Nat) (start cur : List UInt8),
    splitLoop n depth start cur ≠ []
  | 0, _, _, _ => List.cons_ne_nil _ _
  | _ + 1, _, _, [] => List.cons_ne_nil _ _
  | n + 1, depth, start, c :: rest => by
      rw [splitLoop]
      split
      · exact List.cons_ne_nil _ _
      · exact splitLoop_ne_nil n _ start _

theorem splitLoop_join : ∀ (n depth : Nat) (start cur : List UInt8), cur <:+ start →
    List.intercalate [Ch.bar] (splitLoop n depth start cur) = start
  | 0, _, start, _, _ => by
      rw [splitLoop, List.intercalate_singleton]
  | _ + 1, _, start, [], _ => by
      rw [splitLoop, List.intercalate_singleton]
  | n + 1, depth, start, c :: rest, hsuf => by
      rw [splitLoop]
      split
      · rename_i hcut
        obtain ⟨x, rfl⟩ := hsuf
        have ih := splitLoop_join n depth rest rest List.suffix_rfl
        have htake : (x ++ c :: rest).take ((x ++ c :: rest).length - (c :: rest).length) = x := by
          rw [List.length_append, Nat.add_sub_cancel, List.take_left]
        rw [List.intercalate_cons_of_ne_nil (splitLoop_ne_nil n depth rest rest), ih, htake, hcut.1,
          List.append_assoc]
        rfl
      · exact splitLoop_join n _ start _
          ((splitNext_suffix depth c rest).trans ((List.suffix_cons c rest).trans hsuf))

theorem searchSplitAlternation_join {pattern : List UInt8} {br : List (List UInt8)}
    (h : searchSplitAlternation pattern = some br) :
    List.intercalate [Ch.bar] br = cString pattern := by
  rw [searchSplitAlternation] at h
  split at h
  · exact absurd h (by simp)
  · obtain rfl := Option.some.inj h
    exact splitLoop_join _ 0 _ _ List.suffix_rfl

theorem mem_intercalate {c : UInt8} {b : List UInt8} (hc : c ∈ b) :
    ∀ {br : List (List UInt8)}, b ∈ br → c ∈ List.intercalate [Ch.bar] br
  | [x], hb => by
      rw [List.intercalate_singleton, ← List.mem_singleton.mp hb]
      exact hc
  | x :: y :: br, hb => by
      rw [List.intercalate_cons_cons, List.mem_append, List.mem_append]
      rcases List.mem_cons.mp hb with rfl | hb
      · exact Or.inl (Or.inl hc)
      · exact Or.inr (mem_intercalate hc hb)

theorem head_intercalate {c : UInt8} (hbar : c ≠ Ch.bar) : ∀ {br : List (List UInt8)},
    (∀ b ∈ br, b.head? ≠ some c) → (List.intercalate [Ch.bar] br).head? ≠ some c
  | [], _ => by simp [List.intercalate]
  | [x], h => by
      rw [List.intercalate_singleton]
      exact h x (List.mem_singleton.mpr rfl)
  | x :: y :: br, h => by
      have hx := h x List.mem_cons_self
      rw [List.intercalate_cons_cons]
      cases x with
      | nil => exact fun heq => hbar (Option.some.inj heq).symm
      | cons d x => exact hx

theorem getLast_intercalate {c : UInt8} (hbar : c ≠ Ch.bar) : ∀ {br : List (List UInt8)},
    (∀ b ∈ br, b.getLast? ≠ some c) → (List.intercalate [Ch.bar] br).getLast? ≠ some c
  | [], _ => by simp [List.intercalate]
  | [x], h => by
      rw [List.intercalate_singleton]
      exact h x (List.mem_singleton.mpr rfl)
  | x :: y :: br, h => by
      have ih := getLast_intercalate hbar fun b hb => h b (List.mem_cons_of_mem _ hb)
      rw [List.intercalate_cons_cons, List.getLast?_append]
      cases hlast : (List.intercalate [Ch.bar] (y :: br)).getLast? with
      | none =>
          rw [Option.none_or, List.getLast?_append]
          exact fun heq => hbar (Option.some.inj heq).symm
      | some d =>
          rw [hlast] at ih
          exact ih

/-! ## The splitter follows the grammar -/

/-- The splitter goes from one cursor to another without a cut. -/
inductive SkipTo : Nat → List UInt8 → Nat → List UInt8 → Prop
  | refl {d : Nat} {p : List UInt8} : SkipTo d p d p
  | step {d d' : Nat} {c : UInt8} {rest p' : List UInt8} (hcut : ¬(c = Ch.bar ∧ d = 0))
      (h : SkipTo (splitNext d c rest).1 (splitNext d c rest).2 d' p') : SkipTo d (c :: rest) d' p'

theorem SkipTo.trans {d₁ d₂ d₃ : Nat} {p₁ p₂ p₃ : List UInt8} (h : SkipTo d₁ p₁ d₂ p₂)
    (h' : SkipTo d₂ p₂ d₃ p₃) : SkipTo d₁ p₁ d₃ p₃ := by
  induction h with
  | refl => exact h'
  | step hcut h ih => exact .step hcut (ih h')

/-- Skipping does not change what is cut, whatever fuel above the length of
the text is left. -/
theorem splitLoop_skip {d d' : Nat} {p p' : List UInt8} (h : SkipTo d p d' p') :
    ∀ {n : Nat}, p.length < n → ∃ m, p'.length < m
      ∧ ∀ start, splitLoop n d start p = splitLoop m d' start p' := by
  induction h with
  | refl => exact fun hn => ⟨_, hn, fun _ => rfl⟩
  | @step d d' c rest p' hcut h ih =>
      intro n hn
      obtain ⟨k, rfl⟩ : ∃ k, n = k + 1 := ⟨n - 1, by omega⟩
      have hlen : (splitNext d c rest).2.length < k :=
        Nat.lt_of_le_of_lt (splitNext_suffix d c rest).length_le (Nat.lt_of_succ_lt_succ hn)
      obtain ⟨m, hm, heq⟩ := ih hlen
      refine ⟨m, hm, fun start => ?_⟩
      rw [splitLoop, if_neg hcut]
      exact heq start

/-- A byte the splitter has no rule for. -/
def splitPlain (c : UInt8) : Bool :=
  c != Ch.bar && c != Ch.backslash && c != Ch.lbrack && c != Ch.lparen && c != Ch.rparen

theorem splitNext_plain {c : UInt8} (hc : splitPlain c = true) (d : Nat) (rest : List UInt8) :
    splitNext d c rest = (d, rest) := by
  simp only [splitPlain, Bool.and_eq_true, bne_iff_ne] at hc
  rw [splitNext, if_neg fun h => hc.1.1.1.2 h.1, if_neg hc.1.1.2, if_neg hc.1.2, if_neg hc.2]

theorem SkipTo.plain {d : Nat} {v : List UInt8} : ∀ {u : List UInt8},
    (∀ c ∈ u, splitPlain c = true) → SkipTo d (u ++ v) d v
  | [], _ => .refl
  | c :: u, h => by
      have hc := h c List.mem_cons_self
      refine .step ?_ ?_
      · rintro ⟨rfl, -⟩
        exact absurd hc (by decide)
      · rw [splitNext_plain hc]
        exact SkipTo.plain fun c hc => h c (List.mem_cons_of_mem _ hc)

theorem SkipTo.byte {d : Nat} {p : List UInt8} (hne : p ≠ []) (hc : splitPlain (p.headD 0) = true) :
    SkipTo d p d p.tail := by
  cases p with
  | nil => exact absurd rfl hne
  | cons c rest =>
      exact SkipTo.plain (u := [c]) fun d hd => List.mem_singleton.mp hd ▸ hc

theorem SkipTo.digits {d : Nat} : ∀ (p : List UInt8) (v : Nat), SkipTo d p d (readNumber p v).2
  | [], _ => .refl
  | c :: rest, v => by
      rw [readNumber]
      split
      · rename_i hc
        have hplain : splitPlain c = true :=
          forall_byte (P := fun c => isDigit c = true → splitPlain c = true) (by decide +kernel) c hc
        exact (SkipTo.byte (List.cons_ne_nil c rest) hplain).trans (SkipTo.digits rest _)
      · exact .refl

theorem SkipTo.brace {d : Nat} (p : List UInt8) : SkipTo d p d (readBounds p).rest := by
  have h := SkipTo.digits (d := d) p 0
  rw [readBounds]
  generalize readNumber p 0 = e at h ⊢
  obtain ⟨lo, r⟩ := e
  dsimp only at h ⊢
  split
  · rename_i hcomma
    have hne : r ≠ [] := by
      rintro rfl
      exact absurd hcomma (by decide)
    have htail := h.trans (SkipTo.byte hne (by rw [hcomma]; decide))
    split
    · exact htail.trans (SkipTo.digits _ _)
    · exact htail
  · exact h

/-! ### Bracket expressions -/

/-- Two looks at one text for a class name find the same. -/
inductive PosixSpan.Same : PosixSpan → PosixSpan → Prop
  | bad : Same .bad .bad
  | literal : Same .literal .literal
  | span (S S' : ByteSet) (rest : List UInt8) : Same (.span S rest) (.span S' rest)

theorem posixClassSpan_same (p : List UInt8) (S S' : ByteSet) (icase icase' : Bool) :
    (posixClassSpan p S icase).Same (posixClassSpan p S' icase') := by
  match p with
  | [] => exact .literal
  | [_] => exact .literal
  | c :: d :: rest =>
      rw [posixClassSpan, posixClassSpan]
      split
      · cases posixName rest with
        | none => exact .literal
        | some r =>
            obtain ⟨name, after⟩ := r
            dsimp only
            cases posixClass? name with
            | none => exact .bad
            | some mem => exact .span _ _ _
      · exact .literal

/-- Where a member loop ends depends neither on folding nor on the set. -/
theorem classLoop_same (icase icase' : Bool) : ∀ (n : Nat) (first : Bool) (S S' : ByteSet)
    (p : List UInt8),
    (classLoop icase n first S p).map (·.2) = (classLoop icase' n first S' p).map (·.2)
  | 0, _, _, _, _ => rfl
  | _ + 1, _, _, _, [] => rfl
  | n + 1, first, S, S', c :: rest => by
      unfold classLoop
      split
      · rfl
      · have hsame := posixClassSpan_same (c :: rest) S S' icase icase'
        generalize posixClassSpan (c :: rest) S icase = a at hsame ⊢
        generalize posixClassSpan (c :: rest) S' icase' = b at hsame ⊢
        cases hsame with
        | bad => rfl
        | span => exact classLoop_same icase icase' n false _ _ _
        | literal =>
            dsimp only
            split
            · split
              · exact classLoop_same icase icase' n false _ _ _
              · exact classLoop_same icase icase' n false _ _ _
            · exact classLoop_same icase icase' n false _ _ _

theorem classSpan_same (p : List UInt8) (icase icase' : Bool) :
    (classSpan p icase).map (·.2) = (classSpan p icase').map (·.2) := by
  rw [classSpan, classSpan, Option.map_map, Option.map_map]
  exact classLoop_same icase icase' _ true 0 0 _

/-! ### Items and alternations -/

section Follow

variable {icase : Bool} {s s' : PPos} {t : Re} {alt : PPos → Option (Re × PPos)} {d : Nat}

theorem SkipTo.cons {c : UInt8} {rest p : List UInt8} {d' : Nat} (hbar : c ≠ Ch.bar)
    (h : splitNext d c rest = (d', p)) : SkipTo d (c :: rest) d' p := by
  refine .step (fun hc => hbar hc.1) ?_
  rw [h]
  exact .refl

theorem SkipTo.posAtom (hs : pPosAtom icase s = some (t, s')) (hgo : concatGoes s.cur = true)
    (hparen : s.cur ≠ Ch.lparen) (hz : (0 : UInt8) ∉ s.p) : SkipTo d s.p d s'.p := by
  obtain ⟨c, rest, hp⟩ := List.exists_cons_of_ne_nil (concatGoes_ne hgo)
  have hcur : s.cur = c := by rw [PPos.cur, hp]; rfl
  have htail : s.p.tail = rest := by rw [hp]; rfl
  rw [hcur] at hgo hparen
  have hbar : c ≠ Ch.bar := by
    rintro rfl
    exact absurd hgo (by decide)
  rw [pPosAtom, hcur] at hs
  split at hs
  · rename_i hdot
    obtain ⟨-, rfl⟩ := Prod.mk.inj (Option.some.inj hs)
    have hplain : splitPlain (s.p.headD 0) = true := by
      have hhead : s.p.headD 0 = Ch.dot := hcur.trans hdot
      rw [hhead]
      decide
    exact SkipTo.byte (concatGoes_ne (hcur.symm ▸ hgo)) hplain
  rename_i hdot
  split at hs
  · rename_i hclass
    obtain ⟨⟨S, r⟩, hspan, heq⟩ := Option.map_eq_some_iff.mp hs
    obtain ⟨-, rfl⟩ := Prod.mk.inj heq
    have hsame := classSpan_same s.p icase false
    rw [hspan, hp, Option.map_some] at hsame
    rw [hp]
    refine SkipTo.cons hbar ?_
    rw [splitNext, if_neg (by rw [hclass]; exact fun h => absurd h.1 (by decide)), if_pos hclass,
      ← hsame]
    rfl
  rename_i hclass
  by_cases hesc : c = Ch.backslash ∧ s.adv.cur ≠ 0
  · rw [if_pos hesc] at hs
    have hrest : rest ≠ [] := htail ▸ cur_ne_zero_iff hesc.2
    have htext : s'.p = rest.tail := by
      split at hs
      · obtain ⟨-, rfl⟩ := Prod.mk.inj (Option.some.inj hs)
        exact congrArg List.tail htail
      · obtain ⟨-, rfl⟩ := Prod.mk.inj (Option.some.inj hs)
        exact congrArg List.tail htail
    rw [hp, htext]
    refine SkipTo.cons hbar ?_
    rw [splitNext, if_pos ⟨hesc.1, hrest⟩]
  · rw [if_neg hesc] at hs
    have htext : s'.p = rest := by
      obtain ⟨-, rfl⟩ := Prod.mk.inj (Option.some.inj hs)
      exact htail
    have hend : ¬(c = Ch.backslash ∧ rest ≠ []) := by
      rintro ⟨hb, hrest⟩
      refine hesc ⟨hb, ?_⟩
      obtain ⟨e, r, rfl⟩ := List.exists_cons_of_ne_nil hrest
      show s.p.tail.headD 0 ≠ 0
      rw [htail]
      rintro rfl
      exact hz (by rw [hp]; exact List.mem_cons_of_mem _ List.mem_cons_self)
    have hclose : c ≠ Ch.rparen := by
      rintro rfl
      exact absurd hgo (by decide)
    rw [hp, htext]
    refine SkipTo.cons hbar ?_
    rw [splitNext, if_neg hend, if_neg hclass, if_neg hparen, if_neg hclose]

/-- A parser of nested alternations inside which the splitter does not
cut. -/
def Uncut (alt : PPos → Option (Re × PPos)) : Prop :=
  ∀ s t s', alt s = some (t, s') → (0 : UInt8) ∉ s.p → ∀ d, SkipTo (d + 1) s.p (d + 1) s'.p

theorem SkipTo.atom (halt : Uncut alt) (hs : pAtom icase alt s = some (t, s'))
    (hgo : concatGoes s.cur = true) (hz : (0 : UInt8) ∉ s.p) : SkipTo d s.p d s'.p := by
  have hne := concatGoes_ne hgo
  rw [pAtom] at hs
  split at hs
  · rename_i hparen
    obtain ⟨⟨u, s₁⟩, hu, hs⟩ := Option.bind_eq_some_iff.mp hs
    dsimp only at hs
    split at hs
    · rename_i hclose
      obtain ⟨-, rfl⟩ := Prod.mk.inj (Option.some.inj hs)
      obtain ⟨c, rest, hp⟩ := List.exists_cons_of_ne_nil hne
      obtain ⟨e, rest₁, hp₁⟩ :=
        List.exists_cons_of_ne_nil (cur_ne_zero_iff (s := s₁) (by rw [hclose]; decide))
      obtain rfl : c = Ch.lparen := by rw [← hparen, PPos.cur, hp]; rfl
      obtain rfl : e = Ch.rparen := by rw [← hclose, PPos.cur, hp₁]; rfl
      have hin : SkipTo (d + 1) s.adv.p (d + 1) s₁.p :=
        halt _ _ _ hu (fun h => hz (List.mem_of_mem_tail h)) d
      have hadv : s.adv.p = rest := by
        show s.p.tail = rest
        rw [hp]
        rfl
      have hadv₁ : s₁.adv.p = rest₁ := by
        show s₁.p.tail = rest₁
        rw [hp₁]
        rfl
      rw [hadv, hp₁] at hin
      rw [hp, hadv₁]
      have hopen : SkipTo d (Ch.lparen :: rest) (d + 1) rest := SkipTo.cons (by decide) rfl
      have hshut : SkipTo (d + 1) (Ch.rparen :: rest₁) d rest₁ := SkipTo.cons (by decide) rfl
      exact (hopen.trans hin).trans hshut
    · exact absurd hs (by simp)
  · rename_i hparen
    split at hs
    · rename_i n ms hk
      obtain ⟨-, rfl⟩ := Prod.mk.inj (Option.some.inj hs)
      obtain ⟨-, hlead, -, cp, hcp⟩ := foldClass_decode hk
      obtain ⟨-, -, hcont⟩ := u8Decode_bytes hcp
      have hplain : ∀ c ∈ s.p.take n, splitPlain c = true := by
        intro c hc
        cases htake : s.p.take n with
        | nil =>
            rw [htake] at hc
            exact absurd hc List.not_mem_nil
        | cons b bytes =>
            rw [htake] at hc hcont
            rcases List.mem_cons.mp hc with rfl | hc
            · have hb : c = s.p.headD 0 := by
                obtain ⟨e, rest, hp⟩ := List.exists_cons_of_ne_nil hne
                rw [hp] at htake ⊢
                cases n with
                | zero => exact absurd htake (by simp)
                | succ n => exact (List.cons.inj htake).1.symm
              rw [← hb] at hlead
              exact forall_byte (P := fun c => 0xc0 ≤ c → splitPlain c = true) (by decide +kernel) c
                hlead
            · exact forall_byte (P := fun c => c &&& 0xc0 = 0x80 → splitPlain c = true)
                (by decide +kernel) c (hcont c hc)
      have hskip := SkipTo.plain (d := d) (v := s.p.drop n) hplain
      rwa [List.take_append_drop] at hskip
    · exact SkipTo.posAtom hs hgo hparen hz

theorem SkipTo.repeat (halt : Uncut alt)
    (hs : pRepeat icase alt s = some (t, s')) (hgo : concatGoes s.cur = true)
    (hz : (0 : UInt8) ∉ s.p) : SkipTo d s.p d s'.p := by
  obtain ⟨a, s₁, ha, hq⟩ := pRepeat_quant hs
  have h₁ : SkipTo d s.p d s₁.p := SkipTo.atom halt ha hgo hz
  have hbyte : ∀ {c : UInt8}, s₁.cur = c → concatGoes c = true → splitPlain c = true →
      SkipTo d s.p d s₁.p.tail := by
    intro c hc hgo' hplain
    refine h₁.trans (SkipTo.byte (concatGoes_ne (hc.symm ▸ hgo')) ?_)
    have hcur : s₁.p.headD 0 = c := hc
    rw [hcur]
    exact hplain
  cases hq with
  | none => exact h₁
  | star hc => exact hbyte hc (by decide) (by decide)
  | plus hc => exact hbyte hc (by decide) (by decide)
  | quest hc => exact hbyte hc (by decide) (by decide)
  | brace hc hone hhi hlo hend =>
      have hrest := (hbyte hc (by decide) (by decide)).trans (SkipTo.brace s₁.p.tail)
      refine hrest.trans (SkipTo.byte ?_ (by rw [hend]; decide))
      intro hnil
      rw [hnil] at hend
      exact absurd hend (by decide)

theorem Items.skip (hsuf : LeavesSuffix alt) (halt : Uncut alt) {bs : List Re}
    (hs : Items icase alt s bs s') : (0 : UInt8) ∉ s.p → SkipTo d s.p d s'.p := by
  induction hs with
  | done => exact fun _ => .refl
  | item hgo hb hbs ih =>
      intro hz
      have hrest := (pRepeat_shorter hsuf hb (concatGoes_ne hgo)).suffix
      exact (SkipTo.repeat halt hb hgo hz).trans (ih fun h => hz (hrest.mem h))

theorem SkipTo.concat (hsuf : LeavesSuffix alt) (halt : Uncut alt)
    (hs : pConcat icase alt s = some (t, s')) (hz : (0 : UInt8) ∉ s.p) : SkipTo d s.p d s'.p := by
  obtain ⟨bs, hbs, -⟩ := (pConcat_iff hsuf).mp hs
  exact hbs.skip hsuf halt hz

theorem Branches.skip (hsuf : LeavesSuffix alt) (halt : Uncut alt) {bs : List Re}
    (hs : Branches icase alt s bs s') :
    (0 : UInt8) ∉ s.p → SkipTo (d + 1) s.p (d + 1) s'.p := by
  induction hs with
  | done => exact fun _ => .refl
  | @branch s s₁ s' b bs hbar hb hbs ih =>
      intro hz
      obtain ⟨c, rest, hp⟩ := List.exists_cons_of_ne_nil (bar_ne hbar)
      obtain rfl : c = Ch.bar := by rw [← hbar, PPos.cur, hp]; rfl
      have hadv : s.adv.p = rest := by
        show s.p.tail = rest
        rw [hp]
        rfl
      have hz' : (0 : UInt8) ∉ s.adv.p := fun h => hz (List.mem_of_mem_tail h)
      have hcat : SkipTo (d + 1) s.adv.p (d + 1) s₁.p := SkipTo.concat hsuf halt hb hz'
      have hopen : SkipTo (d + 1) s.p (d + 1) s.adv.p := by
        rw [hp, hadv]
        refine .step (fun h => absurd h.2 (Nat.succ_ne_zero d)) ?_
        exact .refl
      exact (hopen.trans hcat).trans (ih fun h => hz' ((pConcat_suffix hsuf hb).mem h))

theorem pAlt_uncut (icase : Bool) : ∀ d, Uncut (pAlt icase d)
  | 0, _, _, _, h, _, _ => absurd h (by simp [pAlt])
  | n + 1, s, t, s', hs, hz, d => by
      have hsuf := pAlt_suffix icase n
      have halt := pAlt_uncut icase n
      obtain ⟨b, s₁, bs, hb, hbs, -⟩ := (pAltWith_iff hsuf).mp hs
      exact (SkipTo.concat hsuf halt hb hz).trans
        (hbs.skip hsuf halt fun h => hz ((pConcat_suffix hsuf hb).mem h))

end Follow

/-! ## The branches of a pattern that compiles -/

section Branches

variable {icase : Bool} {s s' : PPos} {d : Nat}

theorem parse_piece {b : Re} {s₁ : PPos} (hleft : s.foldLeft = 0)
    (hb : pConcat icase (pAlt icase d) s = some (b, s₁)) :
    Stop s₁.p ∧ ∃ x, s.p = x ++ s₁.p ∧ parseRe icase x = some b := by
  have hsuf := pAlt_suffix icase d
  have hstop : Stop s₁.p := by
    obtain ⟨bs, hbs, -⟩ := (pConcat_iff hsuf).mp hb
    have hend : concatGoes s₁.cur = false := hbs.stops
    refine ⟨?_⟩
    by_contra hne
    rw [not_or, not_or] at hne
    have hgo : concatGoes s₁.cur = true := by
      have h0 : s₁.cur ≠ 0 := hne.1
      have hbar : s₁.cur ≠ Ch.bar := hne.2.1
      have hparen : s₁.cur ≠ Ch.rparen := hne.2.2
      rw [concatGoes, bne_iff_ne.mpr h0, bne_iff_ne.mpr hbar, bne_iff_ne.mpr hparen]
      rfl
    exact absurd (hend.symm.trans hgo) Bool.false_ne_true
  refine ⟨hstop, ?_⟩
  obtain ⟨x, hx⟩ := pConcat_suffix hsuf hb
  refine ⟨x, hx.symm, ?_⟩
  have hcut : Cut s₁.p s ⟨x, 0, 0⟩ := ⟨hx.symm, hleft, fun h => absurd hleft h⟩
  have hsuf' := pAlt_suffix icase x.length
  obtain ⟨s₂, hb₂, h₂⟩ := hcut.concat hstop hsuf hsuf' (pAlt_sim hstop d x.length)
    (Nat.lt_succ_self x.length) hb List.suffix_rfl
  have hnil : s₂.p = [] := h₂.at_suffix (List.nil_append _).symm
  have hdone : Branches icase (pAlt icase x.length) s₂ [] s₂ :=
    .done (by rw [PPos.cur, hnil]; decide)
  have halt : pAlt icase (x.length + 1) ⟨x, 0, 0⟩ = some (b, s₂) :=
    (pAltWith_iff hsuf').mpr ⟨b, s₂, [], hb₂, hdone, rfl⟩
  rw [parseRe, halt, Option.bind_some, if_pos hnil]

/-- The splitter cuts at the bars of an alternation, and each text between
two bars reads as its branch. -/
theorem Branches.split {bs : List Re} (hs : Branches icase (pAlt icase d) s bs s') :
    s'.p = [] → (0 : UInt8) ∉ s.p → Pend icase s → ∀ {n : Nat} (x : List UInt8), s.p.length < n →
      ∃ xs, splitLoop n 0 (x ++ s.p) s.p = x :: xs
        ∧ List.Forall₂ (fun x b => parseRe icase x = some b) xs bs := by
  have hsuf := pAlt_suffix icase d
  induction hs with
  | @done s hbar =>
      intro hend hz hpend n x hn
      obtain ⟨m, rfl⟩ : ∃ m, n = m + 1 := ⟨n - 1, by omega⟩
      rw [hend, List.append_nil, splitLoop]
      exact ⟨[], rfl, .nil⟩
  | @branch s s₁ s' b bs hbar hb hbs ih =>
      intro hend hz hpend n x hn
      obtain ⟨c, rest, hp⟩ := List.exists_cons_of_ne_nil (bar_ne hbar)
      obtain rfl : c = Ch.bar := by rw [← hbar, PPos.cur, hp]; rfl
      have hadv : s.adv.p = rest := by
        show s.p.tail = rest
        rw [hp]
        rfl
      have hleft : s.adv.foldLeft = 0 := hpend.closed (by rw [hbar]; decide)
      have hpend' : Pend icase s.adv := pend_closed (s := s) hleft
      have hz' : (0 : UInt8) ∉ s.adv.p := fun h => hz (List.mem_of_mem_tail h)
      have hz₁ : (0 : UInt8) ∉ s₁.p := fun h => hz' ((pConcat_suffix hsuf hb).mem h)
      have hpend₁ : Pend icase s₁ := hpend'.concat hsuf (pAlt_pend icase d) hb
      obtain ⟨-, y, hy, hparse⟩ := parse_piece hleft hb
      obtain ⟨m, rfl⟩ : ∃ m, n = m + 1 := ⟨n - 1, by omega⟩
      have hskip : SkipTo 0 s.adv.p 0 s₁.p := SkipTo.concat hsuf (pAlt_uncut icase d) hb hz'
      have hm : s.adv.p.length < m := by
        rw [hp, List.length_cons] at hn
        rw [hadv]
        omega
      obtain ⟨k, hk, hloop⟩ := splitLoop_skip hskip hm
      obtain ⟨xs, hxs, hall⟩ := ih hend hz₁ hpend₁ y hk
      refine ⟨y :: xs, ?_, .cons hparse hall⟩
      have htake : (x ++ Ch.bar :: rest).take
          ((x ++ Ch.bar :: rest).length - (Ch.bar :: rest).length) = x := by
        rw [List.length_append, Nat.add_sub_cancel, List.take_left]
      rw [hp, splitLoop, if_pos ⟨rfl, rfl⟩, htake, ← hadv, hloop, hy, hxs]

/-- **The splitter and the grammar agree**: on a pattern the grammar reads,
the splitter's branches are texts that read as the branches of its tree. -/
theorem parseRe_split {body : List UInt8} {t : Re} (h : parseRe icase body = some t)
    (hz : (0 : UInt8) ∉ body) :
    ∃ x xs b bs, splitLoop (body.length + 1) 0 body body = x :: xs ∧ parseRe icase x = some b
      ∧ List.Forall₂ (fun x b => parseRe icase x = some b) xs bs ∧ t = bs.foldl .alt b := by
  obtain ⟨⟨u, s'⟩, hu, h⟩ := Option.bind_eq_some_iff.mp h
  have h : (if s'.p = [] then some u else none) = some t := h
  split at h
  · rename_i hend
    obtain rfl := Option.some.inj h
    have hsuf := pAlt_suffix icase body.length
    obtain ⟨b, s₁, bs, hb, hbs, rfl⟩ := (pAltWith_iff hsuf).mp hu
    have hpend : Pend icase ⟨body, 0, 0⟩ := pend_closed (s := ⟨body, 0, 0⟩) rfl
    obtain ⟨-, x, hx, hparse⟩ := parse_piece rfl hb
    have hskip : SkipTo 0 body 0 s₁.p :=
      SkipTo.concat (s := ⟨body, 0, 0⟩) hsuf (pAlt_uncut icase body.length) hb hz
    have hz₁ : (0 : UInt8) ∉ s₁.p := fun h => hz ((pConcat_suffix hsuf hb).mem h)
    obtain ⟨k, hk, hloop⟩ := splitLoop_skip hskip (Nat.lt_succ_self body.length)
    obtain ⟨xs, hxs, hall⟩ :=
      hbs.split hend hz₁ (hpend.concat hsuf (pAlt_pend icase body.length) hb) x hk
    refine ⟨x, xs, b, bs, ?_, hparse, hall, rfl⟩
    have hbody : body = x ++ s₁.p := hx
    rw [hloop, ← hxs, ← hbody]
  · exact absurd h (by simp)

end Branches

/-! ## The lines selected -/

/-- Without `-x` and `-w` a search selects the lines that hold a match. -/
theorem searchNextMatch_isSome {s : Search} (hv : s.valid = true)
    (hne : s.mode ≠ .regex → s.pattern ≠ []) (line : List UInt8) :
    (searchNextMatch s true line 0 false).isSome = true ↔ ∃ st e, s.Match line st e := by
  have hspec := searchFindFrom_leftmost hv hne line 0
  rw [searchNextMatch, nextMatchLoop, if_pos (Nat.zero_le _)]
  cases hfind : searchFindFrom s line 0 with
  | none =>
      rw [hfind] at hspec
      refine ⟨fun h => absurd h Bool.false_ne_true, ?_⟩
      rintro ⟨st, e, hm⟩
      exact absurd hm (hspec st e (Nat.zero_le st))
  | some r =>
      obtain ⟨st, e⟩ := r
      rw [hfind] at hspec
      exact ⟨fun _ => ⟨st, e, hspec.2.1⟩, fun _ => rfl⟩

section Selects

variable {pattern : List UInt8} {icase : Bool} {s : Search} {t : Re}

/-- A pattern without anchors whose tree is clean selects the lines that
hold a word of the tree. -/
theorem RegexFace.selects (hs : RegexFace pattern icase s t)
    (hhead : (cString pattern).head? ≠ some Ch.caret)
    (hlast : (cString pattern).getLast? ≠ some Ch.dollar) (hclean : t.clean = true)
    (line : List UInt8) :
    (searchNextMatch s true line 0 false).isSome = true
      ↔ ∃ st e, st ≤ e ∧ e ≤ line.length ∧ slice line st e ∈ t.fieldLang := by
  have hpeel := peelAnchors_bare hhead hlast
  have hstart : s.g.anchoredStart = false := by rw [hs.built.anchoredStart, hpeel]
  have hend : s.g.anchoredEnd = false := by rw [hs.built.anchoredEnd, hpeel]
  have hword : ∀ u, gnfaFull s.g s.imap u = true ↔ u ∈ t.fieldLang := by
    intro u
    rw [hs.imap, gnfaFull_iff, hs.built.lang hclean]
  rw [searchNextMatch_isSome hs.valid fun h => absurd hs.mode h]
  simp only [Search.Match, hs.mode]
  constructor
  · rintro ⟨st, e, hm⟩
    exact ⟨st, e, hm.le, hm.bound, (hword _).mp hm.full⟩
  · rintro ⟨st, e, hle, hbound, hmem⟩
    exact ⟨st, e, hle, hbound, fun h => absurd (h.symm.trans hstart) (by simp),
      fun h => absurd (h.symm.trans hend) (by simp), (hword _).mpr hmem⟩

theorem clean_foldl : ∀ {bs : List Re} {a : Re}, (bs.foldl .alt a).clean = true →
    a.clean = true ∧ ∀ b ∈ bs, b.clean = true
  | [], _, h => ⟨h, fun _ hb => absurd hb List.not_mem_nil⟩
  | b :: bs, a, h => by
      obtain ⟨hab, hbs⟩ : (Re.alt a b).clean = true ∧ ∀ c ∈ bs, c.clean = true := clean_foldl h
      obtain ⟨ha, hb⟩ := Bool.and_eq_true_iff.mp hab
      refine ⟨ha, fun c hc => ?_⟩
      rcases List.mem_cons.mp hc with rfl | hc
      · exact hb
      · exact hbs c hc

theorem mem_fieldLang_foldl {u : List UInt8} : ∀ {bs : List Re} {a : Re},
    u ∈ (bs.foldl Re.alt a).fieldLang ↔ ∃ b ∈ a :: bs, u ∈ b.fieldLang
  | [], a => by
      rw [List.foldl_nil]
      simp only [List.mem_singleton, exists_eq_left]
  | b :: bs, a => by
      rw [List.foldl_cons, mem_fieldLang_foldl]
      simp only [List.mem_cons, exists_eq_or_imp, Re.fieldLang, Language.mem_add, or_assoc]

theorem forall₂_mem_left {α β : Type} {R : α → β → Prop} {l : List α} {l' : List β}
    (h : List.Forall₂ R l l') : ∀ {a : α}, a ∈ l → ∃ b ∈ l', R a b := by
  induction h with
  | nil => exact fun ha => absurd ha List.not_mem_nil
  | cons hr _ ih =>
      intro a ha
      rcases List.mem_cons.mp ha with rfl | ha
      · exact ⟨_, List.mem_cons_self, hr⟩
      · obtain ⟨b, hb, hab⟩ := ih ha
        exact ⟨b, List.mem_cons_of_mem _ hb, hab⟩

theorem forall₂_mem_right {α β : Type} {R : α → β → Prop} {l : List α} {l' : List β}
    (h : List.Forall₂ R l l') {b : β} (hb : b ∈ l') : ∃ a ∈ l, R a b :=
  forall₂_mem_left h.flip hb

/-- **Expanding an alternation** into its branches keeps the lines a search
selects when no branch begins with `^` or ends with `$` and the tree hands
no position with a loop back. -/
theorem searchSelects_split {br : List (List UInt8)}
    (hv : (searchCompile pattern ⟨false, icase⟩ 0).valid = true)
    (hbr : searchSplitAlternation pattern = some br)
    (hall : ∀ b ∈ br, (searchCompile b ⟨false, icase⟩ 0).valid = true)
    (hbare : ∀ b ∈ br, b.head? ≠ some Ch.caret ∧ b.getLast? ≠ some Ch.dollar)
    (hclean : ∀ t, parseRe icase (cString pattern) = some t → t.clean = true)
    (line : List UInt8) :
    searchSelects [searchCompile pattern ⟨false, icase⟩ 0] true line false false
      = searchSelects (br.map fun b => searchCompile b ⟨false, icase⟩ 0) true line false false := by
  obtain ⟨t, ht⟩ := searchCompile_regex hv
  have hjoin := searchSplitAlternation_join hbr
  have hhead : (cString pattern).head? ≠ some Ch.caret :=
    hjoin ▸ head_intercalate (by decide) fun b hb => (hbare b hb).1
  have hlast : (cString pattern).getLast? ≠ some Ch.dollar :=
    hjoin ▸ getLast_intercalate (by decide) fun b hb => (hbare b hb).2
  have hparse := ht.built.parse
  rw [peelAnchors_bare hhead hlast] at hparse
  have hz := zero_notMem_cString pattern
  obtain ⟨x, xs, b, bs, hsplit, hx, hxs, rfl⟩ := parseRe_split hparse hz
  have hbr' : br = x :: xs := by
    rw [searchSplitAlternation, hsplit] at hbr
    split at hbr
    · exact absurd hbr (by simp)
    · exact (Option.some.inj hbr).symm
  have hpieces : List.Forall₂ (fun x b => parseRe icase x = some b) br (b :: bs) :=
    hbr' ▸ .cons hx hxs
  have hcl := clean_foldl (hclean _ hparse)
  have hwords := ht.selects hhead hlast (hclean _ hparse) line
  -- each branch on its own selects the lines with a word of its tree
  have hbranch : ∀ y ∈ br, ∀ c, parseRe icase y = some c → c.clean = true →
      ((searchNextMatch (searchCompile y ⟨false, icase⟩ 0) true line 0 false).isSome = true
        ↔ ∃ st e, st ≤ e ∧ e ≤ line.length ∧ slice line st e ∈ c.fieldLang) := by
    intro y hy c hc hcc
    have hcut : cString y = y :=
      cString_of_notMem fun h => hz (hjoin ▸ mem_intercalate h hy)
    obtain ⟨t', ht'⟩ := searchCompile_regex (hall y hy)
    have hparse' := ht'.built.parse
    rw [hcut, peelAnchors_bare (hbare y hy).1 (hbare y hy).2, hc] at hparse'
    obtain rfl := Option.some.inj hparse'
    exact ht'.selects (hcut.symm ▸ (hbare y hy).1) (hcut.symm ▸ (hbare y hy).2) hcc line
  have hclean' : ∀ c ∈ b :: bs, c.clean = true := by
    intro c hc
    rcases List.mem_cons.mp hc with rfl | hc
    · exact hcl.1
    · exact hcl.2 c hc
  rw [Bool.eq_iff_iff, searchSelects, searchSelects, List.any_eq_true, List.any_eq_true]
  simp only [List.mem_singleton, exists_eq_left, List.mem_map, exists_exists_and_eq_and,
    Bool.false_eq_true, if_false]
  rw [hwords]
  simp only [mem_fieldLang_foldl]
  constructor
  · rintro ⟨st, e, hle, hbound, c, hc, hmem⟩
    obtain ⟨y, hy, hyc⟩ := forall₂_mem_right hpieces hc
    exact ⟨y, hy, (hbranch y hy c hyc (hclean' c hc)).mpr ⟨st, e, hle, hbound, hmem⟩⟩
  · rintro ⟨y, hy, hsel⟩
    obtain ⟨c, hc, hyc⟩ := forall₂_mem_left hpieces hy
    obtain ⟨st, e, hle, hbound, hmem⟩ := (hbranch y hy c hyc (hclean' c hc)).mp hsel
    exact ⟨st, e, hle, hbound, c, hc, hmem⟩

/-- `a|b` on `xb`. -/
theorem searchSelects_split_ab :
    searchSelects [searchCompile [0x61, 0x7c, 0x62] ⟨false, false⟩ 0] true [0x78, 0x62] false false
      = searchSelects ([[0x61], [0x62]].map fun b => searchCompile b ⟨false, false⟩ 0) true
          [0x78, 0x62] false false := by
  have hclean : (parseRe false (cString [0x61, 0x7c, 0x62])).all Re.clean = true := by
    decide +kernel
  refine searchSelects_split (by decide +kernel) (by decide +kernel) (by decide +kernel)
    (by decide) (fun t ht => ?_) [0x78, 0x62]
  rw [ht] at hclean
  exact hclean

/-- `^a|b` on `xb`: whole, the anchor holds for both branches. -/
theorem searchSelects_split_anchor :
    (searchCompile [0x5e, 0x61, 0x7c, 0x62] ⟨false, false⟩ 0).valid = true
      ∧ searchSplitAlternation [0x5e, 0x61, 0x7c, 0x62] = some [[0x5e, 0x61], [0x62]]
      ∧ (∀ b ∈ [[0x5e, 0x61], [0x62]], (searchCompile b ⟨false, false⟩ 0).valid = true)
      ∧ searchSelects [searchCompile [0x5e, 0x61, 0x7c, 0x62] ⟨false, false⟩ 0] true [0x78, 0x62]
          false false = false
      ∧ searchSelects ([[0x5e, 0x61], [0x62]].map fun b => searchCompile b ⟨false, false⟩ 0) true
          [0x78, 0x62] false false = true := by
  decide +kernel

end Selects

end Montauk
