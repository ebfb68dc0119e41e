import Montauk.Text.Items

/-!
# Reading the pattern a second time

The counting path reads the pattern text again, past the parser:
`regex_maxlen` and `extract_literal` for the literal prefilter,
`parse_classes` for the Shift-And field over byte sets.

The scanners are followed along the grammar. On a pattern without groups
a round of a scanner and an item of the grammar take the same text, so the
pattern is a `Flat` run of items and what a scanner computes is proved item
by item: the bound on the length of a match (`regexMaxlen_flat`), the
literal (`extractLiteral_flat`), the byte sets (`parseClasses_flat`). Two
things the scanners read differently from the parser: a bare `^` or `$`
inside the pattern (`Re.bareAnchor`), which is a literal byte to the parser
and nothing at all to `regex_maxlen`, and the digits of a brace quantifier
(`literalInBrace`), which are plain bytes to `extract_literal`.
-/

open scoped Computability

namespace Montauk

/-! ## The scanners -/

/-- The text behind an atom, as `regex_maxlen` finds it. -/
def maxlenAtom : List UInt8 → List UInt8
  | [] => []
  | c :: rest =>
      if c = Ch.backslash ∧ rest ≠ [] then rest.tail
      else if c = Ch.lbrack then
        match classSpan (c :: rest) false with
        | some (_, after) => after
        | none => []
      else rest

/-- The most bytes an atom with its quantifier takes, and the text behind
both; `none` is a return of -1. -/
def maxlenQuant (after : List UInt8) : Option (Int32 × List UInt8) :=
  if after.headD 0 = Ch.star ∨ after.headD 0 = Ch.plus then none
  else if after.headD 0 = Ch.quest then some (1, after.tail)
  else if after.headD 0 = Ch.lbrace then
    let b := readBrace after.tail
    if !b.haslo || b.hi == -1 then none
    else some (b.hi, if b.rest.headD 0 = Ch.rbrace then b.rest.tail else b.rest)
  else some (1, after)

/-- The loop of `regex_maxlen`. -/
def regexMaxlenLoop : Nat → List UInt8 → Int32 → Int32
  | 0, _, len => len
  | _ + 1, [], len => len
  | n + 1, c :: rest, len =>
      if c = Ch.caret ∨ c = Ch.dollar then regexMaxlenLoop n rest len
      else if c = Ch.lparen ∨ c = Ch.rparen ∨ c = Ch.bar then -1
      else
        match maxlenQuant (maxlenAtom (c :: rest)) with
        | none => -1
        | some (atomlen, r) => regexMaxlenLoop n r (len + atomlen)

/-- `regex_maxlen`: the most bytes a match can take. -/
def regexMaxlen (p : List UInt8) : Int32 := regexMaxlenLoop (p.length + 1) p 0

/-- The state of `extract_literal`: length and start of the longest run so
far and of the run under the cursor. -/
structure LitRun where
  bl : Nat
  bs : Option Nat
  cl : Nat
  cs : Option Nat

/-- A byte `extract_literal` takes: alphanumeric or a space. -/
def plainByte (c : UInt8) : Bool := isAlnum c || c == 0x20

def quantByte (c : UInt8) : Bool :=
  c == Ch.star || c == Ch.plus || c == Ch.quest || c == Ch.lbrace

/-- `cs = -1; cl = 0`. -/
def LitRun.broken (r : LitRun) : LitRun := { r with cs := none, cl := 0 }

/-- The plain byte at offset `i` joins the run under the cursor, or opens
one. -/
def LitRun.taken (r : LitRun) (i : Nat) : LitRun :=
  let cs := if r.cs = none then some i else r.cs
  let cl := (if r.cs = none then 0 else r.cl) + 1
  if r.bl < cl then ⟨cl, cs, cl, cs⟩ else ⟨r.bl, r.bs, cl, cs⟩

/-- The loop of `extract_literal` from offset `i` on. -/
def extractLoop (p : List UInt8) : Nat → Nat → LitRun → LitRun
  | 0, _, r => r
  | n + 1, i, r =>
      match p[i]? with
      | none => r
      | some c =>
          if c = Ch.lbrack then
            let next := match classSpan (p.drop i) false with
              | some (_, rest) => p.length - rest.length
              | none => p.length
            extractLoop p n next r.broken
          else if c = Ch.backslash then extractLoop p n (i + 2) r.broken
          else if plainByte c && !quantByte (p.getD (i + 1) 0) then
            extractLoop p n (i + 1) (r.taken i)
          else extractLoop p n (i + 1) r.broken

/-- `extract_literal`: the longest run of consecutive plain bytes, if it has
two to `maxout` bytes. -/
def extractLiteral (p : List UInt8) (maxout : Nat) : Option (List UInt8) :=
  let r := extractLoop p (p.length + 1) 0 ⟨0, none, 0, none⟩
  if r.bl < 2 ∨ maxout < r.bl then none
  else some ((p.drop (r.bs.getD 0)).take r.bl)

/-- The loop of `parse_classes`, with the sets read so far. -/
def parseClassesLoop (maxL : Nat) : Nat → List UInt8 → List ByteSet → Option (List ByteSet)
  | 0, _, _ => none
  | _ + 1, [], sets => some sets
  | n + 1, c :: rest, sets =>
      if maxL ≤ sets.length then none
      else if c = Ch.star ∨ c = Ch.plus ∨ c = Ch.quest ∨ c = Ch.bar ∨ c = Ch.lparen
          ∨ c = Ch.rparen ∨ c = Ch.lbrace then none
      else if c = Ch.dot then parseClassesLoop maxL n rest (sets ++ [BitVec.allOnes 256])
      else if c = Ch.lbrack then
        match classSpan (c :: rest) false with
        | none => none
        | some (S, after) => parseClassesLoop maxL n after (sets ++ [S])
      else if c = Ch.backslash ∧ rest ≠ [] then
        match shorthandSet (rest.headD 0) with
        | some S => parseClassesLoop maxL n rest.tail (sets ++ [S])
        | none => parseClassesLoop maxL n rest.tail (sets ++ [gsetByte 0 (rest.headD 0) false])
      else parseClassesLoop maxL n rest (sets ++ [gsetByte 0 c false])

/-- `parse_classes`; `none` is the source's `-1`. -/
def parseClasses (p : List UInt8) (maxL : Nat) : Option (List ByteSet) :=
  if p.head? = some Ch.caret ∨ p.getLast? = some Ch.dollar then none
  else parseClassesLoop maxL (p.length + 1) p []

/-! ## Flat patterns -/

/-- A bare `^` or `$` stands in the tree as a literal byte. -/
def Re.bareAnchor : Re → Bool
  | pos (.lit c) _ => c == Ch.caret || c == Ch.dollar
  | pos _ _ => false
  | folds _ => false
  | empty => false
  | group a => a.bareAnchor
  | cat a b => a.bareAnchor || b.bareAnchor
  | alt a b => a.bareAnchor || b.bareAnchor
  | star a => a.bareAnchor
  | plus a => a.bareAnchor
  | opt a => a.bareAnchor
  | rep _ _ a => a.bareAnchor
  | stacked a => a.bareAnchor

/-- The upper bound of some brace is read as a negative number. -/
def Re.negBound : Re → Bool
  | pos _ _ => false
  | folds _ => false
  | empty => false
  | group a => a.negBound
  | cat a b => a.negBound || b.negBound
  | alt a b => a.negBound || b.negBound
  | star a => a.negBound
  | plus a => a.negBound
  | opt a => a.negBound
  | rep _ hi a => decide (Int32.ofNat hi < 0) || a.negBound
  | stacked a => a.negBound

/-- A property that a juxtaposition has when both sides have it holds of a
run of items when it holds of each. -/
theorem catAll_iff {P : Re → Prop} (hempty : P .empty)
    (hcat : ∀ a b, P (.cat a b) ↔ P a ∧ P b) :
    ∀ (bs : List Re) (acc : Option Re),
      P (catAll acc bs) ↔ (∀ a, acc = some a → P a) ∧ ∀ b ∈ bs, P b
  | [], none => iff_of_true hempty ⟨fun _ h => absurd h (by simp), fun _ h => absurd h (by simp)⟩
  | [], some a => by simp [catAll]
  | b :: bs, none => by
      rw [catAll, catAll_iff hempty hcat bs]
      simp [catItem]
  | b :: bs, some a => by
      rw [catAll, catAll_iff hempty hcat bs]
      simp [catItem, hcat, and_assoc]

theorem fieldLang_catAll : ∀ (bs : List Re) (acc : Option Re),
    (catAll acc bs).fieldLang = (acc.elim 1 Re.fieldLang) * (bs.map Re.fieldLang).prod
  | [], none => by simp [catAll, Re.fieldLang]
  | [], some a => by simp [catAll]
  | b :: bs, none => by
      rw [catAll, fieldLang_catAll bs, List.map_cons, List.prod_cons, Option.elim_none, one_mul]
      rfl
  | b :: bs, some a => by
      rw [catAll, fieldLang_catAll bs, List.map_cons, List.prod_cons, ← mul_assoc]
      rfl

/-- The words of the first item in front of the words of the others. -/
theorem mem_prod_cons {L : Language UInt8} {Ls : List (Language UInt8)} {u : List UInt8} :
    u ∈ (L :: Ls).prod ↔ ∃ v ∈ L, ∃ r ∈ Ls.prod, v ++ r = u := by
  rw [List.prod_cons, Language.mem_mul]

/-- What the grammar reads of a whole pattern: a first juxtaposition, and
more branches only when it leaves some of the text. -/
theorem parseRe_items {icase : Bool} {p : List UInt8} {t : Re} (h : parseRe icase p = some t) :
    ∃ bs s' cs, Items icase (pAlt icase p.length) ⟨p, 0, 0⟩ bs s'
      ∧ t = cs.foldl .alt (catAll none bs) ∧ (s'.p = [] → cs = []) := by
  obtain ⟨⟨u, s₂⟩, hu, h⟩ := Option.bind_eq_some_iff.mp h
  have h : (if s₂.p = [] then some u else none) = some t := h
  split at h
  · obtain rfl := Option.some.inj h
    have hsuf := pAlt_suffix icase p.length
    obtain ⟨b, s₁, bs, hb, hbs, rfl⟩ := (pAltWith_iff hsuf).mp hu
    obtain ⟨items, hitems, rfl⟩ := (pConcat_iff hsuf).mp hb
    refine ⟨items, s₁, bs, hitems, rfl, fun hnil => ?_⟩
    cases hbs with
    | done => rfl
    | branch hbar => exact absurd hnil (bar_ne hbar)
  · exact absurd h (by simp)

theorem flag_foldl {f : Re → Bool} (hf : ∀ a b, f (.alt a b) = (f a || f b)) :
    ∀ {cs : List Re} {a : Re}, f (cs.foldl .alt a) = false → f a = false
  | [], _, h => h
  | c :: cs, a, h => by
      have hac : f (.alt a c) = false := flag_foldl hf h
      rw [hf] at hac
      exact (Bool.or_eq_false_iff.mp hac).1

/-- A pattern without groups and bars, item by item. -/
inductive Flat : List UInt8 → List Re → Prop
  | nil : Flat [] []
  | item {p after rest : List UInt8} {k : Leaf} {S : ByteSet} {b : Re} {bs : List Re}
      (hne : p ≠ []) (hatom : plainAtom p = some (k, S, after)) {l : Nat} {f : UInt8}
      (hquant : QuantOf ⟨after, l, f⟩ (.pos k S) b ⟨rest, l, f⟩) (h : Flat rest bs) :
      Flat p (b :: bs)

theorem pRepeat_flat {alt : PPos → Option (Re × PPos)} {s s₁ : PPos} {b : Re}
    (hlp : s.cur ≠ Ch.lparen) (h : pRepeat false alt s = some (b, s₁)) :
    ∃ k S after, plainAtom s.p = some (k, S, after)
      ∧ QuantOf ⟨after, s.foldLeft, s.foldByte⟩ (.pos k S) b s₁
      ∧ s₁ = ⟨s₁.p, s.foldLeft, s.foldByte⟩ := by
  obtain ⟨a, s₂, ha, hq⟩ := pRepeat_quant h
  rw [pAtom_plain hlp] at ha
  obtain ⟨⟨k, S, after⟩, hatom, heq⟩ := Option.map_eq_some_iff.mp ha
  obtain ⟨rfl, rfl⟩ := Prod.mk.inj heq
  refine ⟨k, S, after, hatom, hq, ?_⟩
  cases hq <;> rfl

theorem QuantOf.suffix {s s' : PPos} {a b : Re} (h : QuantOf s a b s') : s'.p <:+ s.p := by
  cases h with
  | none => exact List.suffix_rfl
  | star => exact List.tail_suffix _
  | plus => exact List.tail_suffix _
  | quest => exact List.tail_suffix _
  | brace =>
      exact (List.tail_suffix _).trans ((readBounds_suffix _).trans (List.tail_suffix _))

theorem plainAtom_shorter {p after : List UInt8} {k : Leaf} {S : ByteSet} (hne : p ≠ [])
    (h : plainAtom p = some (k, S, after)) : Shorter after p := by
  have htail := shorter_tail hne
  rw [plainAtom] at h
  split at h
  · obtain ⟨-, -, rfl⟩ := h
    exact htail
  split at h
  · obtain ⟨⟨S', r⟩, hr, heq⟩ := Option.map_eq_some_iff.mp h
    obtain ⟨-, -, rfl⟩ := heq
    exact classSpan_shorter hr
  split at h
  · split at h
    · obtain ⟨-, -, rfl⟩ := h
      exact htail.of_suffix (List.tail_suffix _)
    · obtain ⟨-, -, rfl⟩ := h
      exact htail.of_suffix (List.tail_suffix _)
  · obtain ⟨-, -, rfl⟩ := h
    exact htail

/-- In a text without a NUL the byte read ahead is 0 at the end only. -/
theorem headD_ne_zero_iff {c : UInt8} {tl : List UInt8} (h0 : (0 : UInt8) ∉ c :: tl) :
    tl.headD 0 ≠ 0 ↔ tl ≠ [] := by
  cases tl with
  | nil => simp
  | cons d tl =>
      simp only [List.headD_cons, ne_eq, reduceCtorEq, not_false_eq_true, iff_true]
      rintro rfl
      exact h0 (by simp)

theorem maxlenAtom_eq {p after : List UInt8} {k : Leaf} {S : ByteSet} (h0 : (0 : UInt8) ∉ p)
    (hne : p ≠ []) (h : plainAtom p = some (k, S, after)) : maxlenAtom p = after := by
  match p, hne with
  | c :: rest, _ =>
      rw [plainAtom, List.headD_cons, List.tail_cons] at h
      rw [maxlenAtom]
      split at h
      · rename_i hdot
        obtain ⟨-, -, rfl⟩ := h
        rw [if_neg fun he => absurd (hdot.symm.trans he.1) (by decide),
          if_neg fun he => absurd (hdot.symm.trans he) (by decide)]
      split at h
      · rename_i hlb
        obtain ⟨⟨S', r⟩, hr, heq⟩ := Option.map_eq_some_iff.mp h
        obtain ⟨-, -, rfl⟩ := heq
        rw [if_neg fun he => absurd (hlb.symm.trans he.1) (by decide), if_pos hlb, hr]
      · rename_i hlb
        have hnext := headD_ne_zero_iff h0
        split at h
        · rename_i hesc
          rw [if_pos ⟨hesc.1, hnext.mp hesc.2⟩]
          split at h
          · obtain ⟨-, -, rfl⟩ := h
            rfl
          · obtain ⟨-, -, rfl⟩ := h
            rfl
        · rename_i hesc
          obtain ⟨-, -, rfl⟩ := h
          rw [if_neg fun he => hesc ⟨he.1, hnext.mpr he.2⟩, if_neg hlb]

/-! ## The length of a match -/

theorem bareAnchor_of_plainAtom {p after : List UInt8} {k : Leaf} {S : ByteSet}
    (h : plainAtom p = some (k, S, after)) (hc : p.headD 0 = Ch.caret ∨ p.headD 0 = Ch.dollar) :
    (Re.pos k S).bareAnchor = true := by
  rw [plainAtom] at h
  rcases hc with hc | hc
  · rw [hc, if_neg (by decide), if_neg (by decide), if_neg fun he => absurd he.1 (by decide)] at h
    obtain ⟨rfl, -, -⟩ := h
    rfl
  · rw [hc, if_neg (by decide), if_neg (by decide), if_neg fun he => absurd he.1 (by decide)] at h
    obtain ⟨rfl, -, -⟩ := h
    rfl

theorem bareAnchor_quant {s s' : PPos} {a b : Re} (h : QuantOf s a b s') :
    b.bareAnchor = a.bareAnchor := by
  cases h with
  | none => rfl
  | star _ hb => rcases hb with rfl | rfl <;> rfl
  | plus _ hb => rcases hb with rfl | rfl <;> rfl
  | quest _ hb => rcases hb with rfl | rfl <;> rfl
  | brace _ _ _ _ _ _ hb => rcases hb with rfl | rfl <;> rfl

theorem length_setLang {S : ByteSet} {u : List UInt8} (h : u ∈ Re.setLang S) : u.length = 1 := by
  obtain ⟨c, -, rfl⟩ := h
  rfl

theorem length_opt_setLang {S : ByteSet} {u : List UInt8} (h : u ∈ 1 + Re.setLang S) :
    u.length ≤ 1 := by
  rw [Language.mem_add] at h
  rcases h with h | h
  · rw [(Language.mem_one _).mp h]
    exact Nat.zero_le 1
  · exact (length_setLang h).le

theorem length_copiesLang {S : ByteSet} {lo : Nat} :
    ∀ {n ci : Nat} {u : List UInt8}, u ∈ Re.copiesLang S lo n ci → u.length ≤ n
  | 0, _, u, h => by
      rw [Re.copiesLang] at h
      rw [(Language.mem_one _).mp h]
      exact Nat.le_refl 0
  | n + 1, ci, u, h => by
      rw [Re.copiesLang] at h
      obtain ⟨v, hv, r, hr, rfl⟩ := Language.mem_mul.mp h
      have h1 : v.length ≤ 1 := by
        split at hv
        · exact length_opt_setLang hv
        · exact (length_setLang hv).le
      have ih := length_copiesLang hr
      rw [List.length_append]
      omega

/-- A bounded repeat of a byte set has at most as many bytes as its upper
bound. -/
theorem length_rep {k : Leaf} {S : ByteSet} {lo hi : Nat} {u : List UInt8}
    (h : u ∈ (Re.rep lo hi (.pos k S)).fieldLang) : u.length ≤ kept hi := by
  rw [Re.fieldLang] at h
  split at h
  · rw [(Language.mem_one _).mp h]
    exact Nat.zero_le _
  · obtain ⟨v, hv, r, hr, rfl⟩ := Language.mem_mul.mp h
    have h1 : v.length ≤ 1 := by
      split at hv
      · exact length_opt_setLang hv
      · exact (length_setLang hv).le
    have h2 := length_copiesLang hr
    rw [List.length_append]
    omega

theorem maxlenQuant_spec {s s' : PPos} {k : Leaf} {S : ByteSet} {b : Re}
    (h : QuantOf s (.pos k S) b s') (hb : b.negBound = false) {m : Int32} {r : List UInt8}
    (hm : maxlenQuant s.p = some (m, r)) :
    r = s'.p ∧ ∃ l ≤ 60, m = Int32.ofNat l ∧ ∀ u ∈ b.fieldLang, u.length ≤ l := by
  have hcur : s.cur = s.p.headD 0 := rfl
  rw [maxlenQuant] at hm
  cases h with
  | none h =>
      rw [hcur] at h
      rw [if_neg (not_or.mpr ⟨h.1, h.2.1⟩), if_neg h.2.2.1, if_neg h.2.2.2] at hm
      obtain ⟨rfl, rfl⟩ := hm
      exact ⟨rfl, 1, by decide, rfl, fun u hu => (length_setLang hu).le⟩
  | star h =>
      rw [if_pos (Or.inl (hcur ▸ h))] at hm
      exact absurd hm (by simp)
  | plus h =>
      rw [if_pos (Or.inr (hcur ▸ h))] at hm
      exact absurd hm (by simp)
  | quest h hq =>
      rw [hcur] at h
      rw [if_neg (by rw [h]; decide), if_pos h] at hm
      obtain ⟨rfl, rfl⟩ := hm
      refine ⟨rfl, 1, by decide, rfl, fun u hu => ?_⟩
      rcases hq with rfl | rfl <;> exact length_opt_setLang hu
  | @brace _ hi h hone hhi hlo hend hle hq =>
      rw [hcur] at h
      rw [if_neg (by rw [h]; decide), if_neg (by rw [h]; decide), if_pos h, readBrace_eq] at hm
      dsimp only at hm
      rw [hhi, hlo, Option.elim_some, (Bool.or_eq_false_iff.mp hle).1, if_neg (by decide), if_pos hend] at hm
      obtain ⟨rfl, rfl⟩ := hm
      have hneg : ¬ Int32.ofNat hi < 0 := by
        rcases hq with rfl | rfl <;> exact of_decide_eq_false (Bool.or_eq_false_iff.mp hb).1
      refine ⟨rfl, kept hi, kept_le_of_not_refused hle, (ofNat_kept hneg).symm, fun u hu => ?_⟩
      rcases hq with rfl | rfl <;> exact length_rep hu

theorem regexMaxlenLoop_done {s : PPos} (hstop : concatGoes s.cur = false) {n len : Nat}
    (hn : s.p.length < n) (hlen : len < 2147483648) (h0 : (0 : UInt8) ∉ s.p)
    (hm : 0 ≤ (regexMaxlenLoop n s.p (Int32.ofNat len)).toInt) :
    s.p = [] ∧ (len : Int) ≤ (regexMaxlenLoop n s.p (Int32.ofNat len)).toInt := by
  have hnone : ¬ 0 ≤ (-1 : Int32).toInt := by decide
  obtain ⟨m, rfl⟩ : ∃ m, n = m + 1 := ⟨n - 1, by omega⟩
  cases hp : s.p with
  | nil =>
      refine ⟨rfl, ?_⟩
      rw [regexMaxlenLoop, toInt_count]
      omega
  | cons c rest =>
      have hc : s.cur = c := by rw [PPos.cur, hp]; rfl
      have hc0 : c ≠ 0 := by
        rintro rfl
        exact h0 (by rw [hp]; exact List.mem_cons_self)
      rw [hc, concatGoes] at hstop
      rw [hp, regexMaxlenLoop] at hm
      simp only [Bool.and_eq_false_iff, bne_eq_false_iff_eq] at hstop
      rcases hstop with (hz | hbar) | hrp
      · exact absurd hz hc0
      · rw [hbar, if_neg (by decide), if_pos (by decide)] at hm
        exact absurd hm hnone
      · rw [hrp, if_neg (by decide), if_pos (by decide)] at hm
        exact absurd hm hnone

/-- A pattern `regex_maxlen` bounds is flat, and no word of it is longer
than the bound: by induction on the items, one round of the scanner each. -/
theorem regexMaxlenLoop_flat {alt : PPos → Option (Re × PPos)} {s s' : PPos} {bs : List Re}
    (h : Items false alt s bs s') :
    ∀ {n len : Nat}, s.p.length < n → len + 60 * s.p.length < 2147483648 → (0 : UInt8) ∉ s.p →
      (∀ b ∈ bs, b.bareAnchor = false ∧ b.negBound = false) →
      0 ≤ (regexMaxlenLoop n s.p (Int32.ofNat len)).toInt →
      s'.p = [] ∧ Flat s.p bs ∧ ∀ u ∈ (bs.map Re.fieldLang).prod,
        ((len + u.length : Nat) : Int) ≤ (regexMaxlenLoop n s.p (Int32.ofNat len)).toInt := by
  have hnone : ¬ 0 ≤ (-1 : Int32).toInt := by decide
  induction h with
  | @done s hstop =>
      intro n len hn hlen h0 hb hm
      obtain ⟨hp, hle⟩ := regexMaxlenLoop_done hstop hn (by omega) h0 hm
      refine ⟨hp, hp ▸ .nil, fun u hu => ?_⟩
      rw [List.map_nil, List.prod_nil, Language.mem_one] at hu
      rwa [hu, List.length_nil, Nat.add_zero]
  | @item s s₁ s' b bs hgo hb h ih =>
      intro n len hn hsum h0 hbare hm
      have hne := concatGoes_ne hgo
      obtain ⟨c, rest, hp⟩ := List.exists_cons_of_ne_nil hne
      have hc : s.cur = c := by rw [PPos.cur, hp]; rfl
      obtain ⟨m, rfl⟩ : ∃ m, n = m + 1 := ⟨n - 1, by omega⟩
      rw [hp, regexMaxlenLoop] at hm ⊢
      obtain ⟨hb0, hneg⟩ := hbare b List.mem_cons_self
      have hlp : s.cur ≠ Ch.lparen := by
        intro hlp
        rw [hc] at hlp
        rw [hlp, if_neg (by decide), if_pos (by decide)] at hm
        exact absurd hm hnone
      obtain ⟨k, S, after, hatom, hq, hs₁⟩ := pRepeat_flat hlp hb
      have hanch : ¬ (c = Ch.caret ∨ c = Ch.dollar) := by
        intro hc'
        have htrue := bareAnchor_of_plainAtom hatom (by rw [hp]; exact hc')
        rw [← bareAnchor_quant hq, hb0] at htrue
        exact absurd htrue (by simp)
      rw [if_neg hanch] at hm ⊢
      split at hm
      · exact absurd hm hnone
      · rename_i hgroup
        rw [if_neg hgroup]
        rw [← hp, maxlenAtom_eq h0 hne hatom] at hm ⊢
        cases hmq : maxlenQuant after with
        | none =>
            rw [hmq] at hm
            exact absurd hm hnone
        | some r =>
            obtain ⟨a, r⟩ := r
            rw [hmq] at hm
            dsimp only at hm ⊢
            obtain ⟨rfl, l, hl, rfl, hitem⟩ := maxlenQuant_spec hq hneg hmq
            have hsuf := (plainAtom_shorter hne hatom).of_suffix hq.suffix
            have hlt := hsuf.lt
            rw [← Int32.ofNat_add] at hm ⊢
            obtain ⟨hend, hflat, hwords⟩ := ih (by omega) (by omega)
              (fun hmem => h0 (hsuf.suffix.mem hmem))
              (fun b hb => hbare b (List.mem_cons_of_mem _ hb)) hm
            rw [hs₁] at hq
            refine ⟨hend, .item hne hatom hq hflat, fun u hu => ?_⟩
            rw [List.map_cons] at hu
            obtain ⟨v, hv, w, hw, rfl⟩ := mem_prod_cons.mp hu
            have h1 := hitem v hv
            have h2 := hwords w hw
            rw [List.length_append]
            omega

/-! ## The literal -/

/-- The digits of a brace quantifier: whether the byte with `left` bytes of
pattern from it on stands between the braces of one. -/
def inBraceLoop (left : Nat) : Nat → List UInt8 → Bool
  | 0, _ => false
  | _ + 1, [] => false
  | n + 1, c :: rest =>
      let after := maxlenAtom (c :: rest)
      if after.headD 0 = Ch.lbrace then
        let b := readBounds after.tail
        (decide (b.rest.length < left) && decide (left ≤ after.tail.length))
          || inBraceLoop left n b.rest.tail
      else inBraceLoop left n (if quantByte (after.headD 0) then after.tail else after)

/-- The run `extract_literal` settles on starts between the braces of a
quantifier. -/
def literalInBrace (p : List UInt8) : Bool :=
  match (extractLoop p (p.length + 1) 0 ⟨0, none, 0, none⟩).bs with
  | some b => inBraceLoop (p.length - b) (p.length + 1) p
  | none => false

def litLeaves (u : List UInt8) : List Re := u.map fun c => .pos (.lit c) (gsetByte 0 c false)

/-- What the runs of `extract_literal` are at offset `i` of `p`, behind the
items `ds`: a run starts between braces (`B`) or is spelled by items, the
run under the cursor by the last ones. -/
structure RunInv (p : List UInt8) (B : Nat → Prop) (i : Nat) (ds : List Re) (r : LitRun) :
    Prop where
  fresh : r.cs = none → r.cl = 0
  cur : ∀ c, r.cs = some c → c + r.cl = i ∧ (B c ∨ litLeaves ((p.drop c).take r.cl) <:+ ds)
  best : r.bl ≠ 0 → ∃ b, r.bs = some b ∧ b + r.bl ≤ p.length
    ∧ (B b ∨ litLeaves ((p.drop b).take r.bl) <:+: ds)

variable {P : List UInt8} {B : Nat → Prop} {i : Nat} {ds : List Re} {r : LitRun}

theorem RunInv.broken (h : RunInv P B i ds r) (es : List Re) (j : Nat) :
    RunInv P B j (ds ++ es) r.broken where
  fresh _ := rfl
  cur _ hc := absurd hc (by simp [LitRun.broken])
  best hb := by
    obtain ⟨b, hbs, hle, hor⟩ := h.best hb
    refine ⟨b, hbs, hle, hor.imp_right fun hin => ?_⟩
    exact hin.trans (List.prefix_append ds es).isInfix

theorem litLeaves_snoc (u : List UInt8) (c : UInt8) :
    litLeaves (u ++ [c]) = litLeaves u ++ litLeaves [c] := by
  rw [litLeaves, List.map_append]
  rfl

theorem take_drop_succ {b l : Nat} {c : UInt8} (hc : P[b + l]? = some c) :
    (P.drop b).take (l + 1) = (P.drop b).take l ++ [c] := by
  rw [List.take_add_one, List.getElem?_drop, hc]
  rfl

/-- Taking a byte keeps the invariant, given that it keeps it for the run
the byte joins. -/
theorem RunInv.taken (h : RunInv P B i ds r) (hi : i < P.length) {es : List Re}
    (hrun : ∀ b l, b + l = i → (r.cs = none → b = i) → (∀ c, r.cs = some c → b = c) →
      (r.cs ≠ none → B b ∨ litLeaves ((P.drop b).take l) <:+ ds) →
      B b ∨ litLeaves ((P.drop b).take (l + 1)) <:+ ds ++ es) :
    RunInv P B (i + 1) (ds ++ es) (r.taken i) := by
  have hbest : r.bl ≠ 0 → ∃ b, r.bs = some b ∧ b + r.bl ≤ P.length
      ∧ (B b ∨ litLeaves ((P.drop b).take r.bl) <:+: ds ++ es) := by
    intro hb
    obtain ⟨b, hbs, hle, hor⟩ := h.best hb
    exact ⟨b, hbs, hle, hor.imp_right fun hin => hin.trans (List.prefix_append ds es).isInfix⟩
  -- the run the byte joins, with one byte more
  obtain ⟨b, l, hcs, hl, hbl, hor⟩ : ∃ b l, (if r.cs = none then some i else r.cs) = some b
      ∧ (if r.cs = none then 0 else r.cl) = l ∧ b + l = i
      ∧ (B b ∨ litLeaves ((P.drop b).take (l + 1)) <:+ ds ++ es) := by
    cases hcs : r.cs with
    | none =>
        refine ⟨i, 0, if_pos rfl, if_pos rfl, rfl, hrun i 0 rfl (fun _ => rfl) ?_ ?_⟩
        · exact fun c hc => absurd (hcs.symm.trans hc) (by simp)
        · exact fun hne => absurd hcs hne
    | some c =>
        obtain ⟨hsum, hor⟩ := h.cur c hcs
        refine ⟨c, r.cl, if_neg (by simp), if_neg (by simp), hsum,
          hrun c r.cl hsum (fun hn => absurd (hcs.symm.trans hn) (by simp)) ?_ fun _ => hor⟩
        exact fun d hd => Option.some.inj (hcs.symm.trans hd)
  have hcur : ∀ c, some b = some c → c + (l + 1) = i + 1
      ∧ (B c ∨ litLeaves ((P.drop c).take (l + 1)) <:+ ds ++ es) := by
    intro c hc
    obtain rfl := Option.some.inj hc
    exact ⟨by omega, hor⟩
  rw [LitRun.taken, hcs, hl]
  split
  · exact ⟨fun hn => absurd hn (by simp), hcur,
      fun _ => ⟨b, rfl, by dsimp only; omega, hor.imp_right List.IsSuffix.isInfix⟩⟩
  · exact ⟨fun hn => absurd hn (by simp), hcur, hbest⟩

theorem RunInv.takenBrace (h : RunInv P B i ds r) (hi : i < P.length) (hB : B i)
    (hr : ∀ c, r.cs = some c → B c) : RunInv P B (i + 1) ds (r.taken i) := by
  have hinv : RunInv P B (i + 1) (ds ++ []) (r.taken i) := h.taken hi fun b l hbl hnew hold _ => by
    refine Or.inl ?_
    cases hcs : r.cs with
    | none => exact hnew hcs ▸ hB
    | some c => exact hold c hcs ▸ hr c hcs
  rwa [List.append_nil] at hinv

theorem RunInv.takenLeaf (h : RunInv P B i ds r) {c : UInt8} (hc : P[i]? = some c) :
    RunInv P B (i + 1) (ds ++ litLeaves [c]) (r.taken i) := by
  refine h.taken (List.getElem?_eq_some_iff.mp hc).1 fun b l hbl hnew hold hor => ?_
  rw [take_drop_succ (hbl ▸ hc), litLeaves_snoc]
  cases hcs : r.cs with
  | none =>
      obtain rfl := hnew hcs
      obtain rfl : l = 0 := by omega
      exact Or.inr (List.suffix_append ds _)
  | some d =>
      refine (hor (by rw [hcs]; simp)).imp_right fun hsuf => ?_
      obtain ⟨u, rfl⟩ := hsuf
      rw [List.append_assoc]
      exact List.suffix_append u _

/-- The scanner gets to where `q` is left, the runs in order behind `ds`
and the run under the cursor as `Q` says. -/
def Arrives (P : List UInt8) (B : Nat → Prop) (n i : Nat) (r : LitRun) (q : List UInt8)
    (ds : List Re) (Q : LitRun → Prop) : Prop :=
  ∃ n' i' r', extractLoop P n i r = extractLoop P n' i' r' ∧ P.drop i' = q ∧ q.length < n'
    ∧ RunInv P B i' ds r' ∧ Q r'

/-- No run is under the cursor, or one between braces. -/
def LitRun.Inside (B : Nat → Prop) (r : LitRun) : Prop := ∀ c, r.cs = some c → B c

theorem LitRun.inside_broken : r.broken.Inside B := fun _ hc => absurd hc (by simp [LitRun.broken])

theorem LitRun.Inside.taken (h : r.Inside B) (hB : B i) : (r.taken i).Inside B := by
  intro c hc
  have hcs : (r.taken i).cs = if r.cs = none then some i else r.cs := by
    rw [LitRun.taken]
    exact (apply_ite LitRun.cs _ _ _).trans (ite_self _)
  rw [hcs] at hc
  split at hc
  · obtain rfl := Option.some.inj hc
    exact hB
  · exact h c hc

theorem getElem?_of_drop {c : UInt8} {rest : List UInt8} (h : P.drop i = c :: rest) :
    P[i]? = some c := by
  rw [← List.head?_drop, h]
  rfl

theorem drop_succ_of_drop {c : UInt8} {rest : List UInt8} (h : P.drop i = c :: rest) :
    P.drop (i + 1) = rest := by
  rw [← List.drop_drop, h]
  rfl

theorem extractLoop_break {n : Nat} {c : UInt8} {rest : List UInt8} (h : P.drop i = c :: rest)
    (hlb : c ≠ Ch.lbrack) (hbs : c ≠ Ch.backslash)
    (hno : (plainByte c && !quantByte (rest.headD 0)) = false) :
    extractLoop P (n + 1) i r = extractLoop P n (i + 1) r.broken := by
  have hnext : P.getD (i + 1) 0 = rest.headD 0 := by
    rw [List.getD_eq_getElem?_getD, ← List.head?_drop, drop_succ_of_drop h, List.headD_eq_head?_getD]
  rw [extractLoop, getElem?_of_drop h]
  dsimp only
  rw [if_neg hlb, if_neg hbs, hnext, hno]
  rfl

theorem extractLoop_take {n : Nat} {c : UInt8} {rest : List UInt8} (h : P.drop i = c :: rest)
    (hplain : plainByte c = true) (hno : quantByte (rest.headD 0) = false) :
    extractLoop P (n + 1) i r = extractLoop P n (i + 1) (r.taken i) := by
  have hnext : P.getD (i + 1) 0 = rest.headD 0 := by
    rw [List.getD_eq_getElem?_getD, ← List.head?_drop, drop_succ_of_drop h, List.headD_eq_head?_getD]
  have hlb : c ≠ Ch.lbrack := by
    rintro rfl
    exact absurd hplain (by decide)
  have hbs : c ≠ Ch.backslash := by
    rintro rfl
    exact absurd hplain (by decide)
  rw [extractLoop, getElem?_of_drop h]
  dsimp only
  rw [if_neg hlb, if_neg hbs, hnext, hplain, hno]
  rfl

theorem Arrives.break {n : Nat} {c : UInt8} {rest : List UInt8} {Q : LitRun → Prop} {es : List Re}
    (h : P.drop i = c :: rest) (hinv : RunInv P B i ds r) (hn : (c :: rest).length < n)
    (hlb : c ≠ Ch.lbrack) (hbs : c ≠ Ch.backslash)
    (hno : (plainByte c && !quantByte (rest.headD 0)) = false) (hQ : Q r.broken) :
    Arrives P B n i r rest (ds ++ es) Q := by
  obtain ⟨m, rfl⟩ : ∃ m, n = m + 1 := ⟨n - 1, by omega⟩
  exact ⟨m, i + 1, r.broken, extractLoop_break h hlb hbs hno, drop_succ_of_drop h,
    Nat.lt_of_succ_lt_succ hn, hinv.broken es _, hQ⟩

theorem Arrives.bind {n : Nat} {q q' : List UInt8} {ds ds' : List Re} {Q Q' : LitRun → Prop}
    (h : Arrives P B n i r q ds Q)
    (hnext : ∀ n' i' r', P.drop i' = q → q.length < n' → RunInv P B i' ds r' → Q r' →
      Arrives P B n' i' r' q' ds' Q') : Arrives P B n i r q' ds' Q' := by
  obtain ⟨n₁, i₁, r₁, heq, hdrop, hn, hinv, hQ⟩ := h
  obtain ⟨n₂, i₂, r₂, heq', h'⟩ := hnext n₁ i₁ r₁ hdrop hn hinv hQ
  exact ⟨n₂, i₂, r₂, heq.trans heq', h'⟩

theorem plainByte_digit {c : UInt8} (h : isDigit c = true) : plainByte c = true := by
  rw [plainByte, isAlnum, h]
  rfl

theorem quantByte_digit {c : UInt8} (h : isDigit c = true) : quantByte c = false := by
  rw [quantByte, Bool.eq_false_iff]
  intro hq
  simp only [Bool.or_eq_true, beq_iff_eq] at hq
  rcases hq with ((rfl | rfl) | rfl) | rfl <;> exact absurd h (by decide)

theorem extract_digits {q' : List UInt8} (hend : quantByte (q'.headD 0) = false) :
    ∀ {q : List UInt8} {v v' n i : Nat} {r : LitRun}, readNumber q v = (v', q') → P.drop i = q →
      q.length < n → RunInv P B i ds r → r.Inside B →
      (∀ j, q'.length < P.length - j → P.length - j ≤ q.length → B j) →
      Arrives P B n i r q' ds (LitRun.Inside B)
  | [], v, v', n, i, r, hq, hdrop, hn, hinv, hin, _ => by
      obtain ⟨-, rfl⟩ := Prod.mk.inj hq
      exact ⟨n, i, r, rfl, hdrop, hn, hinv, hin⟩
  | c :: rest, v, v', n, i, r, hq, hdrop, hn, hinv, hin, hB => by
      rw [readNumber] at hq
      split at hq
      · rename_i hd
        obtain ⟨m, rfl⟩ : ∃ m, n = m + 1 := ⟨n - 1, by omega⟩
        have hsuf : q'.length ≤ rest.length := by
          have := (readNumber_suffix rest (v * 10 + (c - 0x30).toNat)).length_le
          rwa [hq] at this
        have hleft : P.length - i = rest.length + 1 := by
          rw [← List.length_drop, hdrop, List.length_cons]
        have hBi : B i := hB i (by omega) (by rw [List.length_cons]; omega)
        have hnq : quantByte (rest.headD 0) = false := by
          cases rest with
          | nil => rfl
          | cons d rest =>
              rw [readNumber] at hq
              split at hq
              · rename_i hd'
                exact quantByte_digit hd'
              · obtain ⟨-, rfl⟩ := Prod.mk.inj hq
                exact hend
        have hstep := extractLoop_take (n := m) (r := r) hdrop (plainByte_digit hd) hnq
        obtain ⟨n', i', r', heq, h'⟩ := extract_digits hend hq (drop_succ_of_drop hdrop)
          (Nat.lt_of_succ_lt_succ hn) (hinv.takenBrace (by omega) hBi hin) (hin.taken hBi)
          fun j h1 h2 => hB j h1 (by rw [List.length_cons]; omega)
        exact ⟨n', i', r', hstep.trans heq, h'⟩
      · obtain ⟨-, rfl⟩ := Prod.mk.inj hq
        exact ⟨n, i, r, rfl, hdrop, hn, hinv, hin⟩

/-- A byte that is never plain breaks the run. -/
theorem Arrives.skip {n : Nat} {q : List UInt8} {c : UInt8} (hc : q.headD 0 = c)
    (hmark : c ≠ 0 ∧ c ≠ Ch.lbrack ∧ c ≠ Ch.backslash ∧ plainByte c = false)
    (hdrop : P.drop i = q) (hn : q.length < n) (hinv : RunInv P B i ds r) :
    Arrives P B n i r q.tail ds (LitRun.Inside B) := by
  obtain ⟨h0, hlb, hbs, hplain⟩ := hmark
  have hq : q = c :: q.tail := by
    rw [← hc]
    cases q with
    | nil => exact absurd hc.symm h0
    | cons d tl => rfl
  have harr : Arrives P B n i r q.tail (ds ++ []) (LitRun.Inside B) := by
    refine Arrives.break (hdrop.trans hq) hinv (by rwa [← hq]) hlb hbs ?_ LitRun.inside_broken
    rw [hplain]
    rfl
  rwa [List.append_nil] at harr

theorem extract_brace {q : List UInt8} {n : Nat} {hi : Nat} (hhi : (readBounds q).hi = some hi)
    (hend : (readBounds q).rest.headD 0 = Ch.rbrace) (hdrop : P.drop i = q) (hn : q.length < n)
    (hinv : RunInv P B i ds r) (hin : r.Inside B)
    (hB : ∀ j, (readBounds q).rest.length < P.length - j → P.length - j ≤ q.length → B j) :
    Arrives P B n i r (readBounds q).rest.tail ds (LitRun.Inside B) := by
  obtain ⟨⟨lo, q₁⟩, hq₁⟩ : ∃ d, readNumber q 0 = d := ⟨_, rfl⟩
  have hsuf₁ : q₁.length ≤ q.length := by
    have := (readNumber_suffix q 0).length_le
    rwa [hq₁] at this
  rw [readBounds, hq₁] at hhi hend hB ⊢
  dsimp only at hhi hend hB ⊢
  have hclose : ∀ {q₂ : List UInt8}, q₂.headD 0 = Ch.rbrace → ∀ n' i' r', P.drop i' = q₂ →
      q₂.length < n' → RunInv P B i' ds r' → r'.Inside B →
      Arrives P B n' i' r' q₂.tail ds (LitRun.Inside B) :=
    fun hq₂ n' i' r' hdrop' hn' hinv' _ => Arrives.skip hq₂ (by decide) hdrop' hn' hinv'
  by_cases hcomma : q₁.headD 0 = Ch.comma
  · rw [if_pos hcomma] at hhi hend hB ⊢
    by_cases hdig : isDigit (q₁.tail.headD 0) = true
    · obtain ⟨⟨hi', q₃⟩, hq₃⟩ : ∃ d, readNumber q₁.tail 0 = d := ⟨_, rfl⟩
      rw [if_pos hdig, hq₃] at hhi hend hB ⊢
      dsimp only at hhi hend hB ⊢
      have hsuf₃ : q₃.length ≤ q₁.tail.length := by
        have := (readNumber_suffix q₁.tail 0).length_le
        rwa [hq₃] at this
      have htail : q₁.tail.length ≤ q₁.length := (List.tail_suffix q₁).length_le
      refine Arrives.bind (extract_digits (by rw [hcomma]; decide) hq₁ hdrop hn hinv hin
        fun j h1 h2 => hB j (by omega) h2) fun n₁ i₁ r₁ hd₁ hn₁ hinv₁ hin₁ => ?_
      refine Arrives.bind (Arrives.skip hcomma (by decide) hd₁ hn₁ hinv₁)
        fun n₂ i₂ r₂ hd₂ hn₂ hinv₂ hin₂ => ?_
      exact Arrives.bind (extract_digits (by rw [hend]; decide) hq₃ hd₂ hn₂ hinv₂ hin₂
        fun j h1 h2 => hB j h1 (by omega)) (hclose hend)
    · rw [if_neg hdig] at hhi
      exact absurd hhi (by simp)
  · rw [if_neg hcomma] at hhi hend hB ⊢
    exact Arrives.bind (extract_digits (by rw [hend]; decide) hq₁ hdrop hn hinv hin hB)
      (hclose hend)

theorem extract_quant {after rest : List UInt8} {l n : Nat} {f : UInt8} {a b : Re}
    (h : QuantOf ⟨after, l, f⟩ a b ⟨rest, l, f⟩) (hdrop : P.drop i = after) (hn : after.length < n)
    (hinv : RunInv P B i ds r) (hin : r.Inside B)
    (hB : after.headD 0 = Ch.lbrace → ∀ j, (readBounds after.tail).rest.length < P.length - j →
      P.length - j ≤ after.tail.length → B j) :
    Arrives P B n i r rest ds (LitRun.Inside B) := by
  cases h with
  | none h => exact ⟨n, i, r, rfl, hdrop, hn, hinv, hin⟩
  | star h => exact Arrives.skip h (by decide) hdrop hn hinv
  | plus h => exact Arrives.skip h (by decide) hdrop hn hinv
  | quest h => exact Arrives.skip h (by decide) hdrop hn hinv
  | brace h hone hhi hlo hend hle hb =>
      exact Arrives.bind (Arrives.skip h (by decide) hdrop hn hinv)
        fun n₁ i₁ r₁ hd₁ hn₁ hinv₁ hin₁ => extract_brace hhi hend hd₁ hn₁ hinv₁ hin₁ (hB h)

theorem extract_atom {p after : List UInt8} {k : Leaf} {S : ByteSet} {n : Nat} (h0 : (0 : UInt8) ∉ p)
    (hne : p ≠ []) (hatom : plainAtom p = some (k, S, after)) (hdrop : P.drop i = p)
    (hn : p.length < n) (hinv : RunInv P B i ds r) (b : Re) :
    (k = .lit (p.headD 0) ∧ S = gsetByte 0 (p.headD 0) false ∧ after = p.tail
        ∧ plainByte (p.headD 0) = true ∧ quantByte (after.headD 0) = false)
      ∨ Arrives P B n i r after (ds ++ [b]) (LitRun.Inside B) := by
  obtain ⟨c, tl, rfl⟩ := List.exists_cons_of_ne_nil hne
  obtain ⟨m, rfl⟩ : ∃ m, n = m + 1 := ⟨n - 1, by omega⟩
  have hshort := plainAtom_shorter hne hatom
  have hm : after.length < m := by
    have := hshort.lt
    omega
  rw [plainAtom, List.headD_cons, List.tail_cons] at hatom
  split at hatom
  · rename_i hdot
    obtain ⟨-, -, rfl⟩ := hatom
    refine Or.inr (Arrives.break hdrop hinv hn ?_ ?_ ?_ LitRun.inside_broken)
    · rw [hdot]; decide
    · rw [hdot]; decide
    · rw [hdot]; rfl
  split at hatom
  · rename_i hlb
    obtain ⟨⟨S', q⟩, hq, heq⟩ := Option.map_eq_some_iff.mp hatom
    obtain ⟨-, -, rfl⟩ := heq
    have hP : q <:+ P := hshort.suffix.trans (hdrop ▸ List.drop_suffix i P)
    refine Or.inr ⟨m, P.length - q.length, r.broken, ?_, (List.suffix_iff_eq_drop.mp hP).symm, hm,
      hinv.broken [b] _, LitRun.inside_broken⟩
    rw [extractLoop, getElem?_of_drop hdrop]
    dsimp only
    rw [if_pos hlb, hdrop, hq]
  · rename_i hlb
    have htail : tl.headD 0 = 0 → tl = [] := fun hz =>
      Classical.byContradiction fun hne => (headD_ne_zero_iff h0).mpr hne hz
    by_cases hbs : c = Ch.backslash
    · have hesc : after = tl.tail := by
        split at hatom
        · split at hatom
          · exact (congrArg (fun q => q.2.2) (Option.some.inj hatom)).symm
          · exact (congrArg (fun q => q.2.2) (Option.some.inj hatom)).symm
        · rename_i hno
          obtain ⟨-, -, rfl⟩ := hatom
          rw [htail (by by_contra h; exact hno ⟨hbs, h⟩)]
          rfl
      refine Or.inr ⟨m, i + 2, r.broken, ?_, ?_, hm, hinv.broken [b] _, LitRun.inside_broken⟩
      · rw [extractLoop, getElem?_of_drop hdrop]
        dsimp only
        rw [if_neg hlb, if_pos hbs]
      · rw [hesc, ← drop_succ_of_drop hdrop, List.tail_drop]
    · rw [if_neg fun h => hbs h.1] at hatom
      obtain ⟨rfl, rfl, rfl⟩ := hatom
      cases hno : plainByte c && !quantByte (after.headD 0) with
      | false => exact Or.inr (Arrives.break hdrop hinv hn hlb hbs hno LitRun.inside_broken)
      | true =>
          rw [Bool.and_eq_true, Bool.not_eq_true'] at hno
          exact Or.inl ⟨rfl, rfl, rfl, hno⟩

theorem extract_item {p after rest : List UInt8} {k : Leaf} {S : ByteSet} {b : Re} {l n : Nat}
    {f : UInt8} (h0 : (0 : UInt8) ∉ p) (hne : p ≠ []) (hatom : plainAtom p = some (k, S, after))
    (hq : QuantOf ⟨after, l, f⟩ (.pos k S) b ⟨rest, l, f⟩) (hdrop : P.drop i = p)
    (hn : p.length < n) (hinv : RunInv P B i ds r)
    (hB : after.headD 0 = Ch.lbrace → ∀ j, (readBounds after.tail).rest.length < P.length - j →
      P.length - j ≤ after.tail.length → B j) :
    Arrives P B n i r rest (ds ++ [b]) fun _ => True := by
  rcases extract_atom h0 hne hatom hdrop hn hinv b with ⟨rfl, rfl, rfl, hplain, hno⟩ | harr
  · obtain ⟨c, tl, rfl⟩ := List.exists_cons_of_ne_nil hne
    rw [List.headD_cons] at hplain hq
    rw [List.tail_cons] at hno hq
    obtain ⟨m, rfl⟩ : ∃ m, n = m + 1 := ⟨n - 1, by omega⟩
    have hnone : b = .pos (.lit c) (gsetByte 0 c false) ∧ rest = tl := by
      have hquant : ∀ d, tl.headD 0 = d → quantByte d = false := fun d hd => hd ▸ hno
      cases hq with
      | none => exact ⟨rfl, rfl⟩
      | star h => exact absurd (hquant _ h) (by decide)
      | plus h => exact absurd (hquant _ h) (by decide)
      | quest h => exact absurd (hquant _ h) (by decide)
      | brace h => exact absurd (hquant _ h) (by decide)
    obtain ⟨rfl, rfl⟩ := hnone
    exact ⟨m, i + 1, r.taken i, extractLoop_take hdrop hplain hno, drop_succ_of_drop hdrop,
      Nat.lt_of_succ_lt_succ hn, hinv.takenLeaf (getElem?_of_drop hdrop), trivial⟩
  · refine harr.bind fun n' i' r' hd hn' hinv' hin => ?_
    obtain ⟨n₂, i₂, r₂, heq, hd₂, hn₂, hinv₂, -⟩ := extract_quant hq hd hn' hinv' hin hB
    exact ⟨n₂, i₂, r₂, heq, hd₂, hn₂, hinv₂, trivial⟩

theorem inBraceLoop_item {p after : List UInt8} {k : Leaf} {S : ByteSet} (h0 : (0 : UInt8) ∉ p)
    (hne : p ≠ []) (hatom : plainAtom p = some (k, S, after)) (left m : Nat) :
    inBraceLoop left (m + 1) p
      = if after.headD 0 = Ch.lbrace then
          (decide ((readBounds after.tail).rest.length < left) && decide (left ≤ after.tail.length))
            || inBraceLoop left m (readBounds after.tail).rest.tail
        else inBraceLoop left m (if quantByte (after.headD 0) then after.tail else after) := by
  rw [← maxlenAtom_eq h0 hne hatom]
  obtain ⟨c, tl, rfl⟩ := List.exists_cons_of_ne_nil hne
  rfl

theorem inBraceLoop_rest {p after rest : List UInt8} {k : Leaf} {S : ByteSet} {b : Re} {l : Nat} {f : UInt8}
    (h0 : (0 : UInt8) ∉ p) (hne : p ≠ []) (hatom : plainAtom p = some (k, S, after))
    (hq : QuantOf ⟨after, l, f⟩ (.pos k S) b ⟨rest, l, f⟩) {left m : Nat}
    (hin : inBraceLoop left m rest = true) : inBraceLoop left (m + 1) p = true := by
  rw [inBraceLoop_item h0 hne hatom]
  cases hq with
  | none hno =>
      have h1 : after.headD 0 ≠ Ch.star := hno.1
      have h2 : after.headD 0 ≠ Ch.plus := hno.2.1
      have h3 : after.headD 0 ≠ Ch.quest := hno.2.2.1
      have h4 : after.headD 0 ≠ Ch.lbrace := hno.2.2.2
      have hnq : quantByte (after.headD 0) = false := by
        rw [quantByte, beq_false_of_ne h1, beq_false_of_ne h2, beq_false_of_ne h3,
          beq_false_of_ne h4]
        rfl
      rw [if_neg h4, hnq]
      exact hin
  | star hs =>
      have hs : after.headD 0 = Ch.star := hs
      rw [hs]
      exact hin
  | plus hs =>
      have hs : after.headD 0 = Ch.plus := hs
      rw [hs]
      exact hin
  | quest hs =>
      have hs : after.headD 0 = Ch.quest := hs
      rw [hs]
      exact hin
  | brace hs =>
      have hs : after.headD 0 = Ch.lbrace := hs
      rw [if_pos hs]
      exact Bool.or_eq_true_iff.mpr (Or.inr hin)

/-- `extract_literal` along a flat pattern, by induction on the items. -/
theorem extractLoop_flat {p : List UInt8} {bs : List Re} (h : Flat p bs) :
    ∀ {ds : List Re} {n m i : Nat} {r : LitRun}, (0 : UInt8) ∉ p → P.drop i = p → p.length < n →
      p.length < m → RunInv P B i ds r →
      (∀ j, inBraceLoop (P.length - j) m p = true → B j) →
      ∃ i', RunInv P B i' (ds ++ bs) (extractLoop P n i r) := by
  induction h with
  | nil =>
      intro ds n m i r h0 hdrop hn hm hinv hreach
      obtain ⟨k, rfl⟩ : ∃ k, n = k + 1 := ⟨n - 1, by omega⟩
      have hend : P[i]? = none := by
        rw [← List.head?_drop, hdrop]
        rfl
      refine ⟨i, ?_⟩
      rw [extractLoop, hend, List.append_nil]
      exact hinv
  | @item p after rest k S b bs hne hatom l f hq h ih =>
      intro ds n m i r h0 hdrop hn hm hinv hreach
      obtain ⟨m, rfl⟩ : ∃ k, m = k + 1 := ⟨m - 1, by omega⟩
      have hshort : Shorter rest p := (plainAtom_shorter hne hatom).of_suffix hq.suffix
      have hB : after.headD 0 = Ch.lbrace → ∀ j, (readBounds after.tail).rest.length < P.length - j →
          P.length - j ≤ after.tail.length → B j := by
        intro hlb j h1 h2
        apply hreach j
        rw [inBraceLoop_item h0 hne hatom, if_pos hlb, decide_eq_true h1, decide_eq_true h2]
        rfl
      obtain ⟨n', i', r', heq, hd', hn', hinv', -⟩ :=
        extract_item h0 hne hatom hq hdrop hn hinv hB
      obtain ⟨i'', hfin⟩ := ih (fun hmem => h0 (hshort.suffix.mem hmem)) hd' hn'
        (by have := hshort.lt; omega) hinv' fun j hj => hreach j (inBraceLoop_rest h0 hne hatom hq hj)
      refine ⟨i'', ?_⟩
      rw [heq]
      rwa [List.append_assoc] at hfin

/-- **The literal**: on a flat pattern, a literal that does not come from
between braces is spelled by consecutive items. -/
theorem extractLiteral_flat {p lit : List UInt8} {bs : List Re} {maxout : Nat} (h : Flat p bs)
    (h0 : (0 : UInt8) ∉ p) (hlit : extractLiteral p maxout = some lit)
    (hbrace : literalInBrace p = false) : lit ≠ [] ∧ litLeaves lit <:+: bs := by
  have hstart : RunInv p (fun j => inBraceLoop (p.length - j) (p.length + 1) p = true) 0 []
      ⟨0, none, 0, none⟩ :=
    ⟨fun _ => rfl, fun c hc => absurd hc (by simp), fun hb => absurd rfl hb⟩
  obtain ⟨i', hinv⟩ := extractLoop_flat h h0 (i := 0) rfl (Nat.lt_succ_self _)
    (Nat.lt_succ_self _) hstart fun j hj => hj
  rw [extractLiteral] at hlit
  rw [literalInBrace] at hbrace
  generalize extractLoop p (p.length + 1) 0 ⟨0, none, 0, none⟩ = r at hinv hlit hbrace
  split at hlit
  · exact absurd hlit (by simp)
  · rename_i hlen
    obtain rfl := Option.some.inj hlit
    obtain ⟨b, hbs, hle, hor⟩ := hinv.best (by omega)
    rw [hbs] at hbrace
    have hin := hor.resolve_left fun h => absurd (hbrace.symm.trans h) (by simp)
    rw [hbs, Option.getD_some]
    refine ⟨List.ne_nil_of_length_pos ?_, hin⟩
    rw [List.length_take, List.length_drop]
    omega

theorem prod_litLeaves : ∀ lit : List UInt8,
    ((litLeaves lit).map Re.fieldLang).prod = ({lit} : Language UInt8)
  | [] => rfl
  | c :: lit => by
      rw [litLeaves, List.map_cons, List.map_cons, List.prod_cons]
      show Re.setLang (gsetByte 0 c false) * ((litLeaves lit).map Re.fieldLang).prod = _
      rw [setLang_byte, prod_litLeaves lit, singleton_mul]
      rfl

theorem infix_of_litLeaves {lit u : List UInt8} {bs : List Re} (h : litLeaves lit <:+: bs)
    (hu : u ∈ (bs.map Re.fieldLang).prod) : lit <:+: u := by
  obtain ⟨xs, ys, rfl⟩ := h
  rw [List.map_append, List.map_append, List.prod_append, List.prod_append, prod_litLeaves] at hu
  obtain ⟨v, hv, z, -, rfl⟩ := Language.mem_mul.mp hu
  obtain ⟨x, -, m, hm, rfl⟩ := Language.mem_mul.mp hv
  obtain rfl : m = lit := hm
  exact ⟨x, z, rfl⟩

theorem Flat.clean {p : List UInt8} {bs : List Re} (h : Flat p bs) : ∀ b ∈ bs, b.clean = true := by
  induction h with
  | nil => exact fun b hb => absurd hb List.not_mem_nil
  | item hne hatom hq h ih =>
      intro b hb
      rcases List.mem_cons.mp hb with rfl | hb
      · cases hq with
        | none => rfl
        | star _ hb => rcases hb with rfl | rfl <;> rfl
        | plus _ hb => rcases hb with rfl | rfl <;> rfl
        | quest _ hb => rcases hb with rfl | rfl <;> rfl
        | brace _ _ _ _ _ _ hb =>
            rcases hb with rfl | rfl <;> simp [Re.clean, Re.looped]
      · exact ih b hb

/-! ## The byte sets -/

/-- A run of plain one-byte items with the given sets. -/
def LeafSets (bs : List Re) (sets : List ByteSet) : Prop :=
  List.Forall₂ (fun b S => ∃ k, b = Re.pos k S) bs sets

theorem LeafSets.clean {bs : List Re} {sets : List ByteSet} (h : LeafSets bs sets) :
    ∀ b ∈ bs, b.clean = true := by
  induction h with
  | nil => exact fun b hb => absurd hb List.not_mem_nil
  | cons hb h ih =>
      intro b' hb'
      obtain ⟨k, rfl⟩ := hb
      rcases List.mem_cons.mp hb' with rfl | hb'
      · rfl
      · exact ih b' hb'

theorem parseClassesLoop_atom {maxL n : Nat} {p after : List UInt8} {k : Leaf} {S : ByteSet}
    {sets sets' : List ByteSet} (h0 : (0 : UInt8) ∉ p) (hne : p ≠ [])
    (hatom : plainAtom p = some (k, S, after))
    (h : parseClassesLoop maxL (n + 1) p sets = some sets') :
    parseClassesLoop maxL n after (sets ++ [S]) = some sets' := by
  obtain ⟨c, tl, rfl⟩ := List.exists_cons_of_ne_nil hne
  rw [parseClassesLoop] at h
  rw [plainAtom, List.headD_cons, List.tail_cons] at hatom
  split at h
  · exact absurd h (by simp)
  split at h
  · exact absurd h (by simp)
  split at h
  · rename_i hdot
    rw [if_pos hdot] at hatom
    obtain ⟨-, rfl, rfl⟩ := hatom
    exact h
  rename_i hdot
  rw [if_neg hdot] at hatom
  split at h
  · rename_i hlb
    rw [if_pos hlb] at hatom
    obtain ⟨⟨S', q⟩, hq, heq⟩ := Option.map_eq_some_iff.mp hatom
    obtain ⟨-, rfl, rfl⟩ := heq
    rwa [hq] at h
  rename_i hlb
  rw [if_neg hlb] at hatom
  have hnext := headD_ne_zero_iff h0
  split at h
  · rename_i hesc
    rw [if_pos ⟨hesc.1, hnext.mpr hesc.2⟩] at hatom
    cases hs : shorthandSet (tl.headD 0) with
    | some S' =>
        rw [hs] at h hatom
        obtain ⟨-, rfl, rfl⟩ := hatom
        exact h
    | none =>
        rw [hs] at h hatom
        obtain ⟨-, rfl, rfl⟩ := hatom
        exact h
  · rename_i hesc
    rw [if_neg fun he => hesc ⟨he.1, hnext.mp he.2⟩] at hatom
    obtain ⟨-, rfl, rfl⟩ := hatom
    exact h

theorem parseClassesLoop_stops {maxL n : Nat} {p : List UInt8} {sets sets' : List ByteSet}
    (hn : p.length < n) (h : parseClassesLoop maxL n p sets = some sets') :
    p.headD 0 ≠ Ch.star ∧ p.headD 0 ≠ Ch.plus ∧ p.headD 0 ≠ Ch.quest ∧ p.headD 0 ≠ Ch.lbrace
      ∧ p.headD 0 ≠ Ch.bar ∧ p.headD 0 ≠ Ch.lparen ∧ p.headD 0 ≠ Ch.rparen := by
  obtain ⟨n, rfl⟩ : ∃ m, n = m + 1 := ⟨n - 1, by omega⟩
  cases p with
  | nil => exact ⟨by decide, by decide, by decide, by decide, by decide, by decide, by decide⟩
  | cons c rest =>
      rw [parseClassesLoop] at h
      split at h
      · exact absurd h (by simp)
      split at h
      · exact absurd h (by simp)
      · rename_i hc
        simp only [not_or] at hc
        obtain ⟨h1, h2, h3, h4, h5, h6, h7⟩ := hc
        exact ⟨h1, h2, h3, h7, h4, h5, h6⟩

/-- **The byte sets**: a pattern `parse_classes` accepts is a run of plain
items with the sets it returns. -/
theorem parseClassesLoop_flat {alt : PPos → Option (Re × PPos)} {s s' : PPos} {bs : List Re}
    (h : Items false alt s bs s') :
    ∀ {n maxL : Nat} {sets sets' : List ByteSet}, s.p.length < n → (0 : UInt8) ∉ s.p →
      parseClassesLoop maxL n s.p sets = some sets' →
      s'.p = [] ∧ sets'.length ≤ max maxL sets.length ∧ ∃ ks, sets' = sets ++ ks ∧ LeafSets bs ks := by
  induction h with
  | @done s hstop =>
      intro n maxL sets sets' hn h0 h
      have hgo := parseClassesLoop_stops hn h
      obtain ⟨n, rfl⟩ : ∃ m, n = m + 1 := ⟨n - 1, by omega⟩
      cases hp : s.p with
      | nil =>
          rw [hp, parseClassesLoop] at h
          obtain rfl := Option.some.inj h
          exact ⟨rfl, le_max_right _ _, [], (List.append_nil _).symm, .nil⟩
      | cons c rest =>
          have hc : s.cur = c := by rw [PPos.cur, hp]; rfl
          rw [hp, List.headD_cons] at hgo
          rw [hc, concatGoes] at hstop
          simp only [Bool.and_eq_false_iff, bne_eq_false_iff_eq] at hstop
          rcases hstop with (hz | hbar) | hrp
          · exact absurd (by rw [hp, hz]; exact List.mem_cons_self) h0
          · exact absurd hbar hgo.2.2.2.2.1
          · exact absurd hrp hgo.2.2.2.2.2.2
  | @item s s₁ s' b bs hgo hb h ih =>
      intro n maxL sets sets' hn h0 hm
      have hne := concatGoes_ne hgo
      have hstop := parseClassesLoop_stops hn hm
      obtain ⟨n, rfl⟩ : ∃ m, n = m + 1 := ⟨n - 1, by omega⟩
      obtain ⟨k, S, after, hatom, hq, -⟩ := pRepeat_flat hstop.2.2.2.2.2.1 hb
      have hnext := parseClassesLoop_atom h0 hne hatom hm
      have hshort := plainAtom_shorter hne hatom
      have hafter : after.length < n := by
        have := hshort.lt
        omega
      have hplain := parseClassesLoop_stops hafter hnext
      have hnone : b = .pos k S ∧ s₁.p = after := by
        cases hq with
        | none => exact ⟨rfl, rfl⟩
        | star hs => exact absurd hs hplain.1
        | plus hs => exact absurd hs hplain.2.1
        | quest hs => exact absurd hs hplain.2.2.1
        | brace hs => exact absurd hs hplain.2.2.2.1
      obtain ⟨rfl, rfl⟩ := hnone
      obtain ⟨hend, hlen, ks, rfl, hks⟩ := ih hafter (fun hmem => h0 (hshort.suffix.mem hmem)) hnext
      have hroom : sets.length < maxL := by
        obtain ⟨c, tl, hp⟩ := List.exists_cons_of_ne_nil hne
        rw [hp, parseClassesLoop] at hm
        split at hm
        · exact absurd hm (by simp)
        · rename_i hlt
          omega
      refine ⟨hend, ?_, S :: ks, by rw [List.append_assoc]; rfl, .cons ⟨k, rfl⟩ hks⟩
      have hone : (sets ++ [S]).length = sets.length + 1 := List.length_append
      omega

theorem mem_prod_leafSets {bs : List Re} {sets : List ByteSet} (h : LeafSets bs sets) :
    ∀ {u : List UInt8}, u ∈ (bs.map Re.fieldLang).prod
      ↔ List.Forall₂ (fun (S : ByteSet) c => S.has c = true) sets u := by
  induction h with
  | nil =>
      intro u
      rw [List.map_nil, List.prod_nil, Language.mem_one, List.forall₂_nil_left_iff]
  | cons hb h ih =>
      intro u
      obtain ⟨k, rfl⟩ := hb
      rw [List.map_cons, mem_prod_cons]
      constructor
      · rintro ⟨v, ⟨c, hc, rfl⟩, r, hr, rfl⟩
        exact .cons hc (ih.mp hr)
      · rintro (_ | ⟨hc, hr⟩)
        exact ⟨[_], ⟨_, hc, rfl⟩, _, ih.mpr hr, rfl⟩

end Montauk
