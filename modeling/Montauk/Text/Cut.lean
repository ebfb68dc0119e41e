import Montauk.Text.Items

/-!
# Reading a text cut short

What the grammar reads from a text it also reads from the text cut off
behind what it read, when the cut is at the end of a branch: in front of a
`|`, a `)` or the end. So a branch of an alternation compiled on its own
gives the tree it has inside the alternation (`parseRe_branches`).

A bracket expression, a character and a brace are cut one by one; the
cursor of the cut text then follows the cursor of the whole text step by
step (`Sim`), through groups of any depth.
-/

namespace Montauk

/-- The text in front of which a branch ends. -/
structure Stop (r : List UInt8) : Prop where
  ends : r.headD 0 = 0 ∨ r.headD 0 = Ch.bar ∨ r.headD 0 = Ch.rparen

theorem Stop.not_goes {r : List UInt8} (h : Stop r) : concatGoes (r.headD 0) = false := by
  rcases h.ends with h | h | h <;> rw [h] <;> decide

theorem Stop.ne {r : List UInt8} (h : Stop r) {c : UInt8} (hc : concatGoes c = true) :
    r.headD 0 ≠ c := by
  intro heq
  have hstop := h.not_goes
  rw [heq, hc] at hstop
  exact Bool.noConfusion hstop

theorem Stop.not_digit {r : List UInt8} (h : Stop r) : isDigit (r.headD 0) = false := by
  rcases h.ends with h | h | h <;> rw [h] <;> decide

theorem Stop.not_continuation {r : List UInt8} (h : Stop r) : r.headD 0 &&& 0xc0 ≠ 0x80 := by
  rcases h.ends with h | h | h <;> rw [h] <;> decide

theorem headD_append {x : List UInt8} (hne : x ≠ []) (r : List UInt8) :
    (x ++ r).headD 0 = x.headD 0 := by
  cases x with
  | nil => exact absurd rfl hne
  | cons c x => rfl

theorem tail_append {x : List UInt8} (hne : x ≠ []) (r : List UInt8) :
    (x ++ r).tail = x.tail ++ r := by
  cases x with
  | nil => exact absurd rfl hne
  | cons c x => rfl

/-- A rest that still holds `r` is a cut text in front of `r`. -/
theorem Shorter.cut {a x y r : List UInt8} (h : Shorter (y ++ r) a) (ha : a = x ++ r) : x ≠ [] := by
  rintro rfl
  have hlt := h.lt
  rw [ha, List.length_append, List.nil_append] at hlt
  omega

/-! ## Bracket expressions -/

theorem posixName_cut {r : List UInt8} :
    ∀ {x : List UInt8}, (posixName (x ++ r) = none → posixName x = none)
      ∧ ∀ name z, posixName (x ++ r) = some (name, z ++ r) → posixName x = some (name, z)
  | [] => by
      refine ⟨fun _ => rfl, fun name z h => ?_⟩
      have hlt := (posixName_shorter h).lt
      rw [List.nil_append, List.length_append] at hlt
      omega
  | [c] => by
      refine ⟨fun _ => rfl, fun name z h => ?_⟩
      have hlt := (posixName_shorter h).lt
      rw [List.length_append, List.length_append, List.length_singleton] at hlt
      obtain rfl : z = [] := List.length_eq_zero_iff.mp (by omega)
      cases r with
      | nil => exact absurd h (by simp [posixName])
      | cons d r =>
          -- the name would end with the cut text itself
          rw [List.singleton_append, posixName] at h
          split at h
          · obtain ⟨-, h⟩ := Prod.mk.inj (Option.some.inj h)
            exact absurd (congrArg List.length h) (by simp)
          · obtain ⟨⟨name', r'⟩, hr, heq⟩ := Option.map_eq_some_iff.mp h
            obtain ⟨-, rfl⟩ := Prod.mk.inj heq
            have hlt := (posixName_shorter hr).lt
            rw [List.nil_append] at hlt
            exact absurd hlt (lt_irrefl _)
  | c :: d :: x => by
      obtain ⟨ih1, ih2⟩ := posixName_cut (r := r) (x := d :: x)
      rw [List.cons_append, List.cons_append, posixName, posixName, ← List.cons_append]
      split
      · refine ⟨fun h => absurd h (by simp), fun name z h => ?_⟩
        obtain ⟨rfl, hz⟩ := Prod.mk.inj (Option.some.inj h)
        rw [List.append_cancel_right hz]
      · refine ⟨fun h => ?_, fun name z h => ?_⟩
        · rw [Option.map_eq_none_iff] at h ⊢
          exact ih1 h
        · obtain ⟨⟨name', r'⟩, hr, heq⟩ := Option.map_eq_some_iff.mp h
          obtain ⟨rfl, rfl⟩ := Prod.mk.inj heq
          rw [ih2 _ _ hr]
          rfl

theorem posixClassSpan_cut {x r : List UInt8} {S : ByteSet} {icase : Bool} :
    (posixClassSpan (x ++ r) S icase = .literal → posixClassSpan x S icase = .literal)
      ∧ ∀ S' z, posixClassSpan (x ++ r) S icase = .span S' (z ++ r) →
        posixClassSpan x S icase = .span S' z := by
  match x with
  | [] =>
      refine ⟨fun _ => rfl, fun S' z h => ?_⟩
      have hlt := (posixClassSpan_shorter h).lt
      rw [List.nil_append, List.length_append] at hlt
      omega
  | [c] =>
      refine ⟨fun _ => rfl, fun S' z h => ?_⟩
      cases r with
      | nil => exact absurd h (by simp [posixClassSpan])
      | cons d r =>
          rw [List.singleton_append] at h
          obtain ⟨name, hname⟩ := posixClassSpan_name h
          have hlt := (posixName_shorter hname).lt
          rw [List.length_append, List.length_cons] at hlt
          omega
  | c :: d :: x =>
      obtain ⟨ih1, ih2⟩ := posixName_cut (r := r) (x := x)
      rw [List.cons_append, List.cons_append, posixClassSpan, posixClassSpan]
      split
      · cases hname : posixName (x ++ r) with
        | none =>
            rw [ih1 hname]
            exact ⟨id, fun S' z h => absurd h (by simp)⟩
        | some e =>
            obtain ⟨name, after⟩ := e
            refine ⟨fun h => ?_, fun S' z h => ?_⟩
            · dsimp only at h
              split at h <;> exact absurd h (by simp)
            · dsimp only at h
              cases hmem : posixClass? name with
              | none =>
                  rw [hmem] at h
                  exact absurd h (by simp)
              | some mem =>
                  rw [hmem] at h
                  obtain ⟨hS, rfl⟩ := PosixSpan.span.inj h
                  rw [ih2 _ _ hname]
                  dsimp only
                  rw [hmem]
                  dsimp only
                  rw [hS]
      · exact ⟨id, fun S' z h => absurd h (by simp)⟩

theorem classLoop_cut {icase : Bool} {r y : List UInt8} :
    ∀ {n m : Nat} {first : Bool} {S S' : ByteSet} {x : List UInt8},
      classLoop icase n first S (x ++ r) = some (S', y ++ r) → x.length < m →
      classLoop icase m first S x = some (S', y)
  | 0, _, _, _, _, _, h, _ => absurd h (by simp [classLoop])
  | n + 1, 0, _, _, _, _, _, hm => absurd hm (Nat.not_lt_zero _)
  | n + 1, m + 1, first, S, S', x, h, hm => by
      have hne := (classLoop_shorter h).cut rfl
      cases x with
      | nil => exact absurd rfl hne
      | cons c x =>
          have hm' : x.length < m := Nat.lt_of_succ_lt_succ hm
          obtain ⟨hlit, hspan⟩ : (posixClassSpan (c :: x ++ r) S icase = .literal →
                posixClassSpan (c :: x) S icase = .literal)
              ∧ ∀ S' z, posixClassSpan (c :: x ++ r) S icase = .span S' (z ++ r) →
                posixClassSpan (c :: x) S icase = .span S' z := posixClassSpan_cut
          rw [List.cons_append] at h
          unfold classLoop at h ⊢
          split at h
          · rename_i hend
            obtain ⟨rfl, hy⟩ := Prod.mk.inj (Option.some.inj h)
            rw [if_pos hend, List.append_cancel_right hy]
          · rename_i hend
            rw [if_neg hend]
            rw [List.cons_append] at hlit hspan
            cases hp : posixClassSpan (c :: (x ++ r)) S icase with
            | bad =>
                rw [hp] at h
                exact absurd h (by simp)
            | span S₁ after =>
                rw [hp] at h
                have hr : r <:+ after := (List.suffix_append y r).trans (classLoop_shorter h).suffix
                obtain ⟨z, rfl⟩ := hr
                have hz : z.length < (c :: x).length := by
                  have hlt := (posixClassSpan_shorter hp).lt
                  rw [List.length_cons, List.length_append, List.length_append] at hlt
                  rw [List.length_cons]
                  omega
                rw [hspan S₁ z hp]
                exact classLoop_cut h (by rw [List.length_cons] at hz; omega)
            | literal =>
                rw [hp] at h
                rw [hlit hp]
                have hmember : classLoop icase n false (gsetByte S c icase) (x ++ r)
                    = some (S', y ++ r) →
                    classLoop icase m false (gsetByte S c icase) x = some (S', y) :=
                  fun h => classLoop_cut h hm'
                rcases x with _ | ⟨d, _ | ⟨hi, x⟩⟩
                · refine hmember ?_
                  rcases r with _ | ⟨d, _ | ⟨hi, r⟩⟩
                  · exact h
                  · exact h
                  · dsimp only [List.nil_append] at h
                    split at h
                    · -- a range would end inside the cut text
                      have hlt := (classLoop_shorter h).lt
                      rw [List.length_append, List.length_cons, List.length_cons] at hlt
                      omega
                    · exact h
                · rcases r with _ | ⟨hi, r⟩
                  · exact hmember h
                  · dsimp only [List.cons_append, List.nil_append] at h
                    split at h
                    · have hlt := (classLoop_shorter h).lt
                      rw [List.length_append, List.length_cons] at hlt
                      omega
                    · exact hmember h
                · dsimp only [List.cons_append] at h ⊢
                  split at h
                  · rename_i hrange
                    rw [if_pos hrange]
                    rw [List.length_cons, List.length_cons] at hm'
                    exact classLoop_cut h (by omega)
                  · rename_i hrange
                    rw [if_neg hrange]
                    exact hmember h

theorem classSpan_cut {icase : Bool} {x y r : List UInt8} {S : ByteSet}
    (h : classSpan (x ++ r) icase = some (S, y ++ r)) : classSpan x icase = some (S, y) := by
  have hne := (classSpan_shorter h).cut rfl
  rw [classSpan, tail_append hne] at h
  obtain ⟨⟨S₁, y₁⟩, hloop, heq⟩ := Option.map_eq_some_iff.mp h
  obtain ⟨hS, rfl⟩ := Prod.mk.inj heq
  dsimp only at hS
  have hne1 : x.tail ≠ [] := by
    intro hnil
    rw [hnil, List.nil_append] at hloop
    have hlt := (classLoop_shorter hloop).lt
    rw [List.length_append] at hlt
    split at hlt
    · rw [List.length_tail] at hlt
      omega
    · omega
  have hhead : (x.tail ++ r).head? = x.tail.head? := by
    cases htail : x.tail with
    | nil => exact absurd htail hne1
    | cons c t => rfl
  rw [hhead] at hloop hS
  rw [classSpan]
  split at hloop
  · rename_i hneg
    rw [tail_append hne1] at hloop
    rw [if_pos hneg] at hS ⊢
    rw [classLoop_cut hloop (Nat.lt_succ_self _), ← hS, Option.map_some, if_pos hneg]
  · rename_i hneg
    rw [if_neg hneg] at hS ⊢
    rw [classLoop_cut hloop (Nat.lt_succ_self _), ← hS, Option.map_some, if_neg hneg]

/-! ## Characters -/

section Bytes

variable {r : List UInt8} (hr : Stop r)

include hr

theorem u8Tail_cut : ∀ (n v : Nat) (x : List UInt8), u8Tail n v (x ++ r) = u8Tail n v x
  | 0, _, _ => by rw [u8Tail, u8Tail]
  | n + 1, v, [] => by
      rw [List.nil_append, u8Tail]
      cases r with
      | nil => rfl
      | cons c r =>
          have hc : c &&& 0xc0 ≠ 0x80 := hr.not_continuation
          rw [u8Tail, if_neg hc]
  | n + 1, v, c :: x => by
      rw [List.cons_append, u8Tail, u8Tail, u8Tail_cut n _ x]

theorem u8Decode_cut {x : List UInt8} (hne : x ≠ []) : u8Decode (x ++ r) = u8Decode x := by
  cases x with
  | nil => exact absurd rfl hne
  | cons c x =>
      rw [List.cons_append, u8Decode, u8Decode, u8Tail_cut hr, u8Tail_cut hr, u8Tail_cut hr]

theorem foldClass_cut {icase : Bool} {x : List UInt8} {left : Nat} (hne : x ≠ []) :
    foldClass? icase (x ++ r) left = foldClass? icase x left := by
  rw [foldClass?, foldClass?, headD_append hne, u8Decode_cut hr hne]

theorem literalSet_cut {icase : Bool} {x : List UInt8} {left : Nat} {byte : UInt8} (hne : x ≠ []) :
    literalSet icase (x ++ r) left byte = literalSet icase x left byte := by
  rw [literalSet, literalSet, headD_append hne, u8Decode_cut hr hne]

/-! ## Braces -/

theorem readNumber_cut : ∀ (x : List UInt8) (v : Nat),
    readNumber (x ++ r) v = ((readNumber x v).1, (readNumber x v).2 ++ r)
  | [], v => by
      rw [List.nil_append, readNumber]
      cases r with
      | nil => rfl
      | cons c r =>
          have hc : isDigit c = false := hr.not_digit
          rw [readNumber, hc, if_neg Bool.false_ne_true]
          rfl
  | c :: x, v => by
      rw [List.cons_append, readNumber, readNumber]
      split
      · exact readNumber_cut x _
      · rfl

/-- A byte other than the ends of a branch stands at the cursor of the
whole text when it stands at the cursor of the cut text. -/
theorem headD_cut {x : List UInt8} {c : UInt8} (hc : concatGoes c = true) :
    (x ++ r).headD 0 = c ↔ x.headD 0 = c := by
  cases x with
  | nil =>
      have h0 : ([] : List UInt8).headD 0 ≠ c := by
        rintro rfl
        exact absurd hc (by decide)
      exact ⟨fun h => absurd h (hr.ne hc), fun h => absurd h h0⟩
  | cons d x => rfl

theorem headD_digit_cut (x : List UInt8) : isDigit ((x ++ r).headD 0) = isDigit (x.headD 0) := by
  cases x with
  | nil =>
      rw [List.nil_append, hr.not_digit]
      rfl
  | cons d x => rfl

theorem readBounds_cut (x : List UInt8) :
    readBounds (x ++ r) = { readBounds x with rest := (readBounds x).rest ++ r } := by
  rw [readBounds, readBounds, readNumber_cut hr, headD_digit_cut hr]
  generalize readNumber x 0 = e
  obtain ⟨lo, x₁⟩ := e
  dsimp only
  by_cases hcomma : x₁.headD 0 = Ch.comma
  · have hne : x₁ ≠ [] := by
      rintro rfl
      exact absurd hcomma (by decide)
    rw [if_pos hcomma, if_pos ((headD_cut hr (by decide)).mpr hcomma), tail_append hne,
      headD_digit_cut hr]
    split
    · rw [readNumber_cut hr]
    · rfl
  · rw [if_neg hcomma, if_neg fun h => hcomma ((headD_cut hr (by decide)).mp h)]

theorem beq_headD_cut (x : List UInt8) {c : UInt8} (hc : concatGoes c = true) :
    ((x ++ r).headD 0 == c) = (x.headD 0 == c) := by
  rw [Bool.eq_iff_iff, beq_iff_eq, beq_iff_eq, headD_cut hr hc]

theorem quantAhead_cut (x : List UInt8) : quantAhead (x ++ r) = quantAhead x := by
  by_cases hne : x = []
  · subst hne
    rw [List.nil_append]
    have hbyte : ∀ c, concatGoes c = true → (r.headD 0 == c) = false :=
      fun c hc => beq_false_of_ne (hr.ne hc)
    rw [quantAhead]
    rw [hbyte Ch.star (by decide), hbyte Ch.plus (by decide), hbyte Ch.quest (by decide),
      hbyte Ch.lbrace (by decide)]
    rfl
  · rw [quantAhead, quantAhead]
    rw [headD_append hne, tail_append hne, readBounds_cut hr, beq_headD_cut hr _ (by decide)]

end Bytes

/-! ## The cursor of the cut text -/

/-- The cursor `s` of a whole text and the cursor `s₂` of the text cut off
in front of `r`. The pending byte matters while a character is open. -/
structure Cut (r : List UInt8) (s s₂ : PPos) : Prop where
  text : s.p = s₂.p ++ r
  left : s.foldLeft = s₂.foldLeft
  byte : s.foldLeft ≠ 0 → s.foldByte = s₂.foldByte

/-- What `f` reads in front of `r`, `f'` reads from the cut text of fewer
than `n` bytes. -/
def Sim (r : List UInt8) (n : Nat) (f f' : PPos → Option (Re × PPos)) : Prop :=
  ∀ s s₂ t s', s₂.p.length < n → Cut r s s₂ → f s = some (t, s') → r <:+ s'.p →
    ∃ s₂', f' s₂ = some (t, s₂') ∧ Cut r s' s₂'

section Sim

variable {r : List UInt8} {icase : Bool} {n : Nat} {s s₂ s' : PPos} {t : Re}
  {alt alt' : PPos → Option (Re × PPos)}

theorem Cut.at_suffix (h : Cut r s s₂) {z : List UInt8} (hz : s.p = z ++ r) : s₂.p = z :=
  List.append_cancel_right (h.text.symm.trans hz)

theorem Cut.move (h : Cut r s s₂) (z : List UInt8) :
    Cut r { s with p := z ++ r } { s₂ with p := z } := ⟨rfl, h.left, h.byte⟩

/-- The cut text is not used up while something in front of `r` is read. -/
theorem Cut.ne_nil (h : Cut r s s₂) {a : List UInt8} (ha : Shorter a s.p) (hr : r <:+ a) :
    s₂.p ≠ [] := by
  intro hnil
  have hlen := congrArg List.length h.text
  rw [hnil, List.nil_append] at hlen
  have hlt := ha.lt
  have hle := hr.length_le
  omega

theorem Cut.cur_eq (h : Cut r s s₂) (hne : s₂.p ≠ []) : s.cur = s₂.cur := by
  rw [PPos.cur, h.text, headD_append hne]
  rfl

theorem Cut.adv (h : Cut r s s₂) (hne : s₂.p ≠ []) : Cut r s.adv s₂.adv := by
  refine ⟨?_, h.left, h.byte⟩
  show s.p.tail = s₂.p.tail ++ r
  rw [h.text, tail_append hne]

theorem Cut.cur_iff (hr : Stop r) (h : Cut r s s₂) {c : UInt8} (hc : concatGoes c = true) :
    s.cur = c ↔ s₂.cur = c := by
  rw [PPos.cur, h.text]
  exact headD_cut hr hc

theorem Cut.goes (hr : Stop r) (h : Cut r s s₂) : concatGoes s.cur = concatGoes s₂.cur := by
  by_cases hne : s₂.p = []
  · have hcur : s₂.cur = 0 := by rw [PPos.cur, hne]; rfl
    rw [PPos.cur, h.text, hne, List.nil_append, hr.not_goes, hcur]
    rfl
  · rw [h.cur_eq hne]

/-! ## Atoms -/

theorem Cut.literal (hr : Stop r) (h : Cut r s s₂) (hne : s₂.p ≠ []) (k : UInt8 → Leaf) :
    (pLiteral icase k s).1 = (pLiteral icase k s₂).1
      ∧ Cut r (pLiteral icase k s).2 (pLiteral icase k s₂).2 := by
  have htail : s.p.tail = s₂.p.tail ++ r := by rw [h.text, tail_append hne]
  have hset : literalSet icase s.p s.foldLeft s.foldByte
      = literalSet icase s₂.p s₂.foldLeft s.foldByte := by
    rw [h.text, literalSet_cut hr hne, h.left]
  rw [pLiteral, pLiteral, hset, h.cur_eq hne]
  by_cases hleft : s.foldLeft = 0
  · -- nothing pending: the stale byte is handed on unread
    have h0 : s₂.foldLeft = 0 := h.left.symm.trans hleft
    rw [h0]
    rw [literalSet, literalSet]
    dsimp only
    split
    · rw [if_neg (lt_irrefl _), if_neg (lt_irrefl _)]
      split
      · split
        · split
          · exact ⟨rfl, htail, rfl, fun _ => rfl⟩
          · exact ⟨rfl, htail, rfl, fun h => absurd rfl h⟩
        · exact ⟨rfl, htail, rfl, fun h => absurd rfl h⟩
      · exact ⟨rfl, htail, rfl, fun h => absurd rfl h⟩
    · exact ⟨rfl, htail, rfl, fun h => absurd rfl h⟩
  · rw [h.byte hleft]
    exact ⟨rfl, htail, rfl, fun _ => rfl⟩

theorem Cut.posAtom (hr : Stop r) (h : Cut r s s₂) (hne : s₂.p ≠ [])
    (hs : pPosAtom icase s = some (t, s')) (hr' : r <:+ s'.p) :
    ∃ s₂', pPosAtom icase s₂ = some (t, s₂') ∧ Cut r s' s₂' := by
  have hcur := h.cur_eq hne
  rw [pPosAtom] at hs ⊢
  rw [hcur] at hs
  split at hs
  · rename_i hdot
    obtain ⟨rfl, rfl⟩ := Prod.mk.inj (Option.some.inj hs)
    rw [if_pos hdot]
    exact ⟨_, rfl, h.adv hne⟩
  rename_i hdot
  rw [if_neg hdot]
  split at hs
  · rename_i hclass
    rw [if_pos hclass]
    obtain ⟨⟨S, a⟩, hspan, heq⟩ := Option.map_eq_some_iff.mp hs
    obtain ⟨rfl, rfl⟩ := Prod.mk.inj heq
    obtain ⟨z, rfl⟩ := hr'
    rw [h.text] at hspan
    rw [classSpan_cut hspan]
    exact ⟨_, rfl, h.move z⟩
  rename_i hclass
  rw [if_neg hclass]
  by_cases hesc : s₂.cur = Ch.backslash ∧ s.adv.cur ≠ 0
  · rw [if_pos hesc] at hs
    have hadv := h.adv hne
    have hne' : s₂.adv.p ≠ [] := by
      -- otherwise the escape reads the first byte of the cut text
      have hshort : Shorter s'.p s.adv.p := by
        have htail := shorter_tail (cur_ne_zero_iff hesc.2)
        split at hs
        · obtain ⟨-, rfl⟩ := Prod.mk.inj (Option.some.inj hs)
          exact htail
        · obtain ⟨-, rfl⟩ := Prod.mk.inj (Option.some.inj hs)
          exact htail
      exact hadv.ne_nil hshort hr'
    rw [hadv.cur_eq hne'] at hs hesc
    rw [if_pos hesc]
    split at hs
    · rename_i S hS
      obtain ⟨rfl, rfl⟩ := Prod.mk.inj (Option.some.inj hs)
      exact ⟨_, rfl, hadv.adv hne'⟩
    · rename_i hS
      have hlit : pLiteral icase .esc s.adv = (t, s') := Option.some.inj hs
      obtain ⟨h1, h2⟩ : (pLiteral icase .esc s.adv).1 = (pLiteral icase .esc s₂.adv).1
          ∧ Cut r (pLiteral icase .esc s.adv).2 (pLiteral icase .esc s₂.adv).2 :=
        hadv.literal hr hne' Leaf.esc
      rw [hlit] at h1 h2
      exact ⟨(pLiteral icase .esc s₂.adv).2, congrArg some (Prod.ext h1.symm rfl), h2⟩
  · rw [if_neg hesc] at hs
    have hesc' : ¬(s₂.cur = Ch.backslash ∧ s₂.adv.cur ≠ 0) := by
      rintro ⟨hb, h0⟩
      exact hesc ⟨hb, by rwa [(h.adv hne).cur_eq (cur_ne_zero_iff h0)]⟩
    rw [if_neg hesc']
    have hlit : pLiteral icase .lit s = (t, s') := Option.some.inj hs
    obtain ⟨h1, h2⟩ : (pLiteral icase .lit s).1 = (pLiteral icase .lit s₂).1
        ∧ Cut r (pLiteral icase .lit s).2 (pLiteral icase .lit s₂).2 :=
      h.literal hr hne Leaf.lit
    rw [hlit] at h1 h2
    exact ⟨(pLiteral icase .lit s₂).2, congrArg some (Prod.ext h1.symm rfl), h2⟩

theorem Cut.atom (hr : Stop r) (halt : LeavesSuffix alt) (hsim : Sim r n alt alt')
    (hn : s₂.p.length < n + 1) (h : Cut r s s₂) (hgo : concatGoes s.cur = true)
    (hs : pAtom icase alt s = some (t, s')) (hr' : r <:+ s'.p) :
    ∃ s₂', pAtom icase alt' s₂ = some (t, s₂') ∧ Cut r s' s₂' := by
  have hne := h.ne_nil (pAtom_shorter halt hs (concatGoes_ne hgo)) hr'
  have hcur := h.cur_eq hne
  rw [pAtom] at hs ⊢
  rw [hcur] at hs
  split at hs
  · rename_i hparen
    rw [if_pos hparen]
    obtain ⟨⟨u, s₁⟩, hu, hs⟩ := Option.bind_eq_some_iff.mp hs
    dsimp only at hs
    split at hs
    · rename_i hclose
      obtain ⟨rfl, rfl⟩ := Prod.mk.inj (Option.some.inj hs)
      have hlt : s₂.adv.p.length < n := by
        have := (shorter_tail hne).lt
        show s₂.p.tail.length < n
        omega
      obtain ⟨s₂', hu', h'⟩ := hsim _ _ _ _ hlt (h.adv hne) hu (hr'.trans (List.tail_suffix _))
      have hne' : s₂'.p ≠ [] :=
        h'.ne_nil (shorter_tail (cur_ne_zero_iff (by rw [hclose]; decide))) hr'
      refine ⟨s₂'.adv, ?_, h'.adv hne'⟩
      rw [hu', Option.bind_some, ← h'.cur_eq hne', if_pos hclose]
    · exact absurd hs (by simp)
  · rename_i hparen
    rw [if_neg hparen]
    have hcls : foldClass? icase s.p s.foldLeft = foldClass? icase s₂.p s₂.foldLeft := by
      rw [h.text, foldClass_cut hr hne, h.left]
    rw [hcls] at hs
    split at hs
    · rename_i k ms hk
      obtain ⟨rfl, rfl⟩ := Prod.mk.inj (Option.some.inj hs)
      obtain ⟨-, -, -, cp, hcp⟩ := foldClass_decode hk
      have hle : k ≤ s₂.p.length := (u8Decode_bytes hcp).2.1
      refine ⟨{ s₂ with p := s₂.p.drop k }, ?_, ?_⟩
      · rw [h.text, foldBranches, foldBranches, List.take_append_of_le_length hle]
      · refine ⟨?_, h.left, h.byte⟩
        show s.p.drop k = s₂.p.drop k ++ r
        rw [h.text, List.drop_append_of_le_length hle]
    · exact h.posAtom hr hne hs hr'

/-! ## Items and branches -/

theorem Cut.mark (hr : Stop r) (h : Cut r s s₂) (a : Re) :
    (markStacked a s).1 = (markStacked a s₂).1 := by
  rw [markStacked, markStacked, h.text, quantAhead_cut hr]

theorem Cut.brace (hr : Stop r) (h : Cut r s s₂) {a : Re} (hcur : s.cur = Ch.lbrace)
    (hs : pBrace a s = some (t, s')) :
    ∃ s₂', pBrace a s₂ = some (t, s₂') ∧ Cut r s' s₂' := by
  have hne : s₂.p ≠ [] :=
    cur_ne_zero_iff (by rw [(h.cur_iff hr (by decide)).mp hcur]; decide)
  have hadv : s.adv.p = s₂.adv.p ++ r := (h.adv hne).text
  rw [pBrace, hadv, readBounds_cut hr] at hs
  rw [pBrace]
  split at hs
  · exact absurd hs (by simp)
  rename_i hone
  rw [if_neg hone]
  dsimp only at hs ⊢
  cases hhi : (readBounds s₂.adv.p).hi with
  | none =>
      rw [hhi] at hs
      exact absurd hs (by simp)
  | some hi =>
      rw [hhi] at hs
      dsimp only at hs ⊢
      have hbne : (((readBounds s₂.adv.p).rest ++ r).headD 0 != Ch.rbrace)
          = ((readBounds s₂.adv.p).rest.headD 0 != Ch.rbrace) := by
        rw [bne, bne, beq_headD_cut hr _ (by decide)]
      rw [hbne] at hs
      split at hs
      · exact absurd hs (by simp)
      rename_i hbad
      rw [if_neg hbad]
      have hclose : (readBounds s₂.adv.p).rest ≠ [] := by
        intro hnil
        have hend : (([] : List UInt8).headD 0 != Ch.rbrace) = true := by decide
        rw [hnil, hend, Bool.or_true, Bool.true_or] at hbad
        exact hbad rfl
      have hcut : Cut r { s with p := ((readBounds s₂.adv.p).rest ++ r).tail }
          { s₂ with p := (readBounds s₂.adv.p).rest.tail } := by
        rw [tail_append hclose]
        exact h.move _
      obtain ⟨rfl, -⟩ := markStacked_pos hs
      refine ⟨_, ?_, hcut⟩
      have ht : (markStacked (.rep (readBounds s₂.adv.p).lo hi a)
          { s with p := ((readBounds s₂.adv.p).rest ++ r).tail }).1 = t :=
        congrArg Prod.fst (Option.some.inj hs)
      rw [← ht, hcut.mark hr]
      rfl

theorem Cut.repeat (hr : Stop r) (halt : LeavesSuffix alt) (hsim : Sim r n alt alt')
    (hn : s₂.p.length < n + 1) (h : Cut r s s₂) (hgo : concatGoes s.cur = true)
    (hs : pRepeat icase alt s = some (t, s')) (hr' : r <:+ s'.p) :
    ∃ s₂', pRepeat icase alt' s₂ = some (t, s₂') ∧ Cut r s' s₂' := by
  rw [pRepeat] at hs
  obtain ⟨⟨a, s₁⟩, ha, hs⟩ := Option.bind_eq_some_iff.mp hs
  dsimp only at hs
  -- behind the atom: one byte of quantifier, or none
  have hquant : ∀ b, some (markStacked b s₁.adv) = some (t, s') → s₁.p ≠ [] →
      ∃ s₂₁, pAtom icase alt' s₂ = some (a, s₂₁) ∧ s₁.cur = s₂₁.cur
        ∧ some (markStacked b s₂₁.adv) = some (t, s₂₁.adv) ∧ Cut r s' s₂₁.adv := by
    intro b hb hne
    obtain ⟨rfl, -⟩ := markStacked_pos hb
    obtain ⟨s₂₁, ha', h'⟩ := h.atom hr halt hsim hn hgo ha (hr'.trans (List.tail_suffix _))
    have hne' := h'.ne_nil (shorter_tail hne) hr'
    have hadv := h'.adv hne'
    refine ⟨s₂₁, ha', h'.cur_eq hne', ?_, hadv⟩
    have ht : (markStacked b s₁.adv).1 = t := congrArg Prod.fst (Option.some.inj hb)
    rw [← ht, hadv.mark hr]
    rfl
  rw [pRepeat]
  split at hs
  · rename_i hstar
    obtain ⟨s₂₁, ha', hcur, hb, h'⟩ :=
      hquant _ hs (cur_ne_zero_iff (by rw [hstar]; decide))
    refine ⟨_, ?_, h'⟩
    rw [ha', Option.bind_some, ← hcur, if_pos hstar, hb]
  rename_i hstar
  split at hs
  · rename_i hplus
    obtain ⟨s₂₁, ha', hcur, hb, h'⟩ :=
      hquant _ hs (cur_ne_zero_iff (by rw [hplus]; decide))
    refine ⟨_, ?_, h'⟩
    rw [ha', Option.bind_some, ← hcur, if_neg hstar, if_pos hplus, hb]
  rename_i hplus
  split at hs
  · rename_i hquest
    obtain ⟨s₂₁, ha', hcur, hb, h'⟩ :=
      hquant _ hs (cur_ne_zero_iff (by rw [hquest]; decide))
    refine ⟨_, ?_, h'⟩
    rw [ha', Option.bind_some, ← hcur, if_neg hstar, if_neg hplus, if_pos hquest, hb]
  rename_i hquest
  split at hs
  · rename_i hbrace
    have hrest : r <:+ s₁.p := by
      obtain ⟨-, hi, -, -, -, -, rfl, -⟩ := pBrace_some hs
      exact hr'.trans
        (((List.tail_suffix _).trans (readBounds_suffix _)).trans (List.tail_suffix _))
    obtain ⟨s₂₁, ha', h'⟩ := h.atom hr halt hsim hn hgo ha hrest
    obtain ⟨s₂', hb, hcut⟩ := h'.brace hr hbrace hs
    have hcur := h'.cur_iff hr (c := Ch.lbrace) (by decide)
    refine ⟨s₂', ?_, hcut⟩
    have hbrace' := hcur.mp hbrace
    rw [ha', Option.bind_some, hbrace', if_neg (by decide), if_neg (by decide),
      if_neg (by decide), if_pos rfl, hb]
  · rename_i hbrace
    obtain ⟨rfl, rfl⟩ := Prod.mk.inj (Option.some.inj hs)
    obtain ⟨s₂₁, ha', h'⟩ := h.atom hr halt hsim hn hgo ha hr'
    have hbyte : ∀ c, concatGoes c = true → s₁.cur ≠ c → s₂₁.cur ≠ c :=
      fun c hc hne heq => hne ((h'.cur_iff hr hc).mpr heq)
    refine ⟨s₂₁, ?_, h'⟩
    rw [ha', Option.bind_some, if_neg (hbyte _ (by decide) hstar),
      if_neg (hbyte _ (by decide) hplus), if_neg (hbyte _ (by decide) hquest),
      if_neg (hbyte _ (by decide) hbrace)]

theorem Items.stops {bs : List Re} (hs : Items icase alt s bs s') : concatGoes s'.cur = false := by
  induction hs with
  | done h => exact h
  | item hgo hb hbs ih => exact ih

theorem Items.cut (hr : Stop r) (halt : LeavesSuffix alt) (hsim : Sim r n alt alt')
    {bs : List Re} (hs : Items icase alt s bs s') :
    ∀ {s₂ : PPos}, s₂.p.length < n + 1 → Cut r s s₂ → r <:+ s'.p →
      ∃ s₂', Items icase alt' s₂ bs s₂' ∧ Cut r s' s₂' := by
  induction hs with
  | done hstop =>
      intro s₂ hn h hr'
      exact ⟨s₂, .done ((h.goes hr).symm.trans hstop), h⟩
  | @item s s₁ s' b bs hgo hb hbs ih =>
      intro s₂ hn h hr'
      obtain ⟨s₂₁, hb', h₁⟩ := h.repeat hr halt hsim hn hgo hb (hr'.trans (hbs.suffix halt))
      have hlt : s₂₁.p.length < n + 1 := by
        have hshort := (pRepeat_shorter halt hb (concatGoes_ne hgo)).lt
        rw [h.text, h₁.text, List.length_append, List.length_append] at hshort
        omega
      obtain ⟨s₂', hbs', h'⟩ := ih hlt h₁ hr'
      exact ⟨s₂', .item ((h.goes hr).symm.trans hgo) hb' hbs', h'⟩

theorem Cut.concat (hr : Stop r) (halt : LeavesSuffix alt) (halt' : LeavesSuffix alt')
    (hsim : Sim r n alt alt') (hn : s₂.p.length < n + 1) (h : Cut r s s₂)
    (hs : pConcat icase alt s = some (t, s')) (hr' : r <:+ s'.p) :
    ∃ s₂', pConcat icase alt' s₂ = some (t, s₂') ∧ Cut r s' s₂' := by
  obtain ⟨bs, hbs, rfl⟩ := (pConcat_iff halt).mp hs
  obtain ⟨s₂', hbs', h'⟩ := hbs.cut hr halt hsim hn h hr'
  exact ⟨s₂', (pConcat_iff halt').mpr ⟨bs, hbs', rfl⟩, h'⟩

theorem Branches.cut (hr : Stop r) (halt : LeavesSuffix alt) (halt' : LeavesSuffix alt')
    (hsim : Sim r n alt alt') {bs : List Re} (hs : Branches icase alt s bs s') :
    ∀ {s₂ : PPos}, s₂.p.length < n + 1 → Cut r s s₂ → r <:+ s'.p →
      ∃ s₂', Branches icase alt' s₂ bs s₂' ∧ Cut r s' s₂' := by
  induction hs with
  | @done s hbar =>
      intro s₂ hn h hr'
      refine ⟨s₂, .done fun hbar' => hbar ?_, h⟩
      rwa [h.cur_eq (bar_ne hbar')]
  | @branch s s₁ s' b bs hbar hb hbs ih =>
      intro s₂ hn h hr'
      have hr₁ : r <:+ s₁.p := hr'.trans (hbs.suffix halt)
      have hne : s₂.p ≠ [] :=
        h.ne_nil (Shorter.of_suffix (pConcat_suffix halt hb) (shorter_tail (bar_ne hbar))) hr₁
      have hlt : s₂.adv.p.length < n := by
        have := (shorter_tail hne).lt
        show s₂.p.tail.length < n
        omega
      obtain ⟨s₂₁, hb', h₁⟩ :=
        (h.adv hne).concat hr halt halt' hsim (Nat.lt_succ_of_lt hlt) hb hr₁
      have hlt₁ : s₂₁.p.length < n + 1 :=
        Nat.lt_of_le_of_lt (pConcat_suffix halt' hb').length_le (Nat.lt_succ_of_lt hlt)
      obtain ⟨s₂', hbs', h'⟩ := ih hlt₁ h₁ hr'
      exact ⟨s₂', .branch ((h.cur_eq hne).symm.trans hbar) hb' hbs', h'⟩

/-- **Alternations at any depth** read the same from the cut text; the
depth given to the cut text need not be the one the whole text needs. -/
theorem pAlt_sim (hr : Stop r) : ∀ (d n : Nat), Sim r n (pAlt icase d) (pAlt icase n)
  | 0, _, _, _, _, _, _, _, h, _ => absurd h (by simp [pAlt])
  | _ + 1, 0, _, _, _, _, hn, _, _, _ => absurd hn (Nat.not_lt_zero _)
  | d + 1, n + 1, s, s₂, t, s', hn, h, hs, hr' => by
      have halt := pAlt_suffix icase d
      have halt' := pAlt_suffix icase n
      have hsim := pAlt_sim hr d n
      obtain ⟨b, s₁, bs, hb, hbs, rfl⟩ := (pAltWith_iff halt).mp hs
      obtain ⟨s₂₁, hb', h₁⟩ := h.concat hr halt halt' hsim hn hb (hr'.trans (hbs.suffix halt))
      have hlt₁ : s₂₁.p.length < n + 1 :=
        Nat.lt_of_le_of_lt (pConcat_suffix halt' hb').length_le hn
      obtain ⟨s₂', hbs', h'⟩ := hbs.cut hr halt halt' hsim hlt₁ h₁ hr'
      exact ⟨s₂', (pAltWith_iff halt').mpr ⟨b, s₂₁, bs, hb', hbs', rfl⟩, h'⟩

end Sim

/-! ## Open characters -/

/-- The bytes of a character that is still open stand right behind the
cursor; without folding none is. -/
structure Pend (icase : Bool) (s : PPos) : Prop where
  folds : icase = false → s.foldLeft = 0
  le : s.foldLeft ≤ s.p.length
  bytes : ∀ c ∈ s.p.take s.foldLeft, c &&& 0xc0 = 0x80

section Pend

variable {icase : Bool} {s s' : PPos} {t : Re} {alt : PPos → Option (Re × PPos)}

theorem Pend.closed (h : Pend icase s) (hc : s.cur &&& 0xc0 ≠ 0x80) : s.foldLeft = 0 := by
  cases hp : s.p with
  | nil =>
      have hle := h.le
      rw [hp, List.length_nil] at hle
      omega
  | cons c rest =>
      by_contra hne
      obtain ⟨m, hm⟩ := Nat.exists_eq_succ_of_ne_zero hne
      have hbytes := h.bytes
      rw [hp, hm, List.take_succ_cons] at hbytes
      have hcur : s.cur = c := by rw [PPos.cur, hp]; rfl
      exact hc (hcur ▸ hbytes c List.mem_cons_self)

theorem pend_closed {q : List UInt8} (h : s.foldLeft = 0) : Pend icase { s with p := q } where
  folds _ := h
  le := h ▸ Nat.zero_le _
  bytes c hc := absurd hc (by simp [h])

theorem Pend.literal (h : Pend icase s) (k : UInt8 → Leaf) : Pend icase (pLiteral icase k s).2 := by
  have hrest : 0 < s.foldLeft → s.foldLeft - 1 ≤ s.p.tail.length
      ∧ ∀ c ∈ s.p.tail.take (s.foldLeft - 1), c &&& 0xc0 = 0x80 := by
    intro hpos
    obtain ⟨m, hm⟩ := Nat.exists_eq_succ_of_ne_zero hpos.ne'
    have hle := h.le
    have hbytes := h.bytes
    cases hp : s.p with
    | nil =>
        rw [hp, List.length_nil] at hle
        omega
    | cons c rest =>
        rw [hp, hm, List.length_cons] at hle
        rw [hp, hm, List.take_succ_cons] at hbytes
        rw [hm]
        exact ⟨Nat.le_of_succ_le_succ hle, fun d hd => hbytes d (List.mem_cons_of_mem _ hd)⟩
  have hnone : ∀ left byte, left = 0 → Pend icase ⟨s.p.tail, left, byte⟩ :=
    fun left byte h0 => pend_closed (s := ⟨s.p, left, byte⟩) h0
  rw [pLiteral, literalSet]
  dsimp only
  split
  · rename_i hic
    split
    · rename_i hpos
      split
      · exact hnone _ _ rfl
      · exact ⟨fun hf => absurd (hic.symm.trans hf) (by simp), (hrest hpos).1, (hrest hpos).2⟩
    · rename_i hpos
      have h0 : s.foldLeft = 0 := Nat.eq_zero_of_not_pos hpos
      split
      · split
        · rename_i n cp hcp
          split
          · -- a character opens: its other bytes follow
            obtain ⟨hn, hle, hcont⟩ := u8Decode_bytes hcp
            refine ⟨fun hf => absurd (hic.symm.trans hf) (by simp), ?_, fun c hc => hcont c ?_⟩
            · show n - 1 ≤ s.p.tail.length
              rw [List.length_tail]
              omega
            · obtain ⟨m, rfl⟩ := Nat.exists_eq_succ_of_ne_zero (Nat.ne_of_gt hn)
              cases hp : s.p with
              | nil =>
                  rw [hp] at hc
                  exact absurd hc (by simp)
              | cons d rest =>
                  rw [hp] at hc
                  exact hc
          · exact hnone _ _ h0
        · exact hnone _ _ h0
      · exact hnone _ _ h0
  · rename_i hic
    exact hnone _ _ (h.folds (Bool.eq_false_iff.mpr hic))

theorem Pend.posAtom (h : Pend icase s) (hs : pPosAtom icase s = some (t, s')) : Pend icase s' := by
  rw [pPosAtom] at hs
  split at hs
  · rename_i hdot
    obtain ⟨-, rfl⟩ := Prod.mk.inj (Option.some.inj hs)
    exact pend_closed (h.closed (by rw [hdot]; decide))
  split at hs
  · rename_i hclass
    obtain ⟨r, -, heq⟩ := Option.map_eq_some_iff.mp hs
    obtain ⟨-, rfl⟩ := Prod.mk.inj heq
    exact pend_closed (h.closed (by rw [hclass]; decide))
  split at hs
  · rename_i hesc
    have hadv : s.adv.foldLeft = 0 := h.closed (by rw [hesc.1]; decide)
    split at hs
    · obtain ⟨-, rfl⟩ := Prod.mk.inj (Option.some.inj hs)
      exact pend_closed hadv
    · have hlit : pLiteral icase .esc s.adv = (t, s') := Option.some.inj hs
      have hpend : Pend icase (pLiteral icase .esc s.adv).2 :=
        (pend_closed (s := s) hadv : Pend icase s.adv).literal Leaf.esc
      rwa [hlit] at hpend
  · have hlit : pLiteral icase .lit s = (t, s') := Option.some.inj hs
    have hpend : Pend icase (pLiteral icase .lit s).2 := h.literal Leaf.lit
    rwa [hlit] at hpend

/-- A parser that keeps track of open characters. -/
def KeepsPend (icase : Bool) (alt : PPos → Option (Re × PPos)) : Prop :=
  ∀ s t s', alt s = some (t, s') → Pend icase s → Pend icase s'

theorem Pend.atom (halt : KeepsPend icase alt) (h : Pend icase s)
    (hs : pAtom icase alt s = some (t, s')) : Pend icase s' := by
  rw [pAtom] at hs
  split at hs
  · rename_i hparen
    obtain ⟨⟨u, s₁⟩, hu, hs⟩ := Option.bind_eq_some_iff.mp hs
    have hadv : Pend icase s.adv := pend_closed (h.closed (by rw [hparen]; decide))
    have h₁ := halt _ _ _ hu hadv
    dsimp only at hs
    split at hs
    · rename_i hclose
      obtain ⟨-, rfl⟩ := Prod.mk.inj (Option.some.inj hs)
      exact pend_closed (h₁.closed (by rw [hclose]; decide))
    · exact absurd hs (by simp)
  · split at hs
    · rename_i hk
      obtain ⟨-, rfl⟩ := Prod.mk.inj (Option.some.inj hs)
      exact pend_closed (foldClass_decode hk).1
    · exact h.posAtom hs

theorem Pend.repeat (halt : KeepsPend icase alt) (h : Pend icase s)
    (hs : pRepeat icase alt s = some (t, s')) : Pend icase s' := by
  obtain ⟨a, s₁, ha, hq⟩ := pRepeat_quant hs
  have h₁ := h.atom halt ha
  cases hq with
  | none => exact h₁
  | star hc => exact pend_closed (h₁.closed (by rw [hc]; decide))
  | plus hc => exact pend_closed (h₁.closed (by rw [hc]; decide))
  | quest hc => exact pend_closed (h₁.closed (by rw [hc]; decide))
  | brace hc => exact pend_closed (h₁.closed (by rw [hc]; decide))

theorem Items.pend (halt : KeepsPend icase alt) {bs : List Re} (hs : Items icase alt s bs s') :
    Pend icase s → Pend icase s' := by
  induction hs with
  | done => exact id
  | item hgo hb hbs ih => exact fun h => ih (h.repeat halt hb)

theorem Pend.concat (hsuf : LeavesSuffix alt) (halt : KeepsPend icase alt) (h : Pend icase s)
    (hs : pConcat icase alt s = some (t, s')) : Pend icase s' := by
  obtain ⟨bs, hbs, -⟩ := (pConcat_iff hsuf).mp hs
  exact hbs.pend halt h

theorem Branches.pend (hsuf : LeavesSuffix alt) (halt : KeepsPend icase alt) {bs : List Re}
    (hs : Branches icase alt s bs s') : Pend icase s → Pend icase s' := by
  induction hs with
  | done => exact id
  | @branch s s₁ s' b bs hbar hb hbs ih =>
      intro h
      have hadv : Pend icase s.adv := pend_closed (h.closed (by rw [hbar]; decide))
      exact ih (hadv.concat hsuf halt hb)

theorem pAlt_pend (icase : Bool) : ∀ d, KeepsPend icase (pAlt icase d)
  | 0, _, _, _, h, _ => absurd h (by simp [pAlt])
  | d + 1, s, t, s', hs, h => by
      have hsuf := pAlt_suffix icase d
      obtain ⟨b, s₁, bs, hb, hbs, -⟩ := (pAltWith_iff hsuf).mp hs
      exact hbs.pend hsuf (pAlt_pend icase d) (h.concat hsuf (pAlt_pend icase d) hb)

end Pend

end Montauk
