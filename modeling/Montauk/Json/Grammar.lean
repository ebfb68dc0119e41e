import Mathlib.Data.List.Basic

/-!
# JSON texts and their values

A reference reader for JSON, and the compact text of a value. Numbers are
integers here: a fraction or an exponent is refused, so a value read back is
the value that was written and not a rounding of it.

The reader is the usual recursive descent over the characters, with white
space allowed between tokens; the fuel bounds the nesting and the number of
members together, and the length of the text is enough of it. The text of a
value is written with a separator that may depend on the nesting depth
(`textAt`), so that a writer which loses its separators somewhere can be
compared with one that does not; with a comma everywhere it is read back as
the value (`parse_text`).
-/

namespace Montauk.Json

inductive Value where
  | null
  | bool (b : Bool)
  | int (i : Int)
  | str (s : List Char)
  | arr (vs : List Value)
  | obj (ms : List (List Char × Value))

/-! ## The text of a value -/

/-- A character inside a string literal. -/
def escapeChar (c : Char) : List Char :=
  if c = '"' then ['\\', '"']
  else if c = '\\' then ['\\', '\\']
  else if c = '\n' then ['\\', 'n']
  else if c = '\t' then ['\\', 't']
  else if c = '\r' then ['\\', 'r']
  else if c = '\x08' then ['\\', 'b']
  else if c = '\x0c' then ['\\', 'f']
  else if c.toNat < 0x20 then
    ['\\', 'u', '0', '0', Nat.digitChar (c.toNat / 16), Nat.digitChar (c.toNat % 16)]
  else [c]

def quoted (s : List Char) : List Char :=
  '"' :: (s.flatMap escapeChar ++ ['"'])

def intText (i : Int) : List Char :=
  if i < 0 then '-' :: Nat.toDigits 10 i.natAbs else Nat.toDigits 10 i.natAbs

mutual

/-- The text of a value found at depth `d`, with `sep d` between the members
of a container at depth `d`. -/
def textAt (sep : Nat → List Char) (d : Nat) : Value → List Char
  | .null => ['n', 'u', 'l', 'l']
  | .bool true => ['t', 'r', 'u', 'e']
  | .bool false => ['f', 'a', 'l', 's', 'e']
  | .int i => intText i
  | .str s => quoted s
  | .arr vs => '[' :: (elemsAt sep d [] vs ++ [']'])
  | .obj ms => '{' :: (membersAt sep d [] ms ++ ['}'])

/-- The elements of an array at depth `d`, `lead` in front of the first. -/
def elemsAt (sep : Nat → List Char) (d : Nat) (lead : List Char) : List Value → List Char
  | [] => []
  | v :: vs => lead ++ (textAt sep (d + 1) v ++ elemsAt sep d (sep d) vs)

def membersAt (sep : Nat → List Char) (d : Nat) (lead : List Char) :
    List (List Char × Value) → List Char
  | [] => []
  | (k, v) :: ms =>
      lead ++ (quoted k ++ (':' :: (textAt sep (d + 1) v ++ membersAt sep d (sep d) ms)))

end

def text (v : Value) : List Char := textAt (fun _ => [',']) 0 v

def utf8 (cs : List Char) : List UInt8 := cs.flatMap String.utf8EncodeChar

@[simp] theorem utf8_nil : utf8 [] = [] := rfl

theorem utf8_cons (c : Char) (cs : List Char) :
    utf8 (c :: cs) = String.utf8EncodeChar c ++ utf8 cs := by
  simp [utf8]

theorem utf8_append (a b : List Char) : utf8 (a ++ b) = utf8 a ++ utf8 b := by
  simp [utf8]

/-! ## The reader -/

def isWs (c : Char) : Bool := c = ' ' || c = '\t' || c = '\n' || c = '\r'

def skipWs (s : List Char) : List Char := s.dropWhile isWs

/-- The word `w`, and what is behind it. -/
def word (w s : List Char) : Option (List Char) :=
  if w.isPrefixOf s then some (s.drop w.length) else none

def hexVal (c : Char) : Option Nat :=
  if '0' ≤ c ∧ c ≤ '9' then some (c.toNat - '0'.toNat)
  else if 'a' ≤ c ∧ c ≤ 'f' then some (c.toNat - 'a'.toNat + 10)
  else if 'A' ≤ c ∧ c ≤ 'F' then some (c.toNat - 'A'.toNat + 10)
  else none

/-- The four digits of a `\u` escape. -/
def hex4 : List Char → Option (Nat × List Char)
  | a :: b :: c :: d :: s => do
      let a ← hexVal a
      let b ← hexVal b
      let c ← hexVal c
      let d ← hexVal d
      some (((a * 16 + b) * 16 + c) * 16 + d, s)
  | _ => none

/-- Behind `\u`: one code unit, or the two of a surrogate pair. -/
def unicode (s : List Char) : Option (Char × List Char) := do
  let (u, s) ← hex4 s
  if u < 0xd800 ∨ 0xdfff < u then some (Char.ofNat u, s)
  else if u < 0xdc00 then
    let s ← word ['\\', 'u'] s
    let (l, s) ← hex4 s
    if 0xdc00 ≤ l ∧ l ≤ 0xdfff then
      some (Char.ofNat (0x10000 + (u - 0xd800) * 0x400 + (l - 0xdc00)), s)
    else none
  else none

def escape : List Char → Option (Char × List Char)
  | [] => none
  | c :: s =>
      if c = 'u' then unicode s
      else if c = '"' ∨ c = '\\' ∨ c = '/' then some (c, s)
      else if c = 'b' then some ('\x08', s)
      else if c = 'f' then some ('\x0c', s)
      else if c = 'n' then some ('\n', s)
      else if c = 'r' then some ('\r', s)
      else if c = 't' then some ('\t', s)
      else none

def strBody : Nat → List Char → Option (List Char × List Char)
  | 0, _ => none
  | _ + 1, [] => none
  | n + 1, c :: s =>
      if c = '"' then some ([], s)
      else if c = '\\' then do
        let (e, s) ← escape s
        let (cs, s) ← strBody n s
        some (e :: cs, s)
      else if c.toNat < 0x20 then none
      else do
        let (cs, s) ← strBody n s
        some (c :: cs, s)

/-- Digits without a leading zero, and no fraction or exponent behind. -/
def natural (s : List Char) : Option (Nat × List Char) :=
  let ds := s.takeWhile Char.isDigit
  let r := s.dropWhile Char.isDigit
  if ds = [] ∨ (ds.head? = some '0' ∧ ds.length ≠ 1) then none
  else if r.head? = some '.' ∨ r.head? = some 'e' ∨ r.head? = some 'E' then none
  else some (Nat.ofDigitChars 10 ds 0, r)

def number : List Char → Option (Int × List Char)
  | [] => none
  | c :: s =>
      if c = '-' then do
        let (n, r) ← natural s
        some (-(n : Int), r)
      else do
        let (n, r) ← natural (c :: s)
        some ((n : Int), r)

/-- Behind the member `x` of a container: a comma and `more` members, or the
bracket `close`. -/
def siblings {α : Type} (close : Char) (more : List Char → Option (List α × List Char)) (x : α)
    (s : List Char) : Option (List α × List Char) :=
  match skipWs s with
  | [] => none
  | c :: r =>
      if c = ',' then do
        let (xs, r) ← more r
        some (x :: xs, r)
      else if c = close then some ([x], r)
      else none

mutual

def value : Nat → List Char → Option (Value × List Char)
  | 0, _ => none
  | n + 1, s =>
      match skipWs s with
      | [] => none
      | c :: r =>
          if c = '[' then
            if (skipWs r).head? = some ']' then some (.arr [], (skipWs r).tail)
            else do
              let (vs, r) ← elems n r
              some (.arr vs, r)
          else if c = '{' then
            if (skipWs r).head? = some '}' then some (.obj [], (skipWs r).tail)
            else do
              let (ms, r) ← members n r
              some (.obj ms, r)
          else if c = '"' then do
            let (cs, r) ← strBody n r
            some (.str cs, r)
          else if c = 'n' then do
            let r ← word ['u', 'l', 'l'] r
            some (.null, r)
          else if c = 't' then do
            let r ← word ['r', 'u', 'e'] r
            some (.bool true, r)
          else if c = 'f' then do
            let r ← word ['a', 'l', 's', 'e'] r
            some (.bool false, r)
          else do
            let (i, r) ← number (c :: r)
            some (.int i, r)

/-- One element or more, and the closing bracket. -/
def elems : Nat → List Char → Option (List Value × List Char)
  | 0, _ => none
  | n + 1, s => do
      let (v, r) ← value n s
      siblings ']' (elems n) v r

/-- One member or more, and the closing brace. -/
def members : Nat → List Char → Option (List (List Char × Value) × List Char)
  | 0, _ => none
  | n + 1, s => do
      let r ← word ['"'] (skipWs s)
      let (k, r) ← strBody n r
      let r ← word [':'] (skipWs r)
      let (v, r) ← value n r
      siblings '}' (members n) (k, v) r

end

/-- One value, and nothing but white space behind it. -/
def whole (s : List Char) : Option Value := do
  let (v, r) ← value (s.length + 1) s
  if skipWs r = [] then some v else none

/-- A JSON text as the bytes of its UTF-8 encoding. -/
def parse (bs : List UInt8) : Option Value := do
  let cs ← bs.toByteArray.utf8Decode?
  whole cs.toList

theorem parse_utf8 (cs : List Char) : parse (utf8 cs) = whole cs := by
  unfold parse
  have h : (utf8 cs).toByteArray.utf8Decode? = some cs.toArray :=
    List.utf8Decode?_utf8Encode
  rw [h]
  rfl

/-! ## Reading back what was written -/

/-- Nothing here continues a number that ends in front of it. -/
def NumEnd (s : List Char) : Prop :=
  ∀ c ∈ s.head?, c.isDigit = false ∧ c ≠ '.' ∧ c ≠ 'e' ∧ c ≠ 'E'

theorem numEnd_nil : NumEnd [] := by
  intro c hc
  simp at hc

theorem numEnd_cons {c : Char} {s : List Char}
    (h : c.isDigit = false ∧ c ≠ '.' ∧ c ≠ 'e' ∧ c ≠ 'E') : NumEnd (c :: s) := by
  intro c' hc
  simp only [List.head?_cons, Option.mem_some_iff] at hc
  subst hc
  exact h

theorem skipWs_cons {c : Char} {s : List Char} (h : isWs c = false) :
    skipWs (c :: s) = c :: s := by
  simp [skipWs, h]

theorem word_append (w s : List Char) : word w (w ++ s) = some s := by
  simp [word]

/-! ### Numbers -/

theorem digit_not_ws {c : Char} (h : c.isDigit = true) : isWs c = false := by
  rw [Char.isDigit_iff_toNat] at h
  simp only [isWs, Bool.or_eq_false_iff, decide_eq_false_iff_not]
  refine ⟨⟨⟨?_, ?_⟩, ?_⟩, ?_⟩ <;> rintro rfl <;> revert h <;> decide

/-- The decimal digits of a number other than zero do not start with `0`. -/
theorem head_toDigits_ne_zero (n : Nat) (h : 0 < n) :
    (Nat.toDigits 10 n).head? ≠ some '0' := by
  induction n using Nat.strongRecOn with
  | _ n ih =>
    by_cases hlt : n < 10
    · rw [Nat.toDigits_of_lt_base hlt]
      have : ∀ k < 10, 0 < k → [Nat.digitChar k].head? ≠ some '0' := by decide
      exact this n hlt h
    · rw [Nat.toDigits_of_base_le (by omega) (by omega)]
      have hq := ih (n / 10) (by omega) (by omega)
      cases hd : Nat.toDigits 10 (n / 10) with
      | nil => exact absurd hd Nat.toDigits_ne_nil
      | cons c cs =>
        rw [hd] at hq
        simpa using hq

theorem takeWhile_digits {ds r : List Char} (hd : ∀ c ∈ ds, c.isDigit = true) (hr : NumEnd r) :
    (ds ++ r).takeWhile Char.isDigit = ds ∧ (ds ++ r).dropWhile Char.isDigit = r := by
  rw [List.takeWhile_append_of_pos hd, List.dropWhile_append_of_pos hd]
  cases r with
  | nil => simp
  | cons c r =>
    have hc := (hr c (by simp)).1
    simp [hc]

theorem natural_toDigits (n : Nat) {r : List Char} (hr : NumEnd r) :
    natural (Nat.toDigits 10 n ++ r) = some (n, r) := by
  have hd : ∀ c ∈ Nat.toDigits 10 n, c.isDigit = true := fun c hc =>
    Nat.isDigit_of_mem_toDigits (by decide) (by decide) hc
  obtain ⟨ht, hdr⟩ := takeWhile_digits hd hr
  unfold natural
  rw [ht, hdr]
  have hz : ¬ (Nat.toDigits 10 n = [] ∨
      ((Nat.toDigits 10 n).head? = some '0' ∧ (Nat.toDigits 10 n).length ≠ 1)) := by
    rintro (h | ⟨h, hl⟩)
    · exact Nat.toDigits_ne_nil h
    · rcases Nat.eq_zero_or_pos n with rfl | hn
      · exact hl (by simp)
      · exact head_toDigits_ne_zero n hn h
  have he : ¬ (r.head? = some '.' ∨ r.head? = some 'e' ∨ r.head? = some 'E') := by
    rintro (h | h | h)
    · exact (hr _ h).2.1 rfl
    · exact (hr _ h).2.2.1 rfl
    · exact (hr _ h).2.2.2 rfl
  simp only [hz, he, if_false, Nat.ofDigitChars_ten_toDigits]

theorem intText_cons (i : Int) :
    ∃ c s, intText i = c :: s ∧ (c.isDigit = true ∨ c = '-') := by
  have hdig : ∀ n : Nat, ∃ c s, Nat.toDigits 10 n = c :: s ∧ c.isDigit = true := by
    intro n
    cases h : Nat.toDigits 10 n with
    | nil => exact absurd h Nat.toDigits_ne_nil
    | cons c s =>
      refine ⟨c, s, rfl, Nat.isDigit_of_mem_toDigits (b := 10) (n := n) (by decide) (by decide) ?_⟩
      rw [h]
      simp
  unfold intText
  split
  · exact ⟨'-', _, rfl, Or.inr rfl⟩
  · obtain ⟨c, s, h, hc⟩ := hdig i.natAbs
    exact ⟨c, s, h, Or.inl hc⟩

theorem number_intText (i : Int) {r : List Char} (hr : NumEnd r) :
    number (intText i ++ r) = some (i, r) := by
  unfold intText
  split
  · rename_i hneg
    simp only [List.cons_append, number, if_true]
    rw [natural_toDigits _ hr]
    simp only [Option.bind_eq_bind, Option.bind_some, Option.some.injEq, Prod.mk.injEq, and_true]
    omega
  · rename_i hneg
    obtain ⟨c, s, hcs, hc⟩ := intText_cons i
    unfold intText at hcs
    rw [if_neg hneg] at hcs
    have hne : c ≠ '-' := by
      rintro rfl
      have hm : '-' ∈ Nat.toDigits 10 i.natAbs := by
        rw [hcs]
        simp
      have := Nat.isDigit_of_mem_toDigits (by decide) (by decide) hm
      exact absurd this (by decide)
    rw [hcs, List.cons_append]
    simp only [number, hne, if_false]
    rw [← List.cons_append, ← hcs, natural_toDigits _ hr]
    simp only [Option.bind_eq_bind, Option.bind_some, Option.some.injEq, Prod.mk.injEq, and_true]
    omega

/-! ### Strings -/

theorem unicode_control (n : Nat) (h : n < 0x20) (s : List Char) :
    unicode ('0' :: '0' :: Nat.digitChar (n / 16) :: Nat.digitChar (n % 16) :: s)
      = some (Char.ofNat n, s) := by
  have hv : ∀ k < 16, hexVal (Nat.digitChar k) = some k := by decide
  have h0 : hexVal '0' = some 0 := by decide
  have hlt : n < 0xd800 := by omega
  simp only [unicode, hex4, h0, hv (n / 16) (by omega), hv (n % 16) (by omega),
    Option.bind_eq_bind, Option.bind_some]
  have hn : ((0 * 16 + 0) * 16 + n / 16) * 16 + n % 16 = n := by omega
  rw [hn, if_pos (Or.inl hlt)]

/-- What the reader finds behind the backslash of an escaped character. -/
theorem strBody_escape {n : Nat} {a c : Char} {e s : List Char}
    (h : escape (a :: (e ++ s)) = some (c, s)) :
    strBody (n + 1) ('\\' :: a :: (e ++ s))
      = (strBody n s).bind fun p => some (c :: p.1, p.2) := by
  simp [strBody, h]

theorem strBody_escapeChar (n : Nat) (c : Char) (s : List Char) :
    strBody (n + 1) (escapeChar c ++ s)
      = (strBody n s).bind fun p => some (c :: p.1, p.2) := by
  unfold escapeChar
  split
  · subst c
    exact strBody_escape (e := []) rfl
  split
  · subst c
    exact strBody_escape (e := []) rfl
  split
  · subst c
    exact strBody_escape (e := []) rfl
  split
  · subst c
    exact strBody_escape (e := []) rfl
  split
  · subst c
    exact strBody_escape (e := []) rfl
  split
  · subst c
    exact strBody_escape (e := []) rfl
  split
  · subst c
    exact strBody_escape (e := []) rfl
  split
  · rename_i hlt
    have hu := unicode_control c.toNat hlt s
    rw [Char.ofNat_toNat] at hu
    exact strBody_escape (e := ['0', '0', _, _]) (by simpa [escape] using hu)
  · rename_i hq hb _ _ _ _ _ hlt
    simp only [List.singleton_append, strBody, hq, hb, hlt, if_false]
    rfl

/-- A string literal is read back, with fuel for each of its characters. -/
theorem strBody_quoted (cs r : List Char) (n : Nat) (h : cs.length < n) :
    strBody n (cs.flatMap escapeChar ++ ('"' :: r)) = some (cs, r) := by
  induction cs generalizing n with
  | nil =>
    cases n with
    | zero => simp at h
    | succ n => simp [strBody]
  | cons c cs ih =>
    cases n with
    | zero => simp at h
    | succ n =>
      simp only [List.flatMap_cons, List.append_assoc]
      rw [strBody_escapeChar, ih n (by simpa using h)]
      rfl

theorem length_le_quoted (cs : List Char) : cs.length + 2 ≤ (quoted cs).length := by
  have h : cs.length ≤ (cs.flatMap escapeChar).length := by
    induction cs with
    | nil => simp
    | cons c cs ih =>
      have hite : ∀ {p : Prop} [Decidable p] {a b : List Char}, 1 ≤ a.length → 1 ≤ b.length →
          1 ≤ (if p then a else b).length := by
        intro p _ a b ha hb
        split
        · exact ha
        · exact hb
      have hc : 1 ≤ (escapeChar c).length := by
        rw [escapeChar]
        repeat' apply hite
        all_goals exact Nat.succ_le_succ (Nat.zero_le _)
      simp only [List.length_cons, List.flatMap_cons, List.length_append]
      omega
  simp only [quoted, List.length_cons, List.length_append, List.length_nil]
  omega

/-! ### Values

The induction is on the value; `n` only has to exceed the length of its text,
and what follows the text must not continue a number. -/

def comma : Nat → List Char := fun _ => [',']

/-- A value's text starts neither with white space nor with a closing
bracket. -/
theorem textAt_cons (d : Nat) (v : Value) :
    ∃ c s, textAt comma d v = c :: s ∧ isWs c = false ∧ c ≠ ']' := by
  cases v with
  | null => exact ⟨_, _, by simp only [textAt]; rfl, by decide, by decide⟩
  | bool b =>
    cases b with
    | false => exact ⟨_, _, by simp only [textAt]; rfl, by decide, by decide⟩
    | true => exact ⟨_, _, by simp only [textAt]; rfl, by decide, by decide⟩
  | int i =>
    obtain ⟨c, s, h, hc⟩ := intText_cons i
    refine ⟨c, s, by simp only [textAt]; exact h, ?_⟩
    rcases hc with hc | rfl
    · exact ⟨digit_not_ws hc, by rintro rfl; exact absurd hc (by decide)⟩
    · exact ⟨by decide, by decide⟩
  | str s => exact ⟨_, _, by simp only [textAt, quoted]; rfl, by decide, by decide⟩
  | arr vs => exact ⟨_, _, by simp only [textAt]; rfl, by decide, by decide⟩
  | obj ms => exact ⟨_, _, by simp only [textAt]; rfl, by decide, by decide⟩

theorem value_int (i : Int) {r : List Char} (hr : NumEnd r) (n : Nat) :
    value (n + 1) (intText i ++ r) = some (.int i, r) := by
  obtain ⟨c, s, hcs, hc⟩ := intText_cons i
  have hws : isWs c = false := by
    rcases hc with hc | rfl
    · exact digit_not_ws hc
    · decide
  have hne : ∀ x ∈ ['[', '{', '"', 'n', 't', 'f'], c ≠ x := by
    rintro x hx rfl
    rcases hc with hc | rfl
    · revert hc
      have : ∀ x ∈ ['[', '{', '"', 'n', 't', 'f'], ¬ x.isDigit = true := by simp [Char.isDigit]
      exact this c hx
    · revert hx
      decide
  have hnum := number_intText i hr
  rw [hcs, List.cons_append] at hnum ⊢
  unfold value
  rw [skipWs_cons hws]
  simp only [hne '[' (by decide), hne '{' (by decide), hne '"' (by decide), hne 'n' (by decide),
    hne 't' (by decide), hne 'f' (by decide), if_false, hnum, Option.bind_eq_bind, Option.bind_some]

theorem elemsAt_lead (sep : Nat → List Char) (d : Nat) (lead : List Char) {vs : List Value}
    (h : vs ≠ []) : elemsAt sep d lead vs = lead ++ elemsAt sep d [] vs := by
  cases vs with
  | nil => exact absurd rfl h
  | cons v vs => simp [elemsAt]

theorem membersAt_lead (sep : Nat → List Char) (d : Nat) (lead : List Char)
    {ms : List (List Char × Value)} (h : ms ≠ []) :
    membersAt sep d lead ms = lead ++ membersAt sep d [] ms := by
  cases ms with
  | nil => exact absurd rfl h
  | cons m ms => simp [membersAt]

theorem value_str (n : Nat) (cs r : List Char) (h : (quoted cs).length < n + 1) :
    value (n + 1) (quoted cs ++ r) = some (.str cs, r) := by
  have hl := length_le_quoted cs
  have hs := strBody_quoted cs r n (by omega)
  have hq : quoted cs ++ r = '"' :: (cs.flatMap escapeChar ++ ('"' :: r)) := by
    simp [quoted]
  unfold value
  rw [hq, skipWs_cons (by decide)]
  simp [hs]

theorem siblings_close {α : Type} {close : Char} (hws : isWs close = false) (hc : close ≠ ',')
    (more : List Char → Option (List α × List Char)) (x : α) (r : List Char) :
    siblings close more x (close :: r) = some ([x], r) := by
  unfold siblings
  rw [skipWs_cons hws]
  simp [hc]

theorem siblings_comma {α : Type} (close : Char) {more : List Char → Option (List α × List Char)}
    (x : α) {s : List Char} {xs : List α} {r : List Char} (h : more s = some (xs, r)) :
    siblings close more x (',' :: s) = some (x :: xs, r) := by
  unfold siblings
  rw [skipWs_cons (by decide)]
  simp [h]

theorem members_key {n : Nat} {k s r : List Char} {v : Value} (h : k.length < n)
    (hv : value n s = some (v, r)) :
    members (n + 1) (quoted k ++ (':' :: s)) = siblings '}' (members n) (k, v) r := by
  have hs := strBody_quoted k (':' :: s) n h
  have hq : quoted k ++ (':' :: s) = ['"'] ++ (k.flatMap escapeChar ++ ('"' :: ':' :: s)) := by
    simp [quoted]
  have hc : word [':'] (':' :: s) = some s := word_append [':'] s
  have hw : skipWs (quoted k ++ (':' :: s)) = quoted k ++ (':' :: s) := skipWs_cons (by decide)
  unfold members
  rw [hw, hq, word_append]
  simp only [Option.bind_eq_bind, Option.bind_some, hs]
  rw [skipWs_cons (by decide), hc]
  simp only [Option.bind_some, hv]

mutual

theorem value_textAt (d : Nat) : (v : Value) → (n : Nat) → (r : List Char) →
    (textAt comma d v).length < n → NumEnd r → value n (textAt comma d v ++ r) = some (v, r)
  | _, 0, _, h, _ => absurd h (Nat.not_lt_zero _)
  | .null, n + 1, r, _, _ => by
      simp only [textAt, List.cons_append, value]
      rw [skipWs_cons (by decide)]
      have hw := word_append ['u', 'l', 'l'] r
      simp only [List.cons_append, List.nil_append] at hw ⊢
      simp [hw]
  | .bool true, n + 1, r, _, _ => by
      simp only [textAt, List.cons_append, value]
      rw [skipWs_cons (by decide)]
      have hw := word_append ['r', 'u', 'e'] r
      simp only [List.cons_append, List.nil_append] at hw ⊢
      simp [hw]
  | .bool false, n + 1, r, _, _ => by
      simp only [textAt, List.cons_append, value]
      rw [skipWs_cons (by decide)]
      have hw := word_append ['a', 'l', 's', 'e'] r
      simp only [List.cons_append, List.nil_append] at hw ⊢
      simp [hw]
  | .int i, n + 1, r, _, hr => by
      simp only [textAt]
      exact value_int i hr n
  | .str s, n + 1, r, h, _ => by
      simp only [textAt] at h ⊢
      exact value_str n s r h
  | .arr [], n + 1, r, _, _ => by
      simp only [textAt, elemsAt, value, List.nil_append, List.cons_append]
      rw [skipWs_cons (by decide)]
      rfl
  | .arr (v :: vs), n + 1, r, h, _ => by
      have ih := elems_elemsAt d (v :: vs) (List.cons_ne_nil _ _) n r
        (by simp only [textAt, List.length_cons, List.length_append] at h ⊢; omega)
      obtain ⟨c, s, hcs, hws, hc⟩ := textAt_cons (d + 1) v
      have hhead : (skipWs (elemsAt comma d [] (v :: vs) ++ (']' :: r))).head? ≠ some ']' := by
        simp only [elemsAt, hcs, List.nil_append, List.cons_append]
        rw [skipWs_cons hws]
        simpa using hc
      simp only [textAt, value, List.cons_append, List.append_assoc, List.nil_append]
      rw [skipWs_cons (by decide)]
      simp only [if_true, hhead, if_false, ih]
      rfl
  | .obj [], n + 1, r, _, _ => by
      simp only [textAt, membersAt, value, List.nil_append, List.cons_append]
      rw [skipWs_cons (by decide)]
      rfl
  | .obj ((k, v) :: ms), n + 1, r, h, _ => by
      have ih := members_membersAt d ((k, v) :: ms) (List.cons_ne_nil _ _) n r
        (by simp only [textAt, List.length_cons, List.length_append] at h ⊢; omega)
      have hhead : (skipWs (membersAt comma d [] ((k, v) :: ms) ++ ('}' :: r))).head?
          ≠ some '}' := by
        simp only [membersAt, quoted, List.nil_append, List.cons_append]
        rw [skipWs_cons (by decide)]
        simp
      simp only [textAt, value, List.cons_append, List.append_assoc, List.nil_append]
      rw [skipWs_cons (by decide)]
      simp only [if_true, hhead, if_false, ih]
      rfl

theorem elems_elemsAt (d : Nat) : (vs : List Value) → vs ≠ [] → (n : Nat) → (r : List Char) →
    (elemsAt comma d [] vs).length + 1 < n →
    elems n (elemsAt comma d [] vs ++ (']' :: r)) = some (vs, r)
  | [], h, _, _, _ => absurd rfl h
  | _ :: _, _, 0, _, h => absurd h (Nat.not_lt_zero _)
  | [v], _, n + 1, r, h => by
      have ih := value_textAt (d + 1) v n (']' :: r)
        (by simp only [elemsAt, List.nil_append, List.append_nil] at h; omega)
        (numEnd_cons (by decide))
      simp only [elemsAt, List.nil_append, List.append_nil, elems, ih, Option.bind_eq_bind,
        Option.bind_some]
      exact siblings_close (by decide) (by decide) _ v r
  | v :: w :: vs, _, n + 1, r, h => by
      have hl := elemsAt_lead comma d (comma d) (List.cons_ne_nil w vs)
      rw [elemsAt, hl] at h ⊢
      simp only [comma, List.nil_append, List.length_append, List.length_cons,
        List.length_nil] at h
      have ih := value_textAt (d + 1) v n
        (',' :: (elemsAt comma d [] (w :: vs) ++ (']' :: r))) (by omega)
        (numEnd_cons (by decide))
      have ihs := elems_elemsAt d (w :: vs) (List.cons_ne_nil _ _) n r (by omega)
      simp only [comma, List.nil_append, List.append_assoc, List.cons_append] at ih ⊢
      simp only [elems, ih, Option.bind_eq_bind, Option.bind_some]
      exact siblings_comma ']' v ihs

theorem members_membersAt (d : Nat) : (ms : List (List Char × Value)) → ms ≠ [] →
    (n : Nat) → (r : List Char) → (membersAt comma d [] ms).length + 1 < n →
    members n (membersAt comma d [] ms ++ ('}' :: r)) = some (ms, r)
  | [], h, _, _, _ => absurd rfl h
  | _ :: _, _, 0, _, h => absurd h (Nat.not_lt_zero _)
  | [(k, v)], _, n + 1, r, h => by
      have hk := length_le_quoted k
      simp only [membersAt, List.nil_append, List.append_nil, List.length_append,
        List.length_cons] at h
      have ih := value_textAt (d + 1) v n ('}' :: r) (by omega)
        (numEnd_cons (by decide))
      simp only [membersAt, List.nil_append, List.append_nil, List.append_assoc,
        List.cons_append]
      rw [members_key (by omega) ih]
      exact siblings_close (by decide) (by decide) _ (k, v) r
  | (k, v) :: m :: ms, _, n + 1, r, h => by
      have hk := length_le_quoted k
      have hl := membersAt_lead comma d (comma d) (List.cons_ne_nil m ms)
      rw [membersAt, hl] at h ⊢
      simp only [comma, List.nil_append, List.length_append, List.length_cons,
        List.length_nil] at h
      have ih := value_textAt (d + 1) v n
        (',' :: (membersAt comma d [] (m :: ms) ++ ('}' :: r))) (by omega)
        (numEnd_cons (by decide))
      have ihs := members_membersAt d (m :: ms) (List.cons_ne_nil _ _) n r (by omega)
      simp only [comma, List.nil_append, List.append_assoc, List.cons_append] at ih ⊢
      rw [members_key (by omega) ih]
      exact siblings_comma '}' (k, v) ihs

end

/-- The text of a value is a JSON text, and it is read back as the value. -/
theorem parse_text (v : Value) : parse (utf8 (text v)) = some v := by
  have h := value_textAt 0 v ((textAt comma 0 v).length + 1) [] (Nat.lt_succ_self _) numEnd_nil
  have ht : text v = textAt comma 0 v := rfl
  rw [List.append_nil] at h
  rw [parse_utf8, ht]
  unfold whole
  rw [h]
  rfl

end Montauk.Json
