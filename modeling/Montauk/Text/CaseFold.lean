import Montauk.Text.Bytes
import Montauk.Text.CaseFoldTable

/-!
# UTF-8 and the case-fold lookups

What `-i` on the regex face knows beyond ASCII: decoding the character at
the cursor, and the two binary searches over the generated tables. A
lookup is described by where its answer comes from (`bsearch_sound`): an
index it returns holds the key it was asked for.
-/

namespace Montauk

/-- `n` continuation bytes behind a lead byte whose bits are `v`. -/
def u8Tail : Nat → Nat → List UInt8 → Option Nat
  | 0, v, _ => some v
  | n + 1, v, c :: rest =>
      if c &&& 0xc0 = 0x80 then u8Tail n ((v <<< 6) ||| (c &&& 0x3f).toNat) rest else none
  | _ + 1, _, [] => none

/-- Decode one character: its byte length and code point, `none` where
the source returns length `0`. -/
def u8Decode (p : List UInt8) : Option (Nat × Nat) :=
  match p with
  | [] => none
  | c :: rest =>
      if c < 0x80 then some (1, c.toNat)
      else if c &&& 0xe0 = 0xc0 then (u8Tail 1 (c &&& 0x1f).toNat rest).map fun v => (2, v)
      else if c &&& 0xf0 = 0xe0 then (u8Tail 2 (c &&& 0x0f).toNat rest).map fun v => (3, v)
      else if c &&& 0xf8 = 0xf0 then (u8Tail 3 (c &&& 0x07).toNat rest).map fun v => (4, v)
      else none

/-- Encode `cp`; the empty list where the source returns length `0`. -/
def u8Encode (cp : Nat) : List UInt8 :=
  let byte (n : Nat) : UInt8 := UInt8.ofNat n
  if cp < 0x80 then [byte cp]
  else if cp < 0x800 then [byte (0xc0 ||| (cp >>> 6)), byte (0x80 ||| (cp &&& 0x3f))]
  else if cp < 0x10000 then
    [byte (0xe0 ||| (cp >>> 12)), byte (0x80 ||| ((cp >>> 6) &&& 0x3f)),
      byte (0x80 ||| (cp &&& 0x3f))]
  else if cp < 0x110000 then
    [byte (0xf0 ||| (cp >>> 18)), byte (0x80 ||| ((cp >>> 12) &&& 0x3f)),
      byte (0x80 ||| ((cp >>> 6) &&& 0x3f)), byte (0x80 ||| (cp &&& 0x3f))]
  else []

/-- Binary search for `cp` among the keys of a table, on `[lo, hi)`. -/
def bsearch (key : Nat → Nat) (cp : Nat) : Nat → Nat → Nat → Option Nat
  | 0, _, _ => none
  | n + 1, lo, hi =>
      if lo < hi then
        let mid := lo + (hi - lo) / 2
        if key mid = cp then some mid
        else if key mid < cp then bsearch key cp n (mid + 1) hi
        else bsearch key cp n lo mid
      else none

/-- The table entry of `cp`, if the search finds one. -/
def tableEntry? {β : Type} (table : List β) (key : β → Nat) (cp : Nat) : Option β :=
  (bsearch (fun i => ((table[i]?).map key).getD 0) cp (table.length + 1) 0
    table.length).bind (table[·]?)

/-- The partner's last byte, or `0` when `cp` has no partner that keeps
every byte but the last. -/
def foldAltLast (cp : Nat) : UInt8 :=
  match tableEntry? subFoldTable (·.1) cp with
  | some e => e.2
  | none => 0

/-- The other members of the fold class of `cp`, when the class needs an
alternation. -/
def foldAltMembers (cp : Nat) : List Nat :=
  match tableEntry? subFoldAltTable (·.1) cp with
  | some e => [e.2.1, e.2.2.1, e.2.2.2].filter (· != 0)
  | none => []

theorem u8Tail_bytes : ∀ {n v : Nat} {p : List UInt8} {r : Nat}, u8Tail n v p = some r →
    n ≤ p.length ∧ ∀ c ∈ p.take n, c &&& 0xc0 = 0x80
  | 0, _, _, _, _ => ⟨Nat.zero_le _, fun c hc => absurd hc (by simp)⟩
  | n + 1, v, [], r, h => absurd h (by simp [u8Tail])
  | n + 1, v, c :: rest, r, h => by
      rw [u8Tail] at h
      split at h
      · rename_i hc
        obtain ⟨hlen, hall⟩ := u8Tail_bytes h
        refine ⟨Nat.succ_le_succ hlen, fun d hd => ?_⟩
        rw [List.take_succ_cons] at hd
        rcases List.mem_cons.mp hd with rfl | hd
        · exact hc
        · exact hall d hd
      · exact absurd h (by simp)

/-- Decoding a character reads its lead byte and continuation bytes. -/
theorem u8Decode_bytes {p : List UInt8} {n cp : Nat} (h : u8Decode p = some (n, cp)) :
    1 ≤ n ∧ n ≤ p.length ∧ ∀ c ∈ (p.take n).tail, c &&& 0xc0 = 0x80 := by
  cases p with
  | nil => exact absurd h (by simp [u8Decode])
  | cons c rest =>
      have htail : ∀ k v, (u8Tail k v rest).map (fun v => (k + 1, v)) = some (n, cp) →
          1 ≤ n ∧ n ≤ (c :: rest).length ∧ ∀ d ∈ ((c :: rest).take n).tail, d &&& 0xc0 = 0x80 := by
        intro k v hk
        obtain ⟨r, hr, hn⟩ := Option.map_eq_some_iff.mp hk
        obtain ⟨rfl, -⟩ := Prod.mk.inj hn
        obtain ⟨hlen, hall⟩ := u8Tail_bytes hr
        exact ⟨Nat.succ_pos k, Nat.succ_le_succ hlen, hall⟩
      rw [u8Decode] at h
      split at h
      · obtain ⟨rfl, -⟩ := Prod.mk.inj (Option.some.inj h)
        exact ⟨Nat.le_refl _, by simp, fun d hd => absurd hd (by simp)⟩
      split at h
      · exact htail 1 _ h
      split at h
      · exact htail 2 _ h
      split at h
      · exact htail 3 _ h
      · exact absurd h (by simp)

theorem bsearch_sound {key : Nat → Nat} {cp : Nat} :
    ∀ {n lo hi i : Nat}, bsearch key cp n lo hi = some i → key i = cp ∧ i < hi
  | 0, _, _, _, h => by simp [bsearch] at h
  | n + 1, lo, hi, i, h => by
      unfold bsearch at h
      split at h
      · rename_i hlt
        simp only at h
        split at h
        · rename_i hk
          obtain rfl := Option.some.inj h
          exact ⟨hk, by omega⟩
        · split at h
          · exact bsearch_sound h
          · obtain ⟨hk, hi'⟩ := bsearch_sound h
            exact ⟨hk, by omega⟩
      · cases h

/-- An entry the search returns is an entry of the table, under the key
that was asked for. -/
theorem tableEntry?_sound {β : Type} {table : List β} {key : β → Nat} {cp : Nat}
    {e : β} (h : tableEntry? table key cp = some e) : e ∈ table ∧ key e = cp := by
  obtain ⟨i, hb, hi⟩ := Option.bind_eq_some_iff.mp h
  obtain ⟨hk, -⟩ := bsearch_sound hb
  simp only [hi, Option.map_some, Option.getD_some] at hk
  exact ⟨List.mem_of_getElem? hi, hk⟩

theorem foldAltLast_mem {cp : Nat} (h : foldAltLast cp ≠ 0) :
    (cp, foldAltLast cp) ∈ subFoldTable := by
  unfold foldAltLast at h ⊢
  cases he : tableEntry? subFoldTable (·.1) cp with
  | none => simp [he] at h
  | some e =>
      obtain ⟨hmem, rfl⟩ := tableEntry?_sound he
      exact hmem

theorem foldAltMembers_mem {cp : Nat} (h : foldAltMembers cp ≠ []) :
    ∃ a b c, (cp, a, b, c) ∈ subFoldAltTable
      ∧ foldAltMembers cp = [a, b, c].filter (· != 0) := by
  unfold foldAltMembers at h ⊢
  cases he : tableEntry? subFoldAltTable (·.1) cp with
  | none => simp [he] at h
  | some e =>
      obtain ⟨hmem, rfl⟩ := tableEntry?_sound he
      exact ⟨e.2.1, e.2.2.1, e.2.2.2, hmem, rfl⟩

end Montauk
