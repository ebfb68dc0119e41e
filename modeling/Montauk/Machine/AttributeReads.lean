import Montauk.Machine.Attributes

/-!
# Attribute walks over a message of a known size

Reads that fail where the message ends (`read`, `readString`), and the walk of
`Attributes` as it goes over the message by offsets, with a handler that reads
for itself (`walkReads`). The lengths are checked before they are used, so the
headers are in the message, whatever the lengths are: the walk is the handler on
the attributes it comes to (`walkReads_eq`), and it is well exactly when the
handler is well on each of them (`walkReads_isSome`).
-/

namespace Montauk.Attributes

/-! ## Reads -/

/-- `n` bytes at `off` as a number; `none` if one of them is behind the end. -/
def read (n : Nat) (m : List UInt8) (off : Nat) : Option Nat :=
  if off + n ≤ m.length then some (readLe n (m.drop off)) else none

/-- The bytes up to a NUL; `none` if the end comes first. -/
def readString : List UInt8 → Option (List UInt8)
  | [] => none
  | c :: cs => if c = 0 then some [] else (readString cs).map (c :: ·)

theorem read_eq {n off : Nat} {m : List UInt8} (h : off + n ≤ m.length) :
    read n m off = some (readLe n (m.drop off)) := if_pos h

theorem isSome_read {n off : Nat} {m : List UInt8} : (read n m off).isSome = true ↔ off + n ≤ m.length := by
  rw [read]
  split
  · rename_i h
    exact ⟨fun _ => h, fun _ => rfl⟩
  · rename_i h
    exact ⟨fun hsome => Bool.noConfusion hsome, fun hle => absurd hle h⟩

theorem isSome_readString {s : List UInt8} : (readString s).isSome = true ↔ 0 ∈ s := by
  induction s with
  | nil => exact ⟨fun h => Bool.noConfusion h, fun h => absurd h List.not_mem_nil⟩
  | cons c s ih =>
      rw [readString, List.mem_cons]
      by_cases hc : c = 0
      · rw [if_pos hc]
        exact ⟨fun _ => .inl hc.symm, fun _ => rfl⟩
      · rw [if_neg hc, Option.isSome_map, ih]
        exact ⟨.inr, fun h => h.resolve_left (Ne.symm hc)⟩

/-! ## The walk -/

/-- An attribute where it is met: its type, the length of its payload and the
offset of that. -/
structure Seen where
  type : Nat
  payload : Nat
  data : Nat
deriving DecidableEq

section

variable {σ : Type} (f : σ → Seen → Option σ) (m : List UInt8)

/-- The walk from `off` on, with `left` bytes left; `none` if a read fails, or
after `fuel` steps. -/
def walkReads : Nat → Nat → Nat → σ → Option σ
  | 0, _, _, _ => none
  | fuel + 1, off, left, s =>
      if left < 4 then some s
      else do
        let len ← read 2 m off
        if len < 4 ∨ left < len then some s
        else if left < align4 len then some s
        else do
          let type ← read 2 m (off + 2)
          let s ← f s ⟨type, len - 4, off + 4⟩
          walkReads fuel (off + align4 len) (left - align4 len) s

/-- The attributes that are met, up to the first length that makes no sense. -/
def seen : Nat → Nat → Nat → List Seen
  | 0, _, _ => []
  | fuel + 1, off, left =>
      let len := readLe 2 (m.drop off)
      if left < 4 ∨ len < 4 ∨ left < len ∨ left < align4 len then []
      else ⟨readLe 2 (m.drop (off + 2)), len - 4, off + 4⟩ :: seen fuel (off + align4 len) (left - align4 len)

variable {f m} {fuel off left : Nat}

/-- The induction is on the steps, each of which uses up four bytes at least. -/
theorem walkReads_eq (s : σ) (hend : 4 ≤ left → off + left ≤ m.length) (hfuel : left < fuel) :
    walkReads f m fuel off left s = (seen m fuel off left).foldlM f s := by
  induction fuel generalizing off left s with
  | zero => exact absurd hfuel (Nat.not_lt_zero _)
  | succ fuel ih =>
      rw [walkReads, seen]
      by_cases hleft : left < 4
      · rw [if_pos hleft, if_pos (.inl hleft)]
        rfl
      · have hin := hend (Nat.not_lt.mp hleft)
        rw [if_neg hleft, read_eq (by omega), Option.bind_eq_bind, Option.bind_some]
        by_cases hlen : readLe 2 (m.drop off) < 4 ∨ left < readLe 2 (m.drop off)
        · rw [if_pos hlen, if_pos (by omega)]
          rfl
        · rw [if_neg hlen]
          by_cases halign : left < align4 (readLe 2 (m.drop off))
          · rw [if_pos halign, if_pos (by omega)]
            rfl
          · have hge := le_align4 (readLe 2 (m.drop off))
            rw [if_neg halign, if_neg (by omega), read_eq (by omega), Option.bind_eq_bind, Option.bind_some,
              List.foldlM_cons]
            refine congrArg (Option.bind _) (funext fun s' => ih s' (fun _ => ?_) ?_) <;> omega

/-- A run of handlers that are well or not whatever the state. -/
theorem isSome_foldlM {α : Type} {g : σ → α → Option σ} {p : α → Prop} {as : List α}
    (hg : ∀ s, ∀ a ∈ as, (g s a).isSome = true ↔ p a) (s : σ) : (as.foldlM g s).isSome = true ↔ ∀ a ∈ as, p a := by
  induction as generalizing s with
  | nil => exact ⟨fun _ a ha => absurd ha List.not_mem_nil, fun _ => rfl⟩
  | cons a as ih =>
      rw [List.foldlM_cons, List.forall_mem_cons, ← hg s a List.mem_cons_self]
      have htail := ih fun s b hb => hg s b (List.mem_cons_of_mem a hb)
      cases hs : g s a with
      | none => exact ⟨fun h => Bool.noConfusion h, fun h => h.1⟩
      | some s' => exact (htail s').trans ⟨fun h => ⟨rfl, h⟩, And.right⟩

theorem walkReads_isSome {p : Seen → Prop} (hf : ∀ s, ∀ a ∈ seen m fuel off left, (f s a).isSome = true ↔ p a) (s : σ)
    (hend : 4 ≤ left → off + left ≤ m.length) (hfuel : left < fuel) :
    (walkReads f m fuel off left s).isSome = true ↔ ∀ a ∈ seen m fuel off left, p a := by
  rw [walkReads_eq s hend hfuel]
  exact isSome_foldlM hf s

theorem seen_bounds {a : Seen} (ha : a ∈ seen m fuel off left) : 4 ≤ left ∧ a.data + a.payload ≤ off + left := by
  induction fuel generalizing off left with
  | zero => exact absurd ha List.not_mem_nil
  | succ fuel ih =>
      rw [seen] at ha
      split at ha
      · exact absurd ha List.not_mem_nil
      · rename_i hlen
        have hge := le_align4 (readLe 2 (m.drop off))
        rcases List.mem_cons.mp ha with rfl | ha
        · have hlast : off + 4 + (readLe 2 (m.drop off) - 4) ≤ off + left := by omega
          exact ⟨by omega, hlast⟩
        · have hrest := ih ha
          omega

end

end Montauk.Attributes
