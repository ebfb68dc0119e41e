import Montauk.Machine.Run
import Mathlib.Logic.Function.Basic

/-!
# The double buffer

One writer fills the back buffer and publishes it by swapping the pointers;
any number of readers copy the front buffer under its shared lock, after a
second look at the front pointer. The machine takes one atomic operation, one
lock operation or one field at a time, in any order of writer and readers.

The writer has two ways to the back buffer. `begin_write` locks it, and so
waits for a reader that is still copying it; `back` does not, and a reader
that has been slower than a whole publish is then overrun
(`doubleBuffer_overrun`). With `begin_write`, or when `back` is taken only
while nobody copies that buffer, no copy is disturbed and every value
returned is one published snapshot (`doubleBuffer_safe`).
-/

namespace Montauk.App

open Machine

/-! ## Snapshots -/

variable {F V : Type}

/-- A snapshot: its fields and its sequence number. -/
structure Snap (F V : Type) where
  fields : F → V
  seq : Nat

/-- An item of a snapshot is a field or, as `none`, the sequence number. -/
def Snap.SameAt (a b : Snap F V) : Option F → Prop
  | some f => a.fields f = b.fields f
  | none => a.seq = b.seq

theorem Snap.eq_of_sameAt {a b : Snap F V} (h : ∀ x, a.SameAt b x) : a = b := by
  cases a
  cases b
  have hf := funext fun f => h (some f)
  have hs := h none
  simp only [Snap.SameAt] at hf hs
  rw [hf, hs]

/-- The items of a snapshot in the order in which they are copied, and what a
copy holds before any of them. -/
structure Layout (F V : Type) where
  items : List (Option F)
  complete : ∀ x, x ∈ items
  blank : Snap F V

section

variable [DecidableEq F]

def Snap.set (s : Snap F V) (f : F) (v : V) : Snap F V :=
  { s with fields := Function.update s.fields f v }

/-- Copy one item of `src`. -/
def Snap.copyItem (src acc : Snap F V) : Option F → Snap F V
  | some f => acc.set f (src.fields f)
  | none => { acc with seq := src.seq }

theorem Snap.copyItem_self (src acc : Snap F V) (x : Option F) :
    (src.copyItem acc x).SameAt src x := by
  cases x with
  | none => rfl
  | some f => exact Function.update_self ..

theorem Snap.copyItem_other (src acc : Snap F V) {x y : Option F} (h : acc.SameAt src y) :
    (src.copyItem acc x).SameAt src y := by
  by_cases hxy : x = y
  · subst hxy
    exact src.copyItem_self acc x
  · cases x with
    | none =>
      cases y with
      | none => exact absurd rfl hxy
      | some f => exact h
    | some f =>
      cases y with
      | none => exact h
      | some g =>
        have hgf : g ≠ f := fun hgf => hxy (by rw [hgf])
        simp only [Snap.SameAt, Snap.copyItem, Snap.set, Function.update_of_ne hgf]
        exact h

end

/-! ## The machine -/

/-- How the writer gets at the back buffer: `back` or `begin_write`. -/
inductive Entry where
  | back
  | beginWrite
deriving DecidableEq

/-- Where the writer is: at the top of its loop, filling, and behind each
operation of `publish`. -/
inductive WriterPc where
  | start
  | filling
  | next (n : Nat)
  | stamped (n : Nat)
  | swapping (n : Nat) (oldFront : Bool)
  | swapped (n : Nat) (oldFront : Bool)
  | stored (oldFront : Bool)
  | released (oldFront : Bool)

/-- Where a reader is in `read`: behind the load of the front pointer, the
lock and the second look, with the items still to be copied. -/
inductive ReaderPc (F V : Type) where
  | idle
  | loaded (b : Bool)
  | locked (b : Bool)
  | copying (b : Bool) (rest : List (Option F)) (acc : Snap F V)

/-- The buffer a reader holds the shared lock of. -/
def ReaderPc.holds : ReaderPc F V → Option Bool
  | .idle => none
  | .loaded _ => none
  | .locked b => some b
  | .copying b _ _ => some b

/-- The buffer a reader is copying: it has passed the second look. -/
def ReaderPc.copies : ReaderPc F V → Option Bool
  | .copying b _ _ => some b
  | _ => none

/-- `DoubleBuffer`, the program counters and what has happened so far. The
buffers `a_` and `b_` are `false` and `true`. `published` holds the content
of every buffer at the store to the front pointer; `torn` says that the
writer has modified a buffer while a reader was copying it. -/
structure Shared (F V : Type) where
  buf : Bool → Snap F V
  front : Bool
  back : Bool
  seq : Nat
  writeLocked : Bool
  excl : Bool → Bool
  shared : Bool → List Nat
  writer : WriterPc
  reader : Nat → ReaderPc F V
  published : List (Snap F V)
  returned : List (Snap F V)
  torn : Bool

/-- The constructor: two buffers with sequence number `0`. -/
def Shared.start (init : F → V) : Shared F V where
  buf _ := { fields := init, seq := 0 }
  front := false
  back := true
  seq := 0
  writeLocked := false
  excl _ := false
  shared _ := []
  writer := .start
  reader _ := .idle
  published := []
  returned := []
  torn := false

inductive Act (F V : Type) where
  | take
  | fill (f : F) (v : V)
  | loadSeq
  | stamp
  | loadFront
  | storeFront
  | storeSeq
  | unlock
  | flip
  | load (r : Nat)
  | lockShared (r : Nat)
  | recheck (r : Nat)
  | copy (r : Nat)
  | finish (r : Nat)

/-- Some reader that holds the lock of `b` is copying it. -/
def Shared.copied (s : Shared F V) (b : Bool) : Bool :=
  (s.shared b).any fun r => (s.reader r).copies == some b

section

variable [DecidableEq F]

/-- `begin_write`, or `back`: the buffer to fill. The unique lock is taken
only when nobody holds the mutex. -/
def Shared.take (entry : Entry) (s : Shared F V) : Option (Shared F V) :=
  if entry = .back ∨ s.writeLocked then some { s with writer := .filling }
  else if s.excl s.back = false ∧ s.shared s.back = [] then
    some { s with
      writer := .filling
      writeLocked := true
      excl := Function.update s.excl s.back true }
  else none

def Shared.modify (s : Shared F V) (g : Snap F V → Snap F V) : Shared F V :=
  { s with
    buf := Function.update s.buf s.back (g (s.buf s.back))
    torn := s.torn || s.copied s.back }

def Shared.setReader (s : Shared F V) (r : Nat) (pc : ReaderPc F V) : Shared F V :=
  { s with reader := Function.update s.reader r pc }

/-- Reader `r` gives its shared lock of `b` back. -/
def Shared.unlockShared (s : Shared F V) (r : Nat) (b : Bool) : Shared F V :=
  { s with shared := Function.update s.shared b ((s.shared b).filter fun q => q != r) }

/-- One step of the writer or of a reader. -/
def Shared.step (L : Layout F V) (entry : Entry) (s : Shared F V) : Act F V → Option (Shared F V)
  | .take =>
      match s.writer with
      | .start => s.take entry
      | _ => none
  | .fill f v =>
      match s.writer with
      | .filling => some (s.modify fun c => c.set f v)
      | _ => none
  | .loadSeq =>
      match s.writer with
      | .filling => some { s with writer := .next (s.seq + 1) }
      | _ => none
  | .stamp =>
      match s.writer with
      | .next n => some { s.modify fun c => { c with seq := n } with writer := .stamped n }
      | _ => none
  | .loadFront =>
      match s.writer with
      | .stamped n => some { s with writer := .swapping n s.front }
      | _ => none
  | .storeFront =>
      match s.writer with
      | .swapping n old =>
          some { s with
            front := s.back
            published := s.published ++ [s.buf s.back]
            writer := .swapped n old }
      | _ => none
  | .storeSeq =>
      match s.writer with
      | .swapped n old => some { s with seq := n, writer := .stored old }
      | _ => none
  | .unlock =>
      match s.writer with
      | .stored old =>
          some { s with
            excl := if s.writeLocked then Function.update s.excl s.back false else s.excl
            writeLocked := false
            writer := .released old }
      | _ => none
  | .flip =>
      match s.writer with
      | .released old => some { s with back := old, writer := .start }
      | _ => none
  | .load r =>
      match s.reader r with
      | .idle => some (s.setReader r (.loaded s.front))
      | _ => none
  | .lockShared r =>
      match s.reader r with
      | .loaded b =>
          if s.excl b then none
          else some { s.setReader r (.locked b) with
            shared := Function.update s.shared b (r :: s.shared b) }
      | _ => none
  | .recheck r =>
      match s.reader r with
      | .locked b =>
          if s.front = b then some (s.setReader r (.copying b L.items L.blank))
          else some ((s.unlockShared r b).setReader r .idle)
      | _ => none
  | .copy r =>
      match s.reader r with
      | .copying b (x :: rest) acc =>
          some (s.setReader r (.copying b rest ((s.buf b).copyItem acc x)))
      | _ => none
  | .finish r =>
      match s.reader r with
      | .copying b [] acc =>
          some { (s.unlockShared r b).setReader r .idle with returned := s.returned ++ [acc] }
      | _ => none

end

/-! ## The invariant -/

/-- The writer is between taking the back buffer and the swap. -/
def WriterPc.owns : WriterPc → Bool
  | .filling => true
  | .next _ => true
  | .stamped _ => true
  | .swapping _ _ => true
  | _ => false

/-- The writer is behind the unlock of `publish` and has not taken the next
buffer. -/
def WriterPc.outside : WriterPc → Bool
  | .start => true
  | .released _ => true
  | _ => false

/-- What holds of the pointers and the counters at each point of the
writer. -/
def Shared.WriterInv (s : Shared F V) : Prop :=
  match s.writer with
  | .start => s.front ≠ s.back ∧ s.published.length = s.seq
  | .filling => s.front ≠ s.back ∧ s.published.length = s.seq
  | .next n => s.front ≠ s.back ∧ s.published.length = s.seq ∧ n = s.seq + 1
  | .stamped n =>
      s.front ≠ s.back ∧ s.published.length = s.seq ∧ n = s.seq + 1 ∧ (s.buf s.back).seq = n
  | .swapping n old =>
      s.front ≠ s.back ∧ s.published.length = s.seq ∧ n = s.seq + 1 ∧ (s.buf s.back).seq = n ∧
        old = s.front
  | .swapped n old => old ≠ s.front ∧ s.published.length = n
  | .stored old => old ≠ s.front ∧ s.published.length = s.seq
  | .released old => old ≠ s.front ∧ s.published.length = s.seq

/-- The pointers and counters are where the writer left them; nobody copies
the buffer the writer owns; whoever copies a buffer copies a published
snapshot, and has it right as far as the copy goes. -/
structure Shared.Inv (s : Shared F V) : Prop where
  writer : s.WriterInv
  free : s.writer.outside = true → s.writeLocked = false
  quiet : s.writer.owns = true → ∀ r, (s.reader r).copies ≠ some s.back
  holds : ∀ r b, r ∈ s.shared b ↔ (s.reader r).holds = some b
  out : s.published ≠ [] → s.buf s.front ∈ s.published
  copy : ∀ r b rest acc, s.reader r = .copying b rest acc →
    s.buf b ∈ s.published ∧ ∀ x, x ∈ rest ∨ acc.SameAt (s.buf b) x
  returned : ∀ v ∈ s.returned, v ∈ s.published
  seqs : ∀ k v, s.published[k]? = some v → v.seq = k + 1
  torn : s.torn = false

theorem Shared.Inv.start (init : F → V) : (Shared.start init).Inv where
  writer := ⟨Bool.false_ne_true, rfl⟩
  free _ := rfl
  quiet h := nomatch h
  holds r b := by simp [Shared.start, ReaderPc.holds]
  out h := absurd rfl h
  copy _ _ _ _ h := nomatch h
  returned _ h := nomatch h
  seqs _ _ h := nomatch h
  torn := rfl

theorem ReaderPc.holds_of_copies {pc : ReaderPc F V} {b : Bool} (h : pc.copies = some b) :
    pc.holds = some b := by
  cases pc with
  | copying c rest acc => exact h
  | idle => cases h
  | loaded c => cases h
  | locked c => cases h

theorem Shared.Inv.apart {s : Shared F V} (h : s.Inv) (ho : s.writer.owns = true) :
    s.front ≠ s.back := by
  have hw := h.writer
  unfold Shared.WriterInv at hw
  cases hpc : s.writer with
  | filling =>
    rw [hpc] at hw
    exact hw.1
  | next n =>
    rw [hpc] at hw
    exact hw.1
  | stamped n =>
    rw [hpc] at hw
    exact hw.1
  | swapping n old =>
    rw [hpc] at hw
    exact hw.1
  | start =>
    rw [hpc] at ho
    cases ho
  | swapped n old =>
    rw [hpc] at ho
    cases ho
  | stored old =>
    rw [hpc] at ho
    cases ho
  | released old =>
    rw [hpc] at ho
    cases ho

/-- A step of the writer that leaves the buffers, the readers and what they
see alone. -/
theorem Shared.Inv.writerStep {s s' : Shared F V} (h : s.Inv) (hw : s'.WriterInv)
    (hfree : s'.writer.outside = true → s'.writeLocked = false)
    (hq : s'.writer.owns = true → ∀ r, (s.reader r).copies ≠ some s'.back)
    (hbuf : s'.buf = s.buf) (hfront : s'.front = s.front) (hshared : s'.shared = s.shared)
    (hreader : s'.reader = s.reader) (hpub : s'.published = s.published)
    (hret : s'.returned = s.returned) (htorn : s'.torn = s.torn) : s'.Inv where
  writer := hw
  free := hfree
  quiet := by rw [hreader]; exact hq
  holds := by rw [hreader, hshared]; exact h.holds
  out := by rw [hpub, hbuf, hfront]; exact h.out
  copy := by rw [hreader, hbuf, hpub]; exact h.copy
  returned := by rw [hret, hpub]; exact h.returned
  seqs := by rw [hpub]; exact h.seqs
  torn := htorn.trans h.torn

theorem Shared.copied_eq_false {s : Shared F V} {b : Bool}
    (h : ∀ r, (s.reader r).copies ≠ some b) : s.copied b = false := by
  unfold Shared.copied
  rw [List.any_eq_false]
  intro r _ hr
  exact h r (by simpa using hr)

theorem Shared.Inv.modify {s : Shared F V} (h : s.Inv) (ho : s.writer.owns = true)
    (g : Snap F V → Snap F V) {pc : WriterPc} (hpc : pc.outside = false)
    (hw : ({ s.modify g with writer := pc } : Shared F V).WriterInv) :
    Shared.Inv { s.modify g with writer := pc } := by
  have hquiet := h.quiet ho
  have hbuf : ∀ b, b ≠ s.back → (s.modify g).buf b = s.buf b := fun b hb =>
    Function.update_of_ne hb _ _
  refine
    { writer := hw
      free := fun hout => by rw [hpc] at hout; cases hout
      quiet := fun _ => hquiet
      holds := h.holds
      out := fun hne => ?_
      copy := fun r b rest acc hr => ?_
      returned := h.returned
      seqs := h.seqs
      torn := ?_ }
  · exact (hbuf s.front (h.apart ho)).symm ▸ h.out hne
  · have hb : b ≠ s.back := by
      rintro rfl
      exact hquiet r (by rw [show s.reader r = _ from hr]; rfl)
    exact (hbuf b hb).symm ▸ h.copy r b rest acc hr
  · simp [Shared.modify, h.torn, Shared.copied_eq_false hquiet]

/-! ## The writer's steps -/

/-- What the writer must not do: take the back buffer without its lock while
it is being copied. -/
def Shared.Undisturbed (entry : Entry) (s : Shared F V) : Act F V → Prop
  | .take => entry = .back → ∀ r, (s.reader r).copies ≠ some s.back
  | .recheck _ => s.published ≠ []
  | _ => True

theorem Shared.Inv.take {entry : Entry} {s s' : Shared F V} (h : s.Inv) (hpc : s.writer = .start)
    (hok : s.Undisturbed entry .take) (hstep : s.take entry = some s') : s'.Inv := by
  have hw := h.writer
  unfold Shared.WriterInv at hw
  rw [hpc] at hw
  have hfree : s.writeLocked = false := h.free (by rw [hpc]; rfl)
  unfold Shared.take at hstep
  split at hstep
  · rename_i hentry
    cases hstep
    have hback : entry = .back := by
      rcases hentry with hb | hl
      · exact hb
      · rw [hfree] at hl
        cases hl
    exact h.writerStep hw (fun hout => nomatch hout) (fun _ => hok hback) rfl rfl rfl rfl rfl rfl rfl
  · split at hstep
    · rename_i hnone
      cases hstep
      refine h.writerStep hw (fun hout => nomatch hout) (fun _ r hr => ?_) rfl rfl rfl rfl rfl rfl rfl
      have hmem := (h.holds r s.back).mpr (ReaderPc.holds_of_copies hr)
      rw [hnone.2] at hmem
      cases hmem
    · cases hstep

theorem Shared.Inv.writerAt {s : Shared F V} (h : s.Inv) {pc : WriterPc} (hpc : s.writer = pc) :
    Shared.WriterInv { s with writer := pc } :=
  hpc ▸ h.writer

theorem Shared.Inv.fill [DecidableEq F] {s : Shared F V} (h : s.Inv) (hpc : s.writer = .filling) (f : F) (v : V) :
    (s.modify fun c => c.set f v).Inv := by
  have hm : Shared.Inv { s.modify (fun c => c.set f v) with writer := .filling } :=
    h.modify (by rw [hpc]; rfl) _ rfl (h.writerAt hpc)
  rw [← hpc] at hm
  exact hm

theorem Shared.Inv.loadSeq {s : Shared F V} (h : s.Inv) (hpc : s.writer = .filling) :
    Shared.Inv { s with writer := .next (s.seq + 1) } := by
  obtain ⟨hne, hlen⟩ := h.writerAt hpc
  exact h.writerStep ⟨hne, hlen, rfl⟩ (fun hout => nomatch hout) (fun _ => h.quiet (by rw [hpc]; rfl))
    rfl rfl rfl rfl rfl rfl rfl

theorem Shared.Inv.stamp {s : Shared F V} (h : s.Inv) {n : Nat} (hpc : s.writer = .next n) :
    Shared.Inv { s.modify (fun c => { c with seq := n }) with writer := .stamped n } := by
  obtain ⟨hne, hlen, hn⟩ := h.writerAt hpc
  have hseq : (Function.update s.buf s.back { s.buf s.back with seq := n } s.back).seq = n := by
    rw [Function.update_self]
  exact h.modify (by rw [hpc]; rfl) _ rfl ⟨hne, hlen, hn, hseq⟩

theorem Shared.Inv.loadFront {s : Shared F V} (h : s.Inv) {n : Nat} (hpc : s.writer = .stamped n) :
    Shared.Inv { s with writer := .swapping n s.front } := by
  obtain ⟨hne, hlen, hn, hseq⟩ := h.writerAt hpc
  exact h.writerStep ⟨hne, hlen, hn, hseq, rfl⟩ (fun hout => nomatch hout)
    (fun _ => h.quiet (by rw [hpc]; rfl)) rfl rfl rfl rfl rfl rfl rfl

theorem Shared.Inv.storeFront {s : Shared F V} (h : s.Inv) {n : Nat} {old : Bool}
    (hpc : s.writer = .swapping n old) :
    Shared.Inv { s with
      front := s.back
      published := s.published ++ [s.buf s.back]
      writer := .swapped n old } := by
  have hw := h.writer
  unfold Shared.WriterInv at hw
  rw [hpc] at hw
  obtain ⟨hne, hlen, hn, hseq, hold⟩ := hw
  refine
    { writer := ⟨?_, ?_⟩
      free := fun hout => nomatch hout
      quiet := fun ho => nomatch ho
      holds := h.holds
      out := fun _ => by simp
      copy := fun r b rest acc hr => ?_
      returned := fun v hv => List.mem_append_left _ (h.returned v hv)
      seqs := fun k v hk => ?_
      torn := h.torn }
  · rw [hold]
    exact hne
  · simp [hlen, hn]
  · obtain ⟨hmem, hsame⟩ := h.copy r b rest acc hr
    exact ⟨List.mem_append_left _ hmem, hsame⟩
  · rcases Nat.lt_trichotomy k s.published.length with hk' | rfl | hk'
    · rw [List.getElem?_append_left hk'] at hk
      exact h.seqs k v hk
    · rw [List.getElem?_append_right (Nat.le_refl _)] at hk
      simp only [Nat.sub_self, List.getElem?_cons_zero, Option.some.injEq] at hk
      rw [← hk, hseq, hn, hlen]
    · rw [List.getElem?_eq_none (by simp; omega)] at hk
      cases hk

theorem Shared.Inv.storeSeq {s : Shared F V} (h : s.Inv) {n : Nat} {old : Bool} (hpc : s.writer = .swapped n old) :
    Shared.Inv { s with seq := n, writer := .stored old } :=
  h.writerStep (h.writerAt hpc) (fun hout => nomatch hout) (fun ho => nomatch ho) rfl rfl rfl rfl rfl rfl rfl

theorem Shared.Inv.unlock {s : Shared F V} (h : s.Inv) {old : Bool} (hpc : s.writer = .stored old)
    (excl : Bool → Bool) : Shared.Inv { s with excl, writeLocked := false, writer := .released old } :=
  h.writerStep (h.writerAt hpc) (fun _ => rfl) (fun ho => nomatch ho) rfl rfl rfl rfl rfl rfl rfl

theorem Shared.Inv.flip {s : Shared F V} (h : s.Inv) {old : Bool} (hpc : s.writer = .released old) :
    Shared.Inv { s with back := old, writer := .start } := by
  obtain ⟨hne, hlen⟩ := h.writerAt hpc
  exact h.writerStep ⟨Ne.symm hne, hlen⟩ (fun _ => h.free (by rw [hpc]; rfl)) (fun ho => nomatch ho)
    rfl rfl rfl rfl rfl rfl rfl

/-! ## The readers' steps -/

theorem Shared.Inv.setReader {s : Shared F V} (h : s.Inv) (r : Nat) {pc : ReaderPc F V}
    {shared : Bool → List Nat} {returned : List (Snap F V)}
    (hholds : ∀ q b, q ∈ shared b ↔
      (Function.update s.reader r pc q).holds = some b)
    (hquiet : s.writer.owns = true → pc.copies ≠ some s.back)
    (hcopy : ∀ b rest acc, pc = .copying b rest acc →
      s.buf b ∈ s.published ∧ ∀ x, x ∈ rest ∨ acc.SameAt (s.buf b) x)
    (hret : ∀ v ∈ returned, v ∈ s.published) :
    Shared.Inv { s.setReader r pc with shared, returned } := by
  refine
    { writer := h.writer
      free := h.free
      quiet := fun ho q => ?_
      holds := hholds
      out := h.out
      copy := fun q b rest acc hq => ?_
      returned := hret
      seqs := h.seqs
      torn := h.torn }
  · by_cases hqr : q = r
    · subst hqr
      simp only [Shared.setReader, Function.update_self]
      exact hquiet ho
    · simp only [Shared.setReader, Function.update_of_ne hqr]
      exact h.quiet ho q
  · by_cases hqr : q = r
    · subst hqr
      simp only [Shared.setReader, Function.update_self] at hq
      exact hcopy b rest acc hq
    · simp only [Shared.setReader, Function.update_of_ne hqr] at hq
      exact h.copy q b rest acc hq

/-- The lock lists when reader `r` gets to `pc` and its entry in the list of
`b` follows. -/
theorem Shared.Inv.holds_update {s : Shared F V} (h : s.Inv) {r : Nat} {pc : ReaderPc F V}
    (hpc : pc.holds = (s.reader r).holds) (q : Nat) (b : Bool) :
    q ∈ s.shared b ↔ (Function.update s.reader r pc q).holds = some b := by
  rw [h.holds q b]
  by_cases hqr : q = r
  · subst hqr
    rw [Function.update_self, hpc]
  · rw [Function.update_of_ne hqr]

theorem Shared.Inv.holds_lock {s : Shared F V} (h : s.Inv) {r : Nat} {c : Bool}
    (hpc : (s.reader r).holds = none) (q : Nat) (b : Bool) :
    q ∈ Function.update s.shared c (r :: s.shared c) b ↔
      (Function.update s.reader r (.locked c) q).holds = some b := by
  by_cases hbc : b = c
  · subst hbc
    by_cases hqr : q = r
    · subst hqr
      simp [ReaderPc.holds]
    · simp [hqr, h.holds q b]
  · rw [Function.update_of_ne hbc, h.holds q b]
    by_cases hqr : q = r
    · subst hqr
      rw [Function.update_self, hpc]
      simp [ReaderPc.holds, Ne.symm hbc]
    · rw [Function.update_of_ne hqr]

theorem Shared.Inv.holds_unlock {s : Shared F V} (h : s.Inv) {r : Nat} {c : Bool}
    (hpc : (s.reader r).holds = some c) (q : Nat) (b : Bool) :
    q ∈ Function.update s.shared c ((s.shared c).filter fun q => q != r) b ↔
      (Function.update s.reader r .idle q).holds = some b := by
  by_cases hqr : q = r
  · subst hqr
    rw [Function.update_self]
    by_cases hbc : b = c
    · subst hbc
      simp [ReaderPc.holds]
    · rw [Function.update_of_ne hbc, h.holds q b, hpc]
      simp [ReaderPc.holds, Ne.symm hbc]
  · rw [Function.update_of_ne hqr, ← h.holds q b]
    by_cases hbc : b = c
    · subst hbc
      simp [hqr]
    · rw [Function.update_of_ne hbc]

theorem Shared.Inv.load {s : Shared F V} (h : s.Inv) {r : Nat} (hpc : s.reader r = .idle) :
    (s.setReader r (.loaded s.front)).Inv :=
  h.setReader r (h.holds_update (by rw [hpc]; rfl)) (fun _ hc => nomatch hc) (fun _ _ _ hc => nomatch hc) h.returned

theorem Shared.Inv.lockShared {s : Shared F V} (h : s.Inv) {r : Nat} {b : Bool} (hpc : s.reader r = .loaded b) :
    Shared.Inv { s.setReader r (.locked b) with shared := Function.update s.shared b (r :: s.shared b) } :=
  h.setReader r (h.holds_lock (by rw [hpc]; rfl)) (fun _ hc => nomatch hc) (fun _ _ _ hc => nomatch hc) h.returned

/-- The second look finds the buffer in front: it is not the writer's, and what
is in it has been published. -/
theorem Shared.Inv.recheck {s : Shared F V} (h : s.Inv) (L : Layout F V) {r : Nat} {b : Bool}
    (hpc : s.reader r = .locked b) (hfront : s.front = b) (hpub : s.published ≠ []) :
    (s.setReader r (.copying b L.items L.blank)).Inv := by
  refine h.setReader r (h.holds_update (by rw [hpc]; rfl)) ?_ ?_ h.returned
  · intro ho hc
    refine h.apart ho ?_
    rw [hfront]
    exact Option.some.inj hc
  · intro c rest acc hc
    cases hc
    exact ⟨hfront ▸ h.out hpub, fun x => Or.inl (L.complete x)⟩

theorem Shared.Inv.giveUp {s : Shared F V} (h : s.Inv) {r : Nat} {b : Bool} (hpc : s.reader r = .locked b) :
    ((s.unlockShared r b).setReader r .idle).Inv :=
  h.setReader r (h.holds_unlock (by rw [hpc]; rfl)) (fun _ hc => nomatch hc) (fun _ _ _ hc => nomatch hc) h.returned

theorem Shared.Inv.copyItem [DecidableEq F] {s : Shared F V} (h : s.Inv) {r : Nat} {b : Bool} {x : Option F}
    {rest : List (Option F)} {acc : Snap F V} (hpc : s.reader r = .copying b (x :: rest) acc) :
    (s.setReader r (.copying b rest ((s.buf b).copyItem acc x))).Inv := by
  obtain ⟨hmem, hsame⟩ := h.copy r b (x :: rest) acc hpc
  refine h.setReader r (h.holds_update (by rw [hpc]; rfl)) ?_ ?_ h.returned
  · intro ho hc
    refine h.quiet ho r ?_
    rw [hpc]
    exact hc
  · intro c rest' acc' hc
    cases hc
    refine ⟨hmem, fun y => ?_⟩
    rcases hsame y with hy | hy
    · rcases List.mem_cons.mp hy with rfl | hy
      · exact Or.inr ((s.buf b).copyItem_self acc y)
      · exact Or.inl hy
    · exact Or.inr ((s.buf b).copyItem_other acc hy)

theorem Shared.Inv.finish {s : Shared F V} (h : s.Inv) {r : Nat} {b : Bool} {acc : Snap F V}
    (hpc : s.reader r = .copying b [] acc) :
    Shared.Inv { (s.unlockShared r b).setReader r .idle with returned := s.returned ++ [acc] } := by
  obtain ⟨hmem, hsame⟩ := h.copy r b [] acc hpc
  have hacc : acc = s.buf b := by
    refine Snap.eq_of_sameAt fun x => ?_
    rcases hsame x with hx | hx
    · cases hx
    · exact hx
  refine h.setReader r (h.holds_unlock (by rw [hpc]; rfl)) (fun _ hc => nomatch hc)
    (fun _ _ _ hc => nomatch hc) fun v hv => ?_
  rcases List.mem_append.mp hv with hv | hv
  · exact h.returned v hv
  · rw [List.mem_singleton.mp hv, hacc]
    exact hmem

/-! ## Runs -/

section

variable [DecidableEq F]

theorem Shared.Inv.step {L : Layout F V} {entry : Entry} {s s' : Shared F V} {a : Act F V}
    (h : s.Inv) (hok : s.Undisturbed entry a) (hstep : s.step L entry a = some s') : s'.Inv := by
  unfold Shared.step at hstep
  cases a with
  | take =>
    simp only at hstep
    split at hstep
    · exact h.take ‹_› hok hstep
    · cases hstep
  | fill f v =>
    simp only at hstep
    split at hstep
    · cases hstep
      exact h.fill ‹_› f v
    · cases hstep
  | loadSeq =>
    simp only at hstep
    split at hstep
    · cases hstep
      exact h.loadSeq ‹_›
    · cases hstep
  | stamp =>
    simp only at hstep
    split at hstep
    · cases hstep
      exact h.stamp ‹_›
    · cases hstep
  | loadFront =>
    simp only at hstep
    split at hstep
    · cases hstep
      exact h.loadFront ‹_›
    · cases hstep
  | storeFront =>
    simp only at hstep
    split at hstep
    · cases hstep
      exact h.storeFront ‹_›
    · cases hstep
  | storeSeq =>
    simp only at hstep
    split at hstep
    · cases hstep
      exact h.storeSeq ‹_›
    · cases hstep
  | unlock =>
    simp only at hstep
    split at hstep
    · cases hstep
      exact h.unlock ‹_› _
    · cases hstep
  | flip =>
    simp only at hstep
    split at hstep
    · cases hstep
      exact h.flip ‹_›
    · cases hstep
  | load r =>
    simp only at hstep
    split at hstep
    · cases hstep
      exact h.load ‹_›
    · cases hstep
  | lockShared r =>
    simp only at hstep
    split at hstep
    · split at hstep
      · cases hstep
      · cases hstep
        exact h.lockShared ‹_›
    · cases hstep
  | recheck r =>
    simp only at hstep
    split at hstep
    · split at hstep
      · cases hstep
        exact h.recheck L ‹_› ‹_› hok
      · cases hstep
        exact h.giveUp ‹_›
    · cases hstep
  | copy r =>
    simp only at hstep
    split at hstep
    · cases hstep
      exact h.copyItem ‹_›
    · cases hstep
  | finish r =>
    simp only at hstep
    split at hstep
    · cases hstep
      exact h.finish ‹_›
    · cases hstep

/-- In a run in which `back` is taken only while nobody copies that buffer,
and nothing is copied before the first publish, no copy is disturbed and every
value returned is exactly one of the published snapshots. Through
`begin_write` the first condition is not needed: its lock sees to it. -/
theorem doubleBuffer_safe (L : Layout F V) (entry : Entry) (init : F → V) {s : Shared F V}
    {as : List (Act F V)} (hrun : run (Shared.step L entry) (.start init) as = some s)
    (hok : Meets (Shared.step L entry) (Shared.Undisturbed entry) (.start init) as) :
    s.torn = false ∧ ∀ v ∈ s.returned, ∃ k : Nat, s.published[k]? = some v ∧
      ∀ j : Nat, s.published[j]? = some v → j = k := by
  have hinv : s.Inv := run_keeps (fun _ _ _ hI ho hs => Shared.Inv.step hI ho hs) hok hrun
    (.start init)
  refine ⟨hinv.torn, fun v hv => ?_⟩
  obtain ⟨k, hk⟩ := List.mem_iff_getElem?.mp (hinv.returned v hv)
  refine ⟨k, hk, fun j hj => ?_⟩
  have hseq := hinv.seqs k v hk
  rw [hinv.seqs j v hj] at hseq
  omega

end

/-! ## A slow reader -/

def pairLayout : Layout Bool Nat where
  items := [some false, some true, none]
  complete x := by
    cases x with
    | none => decide
    | some f => cases f <;> decide
  blank := { fields := fun _ => 0, seq := 0 }

/-- One turn of the collector's loop, with `v` in both fields. -/
def publishBoth (v : Nat) : List (Act Bool Nat) :=
  [.take, .fill false v, .fill true v, .loadSeq, .stamp, .loadFront, .storeFront, .storeSeq,
    .unlock, .flip]

/-- A reader that copies one field, waits for `acts`, and copies the rest. -/
def readAround (acts : List (Act Bool Nat)) : List (Act Bool Nat) :=
  [.load 0, .lockShared 0, .recheck 0, .copy 0] ++ acts ++ [.copy 0, .copy 0, .finish 0]

theorem doubleBuffer_safe_once :
    ∃ s, run (Shared.step pairLayout .back) (.start fun _ => 0)
        (publishBoth 1 ++ readAround []) = some s ∧
      (s.torn = false ∧ ∀ v ∈ s.returned, ∃ k : Nat, s.published[k]? = some v ∧
        ∀ j : Nat, s.published[j]? = some v → j = k) := by
  have hok : Meets (Shared.step pairLayout .back) (Shared.Undisturbed .back) (.start fun _ => 0)
      (publishBoth 1 ++ readAround []) := by
    refine meets_cons (fun _ _ hc => nomatch hc) rfl ?_
    -- the other steps of the writer, and the reader up to its second look
    iterate 11 refine meets_cons trivial rfl ?_
    refine meets_cons (List.cons_ne_nil _ _) rfl ?_
    iterate 4 refine meets_cons trivial rfl ?_
    exact meets_nil
  exact ⟨_, rfl, doubleBuffer_safe pairLayout .back (fun _ => 0) rfl hok⟩

/-- Two publishes around a slow reader overrun it. -/
theorem doubleBuffer_overrun :
    ¬ ∀ (L : Layout Bool Nat) (init : Bool → Nat) (s : Shared Bool Nat) (as : List (Act Bool Nat)),
      run (Shared.step L .back) (.start init) as = some s →
      s.torn = false ∧ ∀ v ∈ s.returned, v ∈ s.published := by
  intro h
  have hrun : ∃ s, run (Shared.step pairLayout .back) (.start fun _ => 0)
      (publishBoth 1 ++ readAround (publishBoth 2 ++ publishBoth 3)) = some s ∧ s.torn = true :=
    ⟨_, rfl, rfl⟩
  obtain ⟨s, hs, htorn⟩ := hrun
  rw [(h pairLayout (fun _ => 0) s _ hs).1] at htorn
  cases htorn

end Montauk.App
