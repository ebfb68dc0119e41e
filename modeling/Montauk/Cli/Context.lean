import Mathlib.Algebra.Order.Ring.Int
import Montauk.Machine.Lines
import Montauk.Machine.Ring
import Montauk.Text.Bytes

/-!
# Context lines

`search` with `-A`, `-B` or `-C` prints each file in one pass: a line that is
not selected waits in a ring of `B` lines unless one of the `A` lines behind a
selected one is still to come, and a selected line prints what waits.

The lines printed are those in the windows of the selected ones
(`shownRows`), with a `--` where they are not consecutive (`withSeps`). The ring
is allocated unchecked, so all of this holds when there is memory for it
(`ctxSearch_iff`).
-/

namespace Montauk.Cli

open Lines Ch

/-! ## The loop -/

/-- `CtxLine`. -/
structure CtxLine where
  data : List UInt8
  lineno : Nat

/-- What is printed: the separator, or a line with its number and the mark that
`emit_prefix` puts behind it. -/
inductive Out where
  | sep
  | row (mark : UInt8) (lineno : Nat) (text : List UInt8)

/-- The context state of a file. -/
structure CtxState where
  ring : List (Option CtxLine)
  ringN : Nat
  ringNext : Nat
  lastPrintedLine : Nat
  afterRemaining : Nat
  printedAny : Bool
  out : List Out

/-- `sizeof(CtxLine)`. -/
def sizeofCtxLine : Nat := 24

/-- `calloc(n, size)` has memory to give: the product fits a `size_t`, and
`mem` says whether so many bytes are there. -/
def callocOk (mem : Nat → Bool) (n size : Nat) : Bool := decide (n * size < 2 ^ 64) && mem (n * size)

/-- `ring[i]`, which has been written. -/
def CtxState.ringAt (st : CtxState) (i : Nat) : Option CtxLine := (st.ring[i]?).join

/-- A line of the ring, with a newline if it has none. -/
def CtxLine.out (l : CtxLine) : Out :=
  .row 0x2d l.lineno (if l.data = [] ∨ l.data.getLast? ≠ some newline then l.data ++ [newline] else l.data)

/-- The branch `if (want_ctx)` of a selected line. -/
def ctxBefore (st : CtxState) (lineno : Nat) : Option CtxState := do
  let cap := st.ring.length
  let first ← (if 0 < st.ringN then
      (st.ringAt ((st.ringNext + cap - st.ringN) % cap)).map CtxLine.lineno
    else some lineno)
  let sep :=
    if st.printedAny && (st.lastPrintedLine == 0 || first != st.lastPrintedLine + 1) then [Out.sep]
    else []
  let rows ← (List.range st.ringN).mapM fun k =>
    (st.ringAt ((st.ringNext + cap - st.ringN + k) % cap)).map CtxLine.out
  some { st with out := st.out ++ sep ++ rows, ringN := 0, lastPrintedLine := lineno }

def ctxSelected (A B : Nat) (st : CtxState) (lineno : Nat) (text : List UInt8) : Option CtxState := do
  let st ← (if 0 < A ∨ 0 < B then ctxBefore st lineno else some st)
  some { st with
    printedAny := true
    out := st.out ++ [.row 0x3a lineno text]
    afterRemaining := if 0 < A ∨ 0 < B then A else st.afterRemaining }

def ctxOther (A B : Nat) (st : CtxState) (lineno : Nat) (text : List UInt8) : CtxState :=
  if 0 < A ∨ 0 < B then
    if 0 < st.afterRemaining then
      { st with
        printedAny := true
        out := st.out ++ [.row 0x2d lineno text]
        afterRemaining := st.afterRemaining - 1
        lastPrintedLine := lineno }
    else if 0 < st.ring.length then
      { st with
        ring := st.ring.set st.ringNext (some ⟨text, lineno⟩)
        ringNext := (st.ringNext + 1) % st.ring.length
        ringN := if st.ringN < st.ring.length then st.ringN + 1 else st.ringN }
    else st
  else st

/-- The lines behind line `t`. -/
def ctxLoop (A B : Nat) (sel : Nat → Bool) : Nat → CtxState → List (List UInt8) → Option CtxState
  | _, st, [] => some st
  | t, st, text :: rest => do
      let st ← (if sel (t + 1) then ctxSelected A B st (t + 1) text
        else some (ctxOther A B st (t + 1) text))
      ctxLoop A B sel (t + 1) st rest

/-- The serial search of one file for the lines `sel`. The ring is cleared
before the first line, through NULL if it is not there. -/
def ctxSearch (mem : Nat → Bool) (A B : Nat) (sel : Nat → Bool) (content : List UInt8) :
    Option (List Out) :=
  if 0 < B ∧ callocOk mem B sizeofCtxLine = false then none
  else (ctxLoop A B sel 0 ⟨List.replicate B none, 0, 0, 0, 0, false, []⟩ (lines newline content)).map
    CtxState.out

/-! ## What is to be printed -/

structure Row where
  lineno : Nat
  text : List UInt8
  hit : Bool

/-- Selected lines are marked with `:`, context with `-`. -/
def Row.out (r : Row) : Out := .row (if r.hit then 0x3a else 0x2d) r.lineno r.text

/-- The lines behind line `t`. -/
def numbered (sel : Nat → Bool) : Nat → List (List UInt8) → List Row
  | _, [] => []
  | t, text :: rest => ⟨t + 1, text, sel (t + 1)⟩ :: numbered sel (t + 1) rest

/-- Line `r` is in the window of a selected line. -/
def inWindow (A B : Nat) (rows : List Row) (r : Row) : Bool :=
  rows.any fun s => s.hit && decide (s.lineno ≤ r.lineno + B ∧ r.lineno ≤ s.lineno + A)

/-- The lines in the windows of the selected ones. -/
def shownRows (A B : Nat) (rows : List Row) : List Row := rows.filter (inWindow A B rows)

/-- The lines with a separator between two that are not consecutive; `last` is
the line in front, 0 when there is none. -/
def withSeps : Nat → List Row → List Out
  | _, [] => []
  | last, r :: rows =>
      (if last ≠ 0 ∧ r.lineno ≠ last + 1 then [Out.sep] else []) ++ r.out :: withSeps r.lineno rows

/-! ## The lines that wait -/

/-- What is printed of the lines behind line `t`, with those in front of it
that wait: `after` more lines, and the windows of the selected lines to come. -/
def toShow (A B t after : Nat) (rows : List Row) : List Row :=
  rows.filter fun r => decide (t < r.lineno ∧ r.lineno ≤ t + after) || inWindow A B rows r

def CtxLine.row (l : CtxLine) : Row := ⟨l.lineno, l.data, false⟩

variable {A B t : Nat} {sel : Nat → Bool} {st : CtxState} {q : List CtxLine}

theorem lineno_numbered {rest : List (List UInt8)} {r : Row} (h : r ∈ numbered sel t rest) :
    t < r.lineno := by
  induction rest generalizing t with
  | nil => exact absurd h List.not_mem_nil
  | cons text rest ih =>
      rcases List.mem_cons.mp h with rfl | h
      · exact Nat.lt_succ_self t
      · exact Nat.lt_of_succ_lt (ih h)

theorem out_of_terminated {l : CtxLine} (h : l.data.getLast? = some newline) : l.out = l.row.out := by
  have hne : ¬ (l.data = [] ∨ l.data.getLast? ≠ some newline) := by
    rintro (hnil | hlast)
    · rw [hnil] at h
      exact absurd h nofun
    · exact hlast h
  rw [CtxLine.out, if_neg hne]
  rfl

theorem withSeps_run {run rows : List Row} {first : Nat} (last : Nat) (hne : run ≠ [])
    (h : run.map Row.lineno = List.range' first run.length) :
    withSeps last (run ++ rows) = (if last ≠ 0 ∧ first ≠ last + 1 then [Out.sep] else [])
      ++ run.map Row.out ++ withSeps (first + run.length - 1) rows := by
  induction run generalizing last first with
  | nil => exact absurd rfl hne
  | cons r run ih =>
      rw [List.map_cons, List.length_cons, List.range'_succ] at h
      obtain ⟨rfl, htail⟩ := List.cons.inj h
      rw [List.cons_append, withSeps, List.map_cons, List.append_assoc, List.cons_append]
      congr 2
      cases run with
      | nil => rfl
      | cons r' run =>
          have hfirst : ¬ (r.lineno ≠ 0 ∧ r.lineno + 1 ≠ r.lineno + 1) := fun hsep => hsep.2 rfl
          rw [ih r.lineno (List.cons_ne_nil _ _) htail, if_neg hfirst, List.nil_append]
          have hend : r.lineno + 1 + (r' :: run).length - 1 = r.lineno + (r' :: run).length := by omega
          rw [hend]
          rfl

/-- The state in front of the lines behind line `t`, with `q` waiting. -/
structure Waiting (A B t : Nat) (st : CtxState) (q : List CtxLine) : Prop where
  ring : Ring.Holds st.ring st.ringNext q
  cap : st.ring.length = B
  count : st.ringN = q.length
  numbers : q.map CtxLine.lineno = List.range' (t + 1 - q.length) q.length
  le : q.length ≤ t
  printed : st.printedAny = decide (st.lastPrintedLine ≠ 0)
  after : st.afterRemaining ≤ A
  behind : 0 < st.afterRemaining → q = [] ∧ st.lastPrintedLine = t

theorem waiting_start (A B : Nat) :
    Waiting A B 0 ⟨List.replicate B none, 0, 0, 0, 0, false, []⟩ [] where
  ring := ⟨fun h => h, Nat.zero_le _, fun _ _ h => absurd h nofun⟩
  cap := List.length_replicate
  count := rfl
  numbers := rfl
  le := Nat.le_refl 0
  printed := rfl
  after := Nat.zero_le A
  behind h := absurd h (Nat.lt_irrefl 0)

theorem inWindow_append (rows : List Row) (r : Row) :
    inWindow A B (q.map CtxLine.row ++ rows) r = inWindow A B rows r := by
  rw [inWindow, List.any_append]
  have hnone : (q.map CtxLine.row).any
      (fun s => s.hit && decide (s.lineno ≤ r.lineno + B ∧ r.lineno ≤ s.lineno + A)) = false := by
    rw [List.any_map, List.any_eq_false]
    rintro l -
    exact Bool.false_ne_true
  rw [hnone, Bool.false_or, inWindow]

theorem inWindow_cons (s : Row) (rows : List Row) (r : Row) :
    inWindow A B (s :: rows) r
      = (s.hit && decide (s.lineno ≤ r.lineno + B ∧ r.lineno ≤ s.lineno + A) || inWindow A B rows r) :=
  rfl

/-- A line too far in front of the lines that come is in none of their windows. -/
theorem not_inWindow_numbered {rest : List (List UInt8)} {r : Row} (h : r.lineno + B ≤ t) :
    inWindow A B (numbered sel t rest) r = false := by
  rw [inWindow, List.any_eq_false]
  intro s hs hwin
  have hline := lineno_numbered hs
  have hnear := of_decide_eq_true (Bool.and_eq_true_iff.mp hwin).2
  omega

theorem Waiting.lineno_le (h : Waiting A B t st q) {l : CtxLine} (hl : l ∈ q) :
    l.lineno ≤ t ∧ t < l.lineno + q.length := by
  have hmem : l.lineno ∈ q.map CtxLine.lineno := List.mem_map_of_mem hl
  rw [h.numbers, List.mem_range'_1] at hmem
  have := h.le
  omega

theorem Waiting.length_le (h : Waiting A B t st q) : q.length ≤ B := by
  rw [← h.cap]
  exact h.ring.fits

theorem Waiting.numbers_concat (h : Waiting A B t st q) (text : List UInt8) :
    (q ++ [CtxLine.mk text (t + 1)]).map CtxLine.lineno
      = List.range' (t + 1 - q.length) (q.length + 1) := by
  have hend : t + 1 - q.length + q.length = t + 1 := Nat.sub_add_cancel (Nat.le_succ_of_le h.le)
  rw [List.map_append, h.numbers, List.range'_concat, Nat.one_mul, hend]
  rfl

/-! ## One line -/

theorem toShow_nil (h : Waiting A B t st q) :
    toShow A B t st.afterRemaining (q.map CtxLine.row ++ numbered sel t []) = [] := by
  rw [toShow, List.filter_eq_nil_iff]
  intro r hr
  rw [numbered, List.append_nil] at hr
  obtain ⟨l, hl, rfl⟩ := List.mem_map.mp hr
  have hle := (h.lineno_le hl).1
  have hno : inWindow A B [] l.row = false := rfl
  rw [inWindow_append, numbered, hno, Bool.or_false, decide_eq_true_iff]
  exact fun hlt => absurd hlt.1 (Nat.not_lt.mpr hle)

theorem toShow_selected {rest : List (List UInt8)} {text : List UInt8} (h : Waiting A B t st q)
    (hsel : sel (t + 1) = true) :
    toShow A B t st.afterRemaining (q.map CtxLine.row ++ numbered sel t (text :: rest))
      = q.map CtxLine.row ++ ⟨t + 1, text, true⟩ :: toShow A B (t + 1) A (numbered sel (t + 1) rest) := by
  have hlen := h.length_le
  have hafter := h.after
  have hkept : ∀ r : Row, t + 1 ≤ r.lineno + B ∧ r.lineno ≤ t + 1 + A →
      inWindow A B (q.map CtxLine.row ++ numbered sel t (text :: rest)) r = true := by
    intro r hnear
    have hone : decide (t + 1 ≤ r.lineno + B ∧ r.lineno ≤ t + 1 + A) = true := decide_eq_true hnear
    rw [inWindow_append, numbered, inWindow_cons, hsel, Bool.true_and, hone, Bool.true_or]
  rw [toShow, List.filter_append]
  congr 1
  · rw [List.filter_eq_self]
    intro r hr
    obtain ⟨l, hl, rfl⟩ := List.mem_map.mp hr
    have hl' := h.lineno_le hl
    have hno : l.row.lineno = l.lineno := rfl
    rw [hkept l.row (by omega), Bool.or_true]
  · have hhead := hkept ⟨t + 1, text, true⟩ ⟨Nat.le_add_right _ _, Nat.le_add_right _ _⟩
    rw [numbered, hsel]
    rw [numbered, hsel] at hhead
    rw [List.filter_cons_of_pos (by rw [hhead, Bool.or_true])]
    congr 1
    refine List.filter_congr fun r hr => ?_
    have hline := lineno_numbered hr
    rw [inWindow_append, inWindow_cons, Bool.true_and, ← Bool.or_assoc]
    congr 1
    rw [← Bool.decide_or, decide_eq_decide]
    dsimp only
    omega

theorem toShow_after {rest : List (List UInt8)} {text : List UInt8} {after : Nat}
    (hsel : sel (t + 1) = false) (hafter : 0 < after) :
    toShow A B t after (numbered sel t (text :: rest))
      = ⟨t + 1, text, false⟩ :: toShow A B (t + 1) (after - 1) (numbered sel (t + 1) rest) := by
  rw [toShow, numbered, hsel, List.filter_cons_of_pos]
  · congr 1
    refine List.filter_congr fun r hr => ?_
    have hline := lineno_numbered hr
    rw [inWindow_cons, Bool.false_and, Bool.false_or]
    congr 1
    rw [decide_eq_decide]
    omega
  · rw [decide_eq_true (by dsimp only; omega), Bool.true_or]

theorem toShow_waits {rest : List (List UInt8)} {text : List UInt8} (h : Waiting A B t st q)
    (hsel : sel (t + 1) = false) :
    toShow A B t 0 (q.map CtxLine.row ++ numbered sel t (text :: rest))
      = toShow A B (t + 1) 0
          ((Ring.pushed B q ⟨text, t + 1⟩).map CtxLine.row ++ numbered sel (t + 1) rest) := by
  have hrows : q.map CtxLine.row ++ numbered sel t (text :: rest)
      = (q ++ [CtxLine.mk text (t + 1)]).map CtxLine.row ++ numbered sel (t + 1) rest := by
    rw [List.map_append, List.append_assoc, numbered, hsel]
    rfl
  have hsame : ∀ (u : Nat) (p : List CtxLine),
      toShow A B u 0 (p.map CtxLine.row ++ numbered sel (t + 1) rest)
        = (p.map CtxLine.row).filter (inWindow A B (numbered sel (t + 1) rest))
          ++ (numbered sel (t + 1) rest).filter (inWindow A B (numbered sel (t + 1) rest)) := by
    intro u p
    rw [toShow, ← List.filter_append]
    refine List.filter_congr fun r _ => ?_
    rw [inWindow_append, decide_eq_false (by omega), Bool.false_or]
  rw [hrows, hsame, hsame]
  congr 1
  -- the lines that fall out
  have hout : (((q ++ [CtxLine.mk text (t + 1)]).take (q.length + 1 - B)).map CtxLine.row).filter
      (inWindow A B (numbered sel (t + 1) rest)) = [] := by
    rw [List.filter_eq_nil_iff]
    intro r hr
    obtain ⟨l, hl, rfl⟩ := List.mem_map.mp hr
    have hline : l.lineno ∈ List.range' (t + 1 - q.length) (q.length + 1 - B) := by
      have hmem := List.mem_map_of_mem (f := CtxLine.lineno) hl
      rwa [List.map_take, h.numbers_concat, List.take_range'_of_length_ge (Nat.sub_le _ _)] at hmem
    rw [List.mem_range'_1] at hline
    have hle := h.le
    have hlen := h.length_le
    have hno : l.row.lineno = l.lineno := rfl
    rw [not_inWindow_numbered (by omega)]
    exact Bool.false_ne_true
  rw [Ring.pushed, ← List.nil_append ((List.map CtxLine.row (List.drop _ _)).filter _), ← hout,
    ← List.filter_append, ← List.map_append, List.take_append_drop]

/-! ## The loop -/

theorem ctxBefore_eq (h : Waiting A B t st q) :
    ctxBefore st (t + 1) = some { st with
      out := st.out ++ (if st.lastPrintedLine ≠ 0 ∧ t + 1 - q.length ≠ st.lastPrintedLine + 1
        then [Out.sep] else []) ++ q.map CtxLine.out
      ringN := 0
      lastPrintedLine := t + 1 } := by
  have hfirst : (if 0 < st.ringN then
      (st.ringAt ((st.ringNext + st.ring.length - st.ringN) % st.ring.length)).map CtxLine.lineno
      else some (t + 1)) = some (t + 1 - q.length) := by
    rw [h.count]
    cases q with
    | nil => rfl
    | cons l q =>
        have hcell := h.ring.held 0 l rfl
        have hline : l.lineno = t + 1 - (l :: q).length := (List.cons.inj h.numbers).1
        rw [Ring.cellOf, Nat.add_zero] at hcell
        rw [if_pos (List.length_pos_iff.mpr (List.cons_ne_nil l q)), CtxState.ringAt, hcell, ← hline]
        rfl
  have hrows := h.ring.mapM CtxLine.out
  rw [← h.count] at hrows
  have hsep : (if st.printedAny && (st.lastPrintedLine == 0 || t + 1 - q.length != st.lastPrintedLine + 1)
      then [Out.sep] else [])
      = if st.lastPrintedLine ≠ 0 ∧ t + 1 - q.length ≠ st.lastPrintedLine + 1 then [Out.sep] else [] := by
    rw [h.printed]
    by_cases hzero : st.lastPrintedLine = 0
    · simp [hzero]
    · simp [hzero]
  rw [ctxBefore]
  dsimp only
  rw [hfirst, Option.bind_eq_bind, Option.bind_some, hsep]
  refine Option.bind_eq_some_iff.mpr ⟨q.map CtxLine.out, hrows, rfl⟩

theorem ctxSelected_spec (text : List UInt8) (hAB : A ≠ 0 ∨ B ≠ 0) (h : Waiting A B t st q)
    (hq : ∀ l ∈ q, l.data.getLast? = some newline) (rows : List Row) :
    ∃ st', ctxSelected A B st (t + 1) text = some st' ∧ Waiting A B (t + 1) st' [] ∧
      st'.afterRemaining = A ∧
      st.out ++ withSeps st.lastPrintedLine (q.map CtxLine.row ++ ⟨t + 1, text, true⟩ :: rows)
        = st'.out ++ withSeps st'.lastPrintedLine rows := by
  have hwant : 0 < A ∨ 0 < B := hAB.imp Nat.pos_of_ne_zero Nat.pos_of_ne_zero
  have hrun : ctxSelected A B st (t + 1) text = some { st with
      out := st.out ++ (if st.lastPrintedLine ≠ 0 ∧ t + 1 - q.length ≠ st.lastPrintedLine + 1
        then [Out.sep] else []) ++ q.map CtxLine.out ++ [.row 0x3a (t + 1) text]
      ringN := 0
      lastPrintedLine := t + 1
      printedAny := true
      afterRemaining := A } := by
    rw [ctxSelected, if_pos hwant, ctxBefore_eq h, Option.bind_eq_bind, Option.bind_some, if_pos hwant]
  refine ⟨_, hrun, ?_, rfl, ?_⟩
  · exact {
      ring := h.ring.clear
      cap := h.cap
      count := rfl
      numbers := rfl
      le := Nat.zero_le _
      printed := rfl
      after := Nat.le_refl A
      behind := fun _ => ⟨rfl, rfl⟩ }
  · have hlines : (q.map CtxLine.row ++ [Row.mk (t + 1) text true]).map Row.lineno
        = List.range' (t + 1 - q.length) (q.map CtxLine.row ++ [Row.mk (t + 1) text true]).length := by
      rw [List.length_append, List.length_map, List.length_singleton, ← h.numbers_concat text,
        List.map_append, List.map_append, List.map_map]
      rfl
    have hout : (q.map CtxLine.row).map Row.out = q.map CtxLine.out := by
      rw [List.map_map]
      exact List.map_congr_left fun l hl => (out_of_terminated (hq l hl)).symm
    have hlast : t + 1 - q.length + (q.map CtxLine.row ++ [Row.mk (t + 1) text true]).length - 1
        = t + 1 := by
      have hle := h.le
      rw [List.length_append, List.length_map, List.length_singleton]
      omega
    have hsplit : q.map CtxLine.row ++ Row.mk (t + 1) text true :: rows
        = (q.map CtxLine.row ++ [Row.mk (t + 1) text true]) ++ rows := by
      rw [List.append_assoc, List.singleton_append]
    rw [hsplit, withSeps_run _ (List.append_ne_nil_of_right_ne_nil _ (List.cons_ne_nil _ _)) hlines,
      hlast, List.map_append, hout]
    simp only [List.append_assoc]
    rfl

theorem ctxOther_waits (text : List UInt8) (hAB : A ≠ 0 ∨ B ≠ 0) (h : Waiting A B t st q)
    (hafter : st.afterRemaining = 0) :
    ∃ st', ctxOther A B st (t + 1) text = st' ∧ Waiting A B (t + 1) st' (Ring.pushed B q ⟨text, t + 1⟩) ∧
      st'.out = st.out ∧ st'.lastPrintedLine = st.lastPrintedLine ∧ st'.afterRemaining = 0 := by
  have hwant : 0 < A ∨ 0 < B := hAB.imp Nat.pos_of_ne_zero Nat.pos_of_ne_zero
  have hnone : ¬ 0 < st.afterRemaining := by omega
  have hlen := h.length_le
  have hle := h.le
  have hpushed : (Ring.pushed B q ⟨text, t + 1⟩).length + (q.length + 1 - B) = q.length + 1 := by
    rw [Ring.pushed, List.length_drop, List.length_append, List.length_singleton]
    omega
  have hnumbers : (Ring.pushed B q ⟨text, t + 1⟩).map CtxLine.lineno
      = List.range' (t + 1 + 1 - (Ring.pushed B q ⟨text, t + 1⟩).length)
          (Ring.pushed B q ⟨text, t + 1⟩).length := by
    have hcount : q.length + 1 - (q.length + 1 - B) = (Ring.pushed B q ⟨text, t + 1⟩).length := by omega
    have hfirst : t + 1 - q.length + (q.length + 1 - B) * 1
        = t + 1 + 1 - (Ring.pushed B q ⟨text, t + 1⟩).length := by omega
    rw [← hfirst, ← hcount, Ring.pushed, List.map_drop, h.numbers_concat, List.drop_range']
  rw [ctxOther, if_pos hwant, if_neg hnone]
  by_cases hB : 0 < B
  · rw [h.cap, if_pos hB]
    refine ⟨_, rfl, ?_, rfl, rfl, hafter⟩
    have hring := h.ring.push (by rw [h.cap]; exact hB) ⟨text, t + 1⟩
    rw [h.cap] at hring
    exact {
      ring := hring
      cap := by rw [List.length_set, h.cap]
      count := by rw [Ring.length_pushed hB hlen, h.count]
      numbers := hnumbers
      le := by omega
      printed := h.printed
      after := h.after
      behind := fun hpos => absurd hpos hnone }
  · obtain rfl : B = 0 := by omega
    obtain rfl : q = [] := List.length_eq_zero_iff.mp (by omega)
    rw [h.cap, if_neg hB]
    have hkept : Waiting A 0 (t + 1) st [] := { h with
      numbers := rfl
      le := Nat.zero_le _
      behind := fun hpos => absurd hpos hnone }
    exact ⟨st, rfl, hkept, rfl, rfl, hafter⟩

/-- The state behind a line that is not selected and follows one that is shown. -/
theorem ctxOther_after (text : List UInt8) (hAB : A ≠ 0 ∨ B ≠ 0) (h : Waiting A B t st [])
    (hafter : 0 < st.afterRemaining) (rows : List Row) :
    ∃ st', ctxOther A B st (t + 1) text = st' ∧ Waiting A B (t + 1) st' [] ∧
      st'.afterRemaining = st.afterRemaining - 1 ∧
      st.out ++ withSeps st.lastPrintedLine (⟨t + 1, text, false⟩ :: rows)
        = st'.out ++ withSeps st'.lastPrintedLine rows := by
  have hwant : 0 < A ∨ 0 < B := hAB.imp Nat.pos_of_ne_zero Nat.pos_of_ne_zero
  have hlast := (h.behind hafter).2
  rw [ctxOther, if_pos hwant, if_pos hafter]
  refine ⟨_, rfl, ?_, rfl, ?_⟩
  · exact { h with
      numbers := rfl
      le := Nat.zero_le _
      printed := rfl
      after := Nat.le_trans (Nat.sub_le _ _) h.after
      behind := fun _ => ⟨rfl, rfl⟩ }
  · have hnosep : ¬ (st.lastPrintedLine ≠ 0 ∧ t + 1 ≠ st.lastPrintedLine + 1) := by
      rw [hlast]
      exact fun hsep => hsep.2 rfl
    rw [withSeps, if_neg hnosep, List.nil_append, List.append_assoc]
    rfl

/-- A run prints the windows of the lines to come and the rest of the last one. -/
theorem ctxLoop_spec (hAB : A ≠ 0 ∨ B ≠ 0) {rest : List (List UInt8)}
    (hrest : lines newline rest.flatten = rest) (h : Waiting A B t st q)
    (hq : rest ≠ [] → ∀ l ∈ q, l.data.getLast? = some newline) :
    ∃ st', ctxLoop A B sel t st rest = some st' ∧
      st'.out = st.out ++ withSeps st.lastPrintedLine
        (toShow A B t st.afterRemaining (q.map CtxLine.row ++ numbered sel t rest)) := by
  induction rest generalizing t st q with
  | nil =>
      refine ⟨st, rfl, ?_⟩
      rw [toShow_nil h, withSeps, List.append_nil]
  | cons text rest ih =>
      have htail := (lines_cons hrest).2.1
      have hends : rest ≠ [] → text.getLast? = some newline :=
        fun hne => @getLast?_of_lines UInt8 _ newline _ text [] rest hrest hne
      rw [ctxLoop]
      by_cases hsel : sel (t + 1) = true
      · obtain ⟨st₁, hrun, hwait, hafter, hout⟩ := ctxSelected_spec text hAB h
          (hq (List.cons_ne_nil _ _)) (toShow A B (t + 1) A (numbered sel (t + 1) rest))
        obtain ⟨st', hloop, hprint⟩ := ih htail hwait fun _ l hl => absurd hl List.not_mem_nil
        refine ⟨st', ?_, ?_⟩
        · rw [if_pos hsel, hrun, Option.bind_eq_bind, Option.bind_some, hloop]
        · rw [toShow_selected h hsel, hout, hprint, hafter]
          rfl
      · have hno : sel (t + 1) = false := Bool.eq_false_iff.mpr hsel
        rw [if_neg hsel, Option.bind_eq_bind, Option.bind_some]
        by_cases hafter : 0 < st.afterRemaining
        · obtain ⟨rfl, -⟩ := h.behind hafter
          obtain ⟨st₁, hrun, hwait, hleft, hout⟩ := ctxOther_after text hAB h hafter
            (toShow A B (t + 1) (st.afterRemaining - 1) (numbered sel (t + 1) rest))
          obtain ⟨st', hloop, hprint⟩ := ih htail hwait fun _ l hl => absurd hl List.not_mem_nil
          refine ⟨st', by rw [hrun, hloop], ?_⟩
          rw [List.map_nil, List.nil_append, toShow_after hno hafter, hout, hprint, hleft]
          rfl
        · have hzero : st.afterRemaining = 0 := Nat.eq_zero_of_not_pos hafter
          obtain ⟨st₁, hrun, hwait, hout, hlast, hleft⟩ := ctxOther_waits text hAB h hzero
          obtain ⟨st', hloop, hprint⟩ := ih htail hwait fun hne l hl => by
            rcases List.mem_append.mp (List.mem_of_mem_drop hl) with hold | hnew
            · exact hq (List.cons_ne_nil _ _) l hold
            · rw [List.mem_singleton.mp hnew]
              exact hends hne
          refine ⟨st', by rw [hrun, hloop], ?_⟩
          rw [hzero, toShow_waits h hno, hprint, hout, hlast, hleft]

/-! ## The search -/

/-- For every file, every set of selected lines and all `A` and `B` that are
not both zero, the search prints the lines in the windows, in order and marked,
with a separator between two that are not consecutive, exactly if the ring of
`B` lines could be allocated. -/
theorem ctxSearch_iff (mem : Nat → Bool) (A B : Nat) (hAB : A ≠ 0 ∨ B ≠ 0) (sel : Nat → Bool)
    (content : List UInt8) :
    ctxSearch mem A B sel content
        = some (withSeps 0 (shownRows A B (numbered sel 0 (lines newline content))))
      ↔ B = 0 ∨ callocOk mem B sizeofCtxLine = true := by
  constructor
  · intro h
    by_contra hnone
    rw [not_or, Bool.not_eq_true] at hnone
    rw [ctxSearch, if_pos ⟨Nat.pos_of_ne_zero hnone.1, hnone.2⟩] at h
    exact absurd h nofun
  · intro hmem
    have hring : ¬ (0 < B ∧ callocOk mem B sizeofCtxLine = false) := by
      rintro ⟨hpos, hfail⟩
      rcases hmem with rfl | hok
      · exact absurd hpos (Nat.lt_irrefl 0)
      · exact absurd (hok.symm.trans hfail) nofun
    have hlines : lines newline (lines newline content).flatten = lines newline content := by
      rw [flatten_lines]
    obtain ⟨st', hloop, hout⟩ := @ctxLoop_spec A B 0 sel _ _ hAB _ hlines (waiting_start A B)
      fun _ l hl => absurd hl List.not_mem_nil
    have hshown : toShow A B 0 0 (numbered sel 0 (lines newline content))
        = shownRows A B (numbered sel 0 (lines newline content)) := by
      refine List.filter_congr fun r _ => ?_
      rw [decide_eq_false (by omega), Bool.false_or]
    simp only [List.map_nil, List.nil_append, hshown] at hout
    rw [ctxSearch, if_neg hring, hloop, Option.map_some, hout]

theorem ctxSearch_game :
    ctxSearch (fun _ => true) 1 1 (fun t => t == 1) [0x61, newline, 0x62]
        = some (withSeps 0 (shownRows 1 1 (numbered (fun t => t == 1) 0 (lines newline [0x61, newline, 0x62]))))
      ↔ 1 = 0 ∨ callocOk (fun _ => true) 1 sizeofCtxLine = true :=
  ctxSearch_iff (fun _ => true) 1 1 (Or.inl Nat.one_ne_zero) (fun t => t == 1) [0x61, newline, 0x62]

/-- `-B 9223372036854775807`: the ring's size does not fit a `size_t`. -/
theorem not_ctxSearch_longestBefore :
    ctxSearch (fun _ => true) 0 9223372036854775807 (fun t => t == 1) [0x61, newline]
      ≠ some (withSeps 0 (shownRows 0 9223372036854775807
          (numbered (fun t => t == 1) 0 (lines newline [0x61, newline])))) := by
  have hfail : callocOk (fun _ => true) 9223372036854775807 sizeofCtxLine = false := rfl
  rw [ctxSearch, if_pos ⟨by omega, hfail⟩]
  exact nofun

end Montauk.Cli
