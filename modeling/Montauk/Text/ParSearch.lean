import Montauk.Machine.Lines
import Montauk.Text.Spans

/-!
# Searching one file in chunks

A large file is split into chunks that are scanned concurrently
(`search_split_file`, `search_scan_one_file_par`); a chunk numbers its lines
from its own start, and the merge adds the lines of the chunks before it.

Where the targets fall comes from floating point and is any function here.
Whether a line still fits the shared buffer depends on the other workers and
is any function too (`full`). A record carries the offset its line was read
at, so that it can be compared with the file.
-/

namespace Montauk.ParSearch

open Lines

/-! ## The split -/

/-- The range of a chunk; `stop = 0` reads to the end. -/
structure Chunk where
  start : Nat
  stop : Nat
deriving DecidableEq, Repr

/-- The `fgetc` loop: just past the next newline, if there is one. -/
def nextBoundary (content : List UInt8) (target : Nat) : Option Nat :=
  ((content.drop target).findIdx? (· == 0x0a)).map (target + · + 1)

/-- The loop of `search_split_file` over the values of `i` left. -/
def splitLoop (content : List UInt8) (target : Nat → Nat) : List Nat → Nat → List Chunk
  | [], prev => [⟨prev, 0⟩]
  | i :: is, prev =>
      if prev < content.length then
        if target i ≤ prev then splitLoop content target is prev
        else
          match nextBoundary content (target i) with
          | none => [⟨prev, 0⟩]
          | some b =>
              if content.length ≤ b then [⟨prev, 0⟩]
              else ⟨prev, b⟩ :: splitLoop content target is b
      else [⟨prev, 0⟩]

/-- `search_split_file`; `target i` is `(double)size * i / want`. -/
def searchSplitFile (content : List UInt8) (target : Nat → Nat) (want : Nat) : List Chunk :=
  splitLoop content target (List.range' 1 (want - 1)) 0

/-! ## The scan of a chunk -/

/-- What `ParSearchCtx` holds of the flags; `-c`, `-l`, `-L`, `-a`, `-I`, `-m`. -/
structure Flags where
  invert : Bool
  countOnly : Bool
  namesOnly : Bool
  namesWithout : Bool
  binText : Bool
  binSkip : Bool
  maxCount : Nat

/-- `sublimation_search_occ`, with the line it stands for and the offset the
line was read at. -/
structure Record where
  lineNo : Nat
  pos : Nat
  line : List UInt8
deriving DecidableEq, Repr

/-- The variables of `search_scan_one_file_par`, and what it leaves in its
`ParFileResult`: `lineno` becomes `lines`. -/
structure Scan where
  fmatches : Nat
  lineno : Nat
  pos : Nat
  binary : Bool
  binaryHit : Bool
  overflowed : Bool
  fdone : Bool
  buf : List Record
deriving DecidableEq, Repr

def selected (f : Flags) (selects : List UInt8 → Bool) (raw : List UInt8) : Bool :=
  selects (chomp 0x0a raw) != f.invert

/-- A line shows that the file is binary. -/
def nulLine (f : Flags) (raw : List UInt8) : Bool := !f.binText && (chomp 0x0a raw).contains 0

/-- Where a selected line goes; `full` is whether it no longer fits. -/
def Scan.keep (f : Flags) (full : Bool) (raw : List UInt8) (off : Nat) (st : Scan) : Scan :=
  if f.countOnly then st
  else if st.binary then { st with binaryHit := true, fdone := true }
  else if st.overflowed then st
  else if full then { st with buf := [], overflowed := true }
  else { st with buf := st.buf ++ [⟨u32 st.lineno, off, raw⟩] }

def Scan.select (f : Flags) (full : Bool) (raw : List UInt8) (off : Nat) (st : Scan) : Scan :=
  let st := { st with fmatches := st.fmatches + 1 }
  if f.namesOnly || f.namesWithout then { st with fdone := true }
  else if f.maxCount ≠ 0 ∧ f.maxCount ≤ st.fmatches then
    { st.keep f full raw off with fdone := true }
  else st.keep f full raw off

/-- One round of the scan; a binary line under `-I` breaks out. -/
def Scan.line (f : Flags) (selects : List UInt8 → Bool) (full : Nat → Bool) (st : Scan)
    (raw : List UInt8) : Scan :=
  let off := st.pos
  let st := { st with pos := st.pos + raw.length, lineno := st.lineno + 1 }
  let st := { st with binary := st.binary || nulLine f raw }
  if st.binary && f.binSkip then { st with fmatches := 0, lineno := 0, buf := [], fdone := true }
  else if selected f selects raw then st.select f (full st.lineno) raw off
  else st

/-- The `while` of the scan over the lines `getline` has yet to return. -/
def scanLoop (f : Flags) (selects : List UInt8 → Bool) (full : Nat → Bool) (stop : Nat) :
    List (List UInt8) → Scan → Scan
  | [], st => st
  | raw :: rest, st =>
      if !st.fdone && (stop == 0 || decide (st.pos < stop)) then
        scanLoop f selects full stop rest (st.line f selects full raw)
      else st

/-- The NUL sniff, by the chunk at the head of the file. -/
def sniff (f : Flags) (content : List UInt8) (c : Chunk) : Bool :=
  c.start == 0 && !f.binText && (content.take (2 ^ 15)).contains 0

/-- `search_scan_one_file_par` on a file that opens. -/
def scanChunk (f : Flags) (selects : List UInt8 → Bool) (full : Nat → Bool)
    (content : List UInt8) (c : Chunk) : Scan :=
  let st : Scan := ⟨0, 0, c.start, sniff f content c, false, false, false, []⟩
  if st.binary && f.binSkip then st
  else scanLoop f selects full c.stop (lines 0x0a (content.drop c.start)) st

/-! ## The merge -/

/-- The serial read of a chunk whose buffer was given back. -/
def reread (f : Flags) (selects : List UInt8 → Bool) (base stop : Nat) :
    List (List UInt8) → Nat → Nat → Nat → List Record
  | [], _, _, _ => []
  | raw :: rest, lineno, pos, fmatches =>
      if stop == 0 || decide (pos < stop) then
        if selected f selects raw then
          ⟨base + (lineno + 1), pos, raw⟩ ::
            if f.maxCount ≠ 0 ∧ f.maxCount ≤ fmatches + 1 then []
            else reread f selects base stop rest (lineno + 1) (pos + raw.length) (fmatches + 1)
        else reread f selects base stop rest (lineno + 1) (pos + raw.length) fmatches
      else []

/-- `search_render_one_file_par`, as the records it writes. -/
def render (f : Flags) (selects : List UInt8 → Bool) (content : List UInt8) (base : Nat)
    (c : Chunk) (r : Scan) : List Record :=
  if f.namesOnly || f.namesWithout || f.countOnly then []
  else if r.binaryHit then []
  else if r.overflowed then
    reread f selects base c.stop (lines 0x0a (content.drop c.start)) 0 c.start 0
  else r.buf.map fun o => { o with lineNo := base + o.lineNo }

/-- The chunks in order; `line_base` is the sum of the lines before. -/
def mergeLoop (f : Flags) (selects : List UInt8 → Bool) (content : List UInt8) :
    Nat → List (Chunk × Scan) → List Record
  | _, [] => []
  | base, (c, r) :: rest =>
      render f selects content base c r ++ mergeLoop f selects content (base + r.lineno) rest

/-- The scan and the merge of one file's chunks. A file with a binary hit
gets a notice instead of lines. -/
def searchChunks (f : Flags) (selects : List UInt8 → Bool) (full : Chunk → Nat → Bool)
    (content : List UInt8) (chunks : List Chunk) : List Record :=
  let rs := chunks.map fun c => (c, scanChunk f selects (full c) content c)
  if rs.any fun r => r.2.binaryHit then [] else mergeLoop f selects content 0 rs

/-! ## The chunks tile the file -/

def Chunk.bytes (content : List UInt8) (c : Chunk) : List UInt8 :=
  slice content c.start (if c.stop = 0 then content.length else c.stop)

/-- Chunks that cover the file from `prev` on, one behind the other; every
chunk but the last ends right behind a newline. -/
inductive Tiles (content : List UInt8) : Nat → List Chunk → Prop
  | last (prev : Nat) : Tiles content prev [⟨prev, 0⟩]
  | cons {prev b : Nat} {rest : List Chunk} (hlt : prev < b) (hb : b < content.length)
      (hnl : content[b - 1]? = some 0x0a) (hrest : Tiles content b rest) :
      Tiles content prev (⟨prev, b⟩ :: rest)

theorem nextBoundary_some {content : List UInt8} {target b : Nat}
    (h : nextBoundary content target = some b) : target < b ∧ content[b - 1]? = some 0x0a := by
  obtain ⟨i, hi, rfl⟩ := Option.map_eq_some_iff.mp h
  obtain ⟨hlt, hnl, -⟩ := List.findIdx?_eq_some_iff_getElem.mp hi
  refine ⟨by omega, ?_⟩
  have hget := List.getElem?_eq_getElem hlt
  rw [List.getElem?_drop] at hget
  rw [Nat.add_sub_cancel, hget]
  simpa using hnl

theorem splitLoop_tiles {content : List UInt8} {target : Nat → Nat} :
    ∀ (is : List Nat) (prev : Nat), Tiles content prev (splitLoop content target is prev)
  | [], prev => .last prev
  | i :: is, prev => by
      rw [splitLoop]
      split
      · split
        · exact splitLoop_tiles is prev
        · rename_i hgt
          cases hb : nextBoundary content (target i) with
          | none => exact .last prev
          | some b =>
              obtain ⟨hlt, hnl⟩ := nextBoundary_some hb
              dsimp only
              split
              · exact .last prev
              · rename_i hin
                exact .cons (by omega) (by omega) hnl (splitLoop_tiles is b)
      · exact .last prev

theorem length_splitLoop {content : List UInt8} {target : Nat → Nat} :
    ∀ (is : List Nat) (prev : Nat), (splitLoop content target is prev).length ≤ is.length + 1
  | [], _ => le_rfl
  | i :: is, prev => by
      have ih : ∀ b, (splitLoop content target is b).length ≤ is.length + 1 := length_splitLoop is
      rw [splitLoop, List.length_cons]
      split
      · split
        · have := ih prev
          omega
        · cases nextBoundary content (target i) with
          | none => simp
          | some b =>
              dsimp only
              split
              · simp
              · have := ih b
                rw [List.length_cons]
                omega
      · simp

theorem slice_ends {content : List UInt8} {s b : Nat} (hlt : s < b)
    (hnl : content[b - 1]? = some 0x0a) :
    ∀ h : slice content s b ≠ [], (slice content s b).getLast h = 0x0a := by
  intro h
  have hb : b - 1 < content.length := (List.getElem?_eq_some_iff.mp hnl).1
  have hlen : (slice content s b).length = b - s := length_slice (by omega)
  have hidx : s + (b - s - 1) = b - 1 := by omega
  have hlast : (slice content s b).getLast? = some 0x0a := by
    rw [List.getLast?_eq_getElem?, hlen, slice, List.getElem?_take_of_lt (by omega),
      List.getElem?_drop, hidx, hnl]
  rw [List.getLast?_eq_some_getLast h] at hlast
  exact Option.some.inj hlast

theorem Tiles.flatMap {content : List UInt8} {prev : Nat} {chunks : List Chunk}
    (h : Tiles content prev chunks) :
    chunks.flatMap (Chunk.bytes content) = content.drop prev
      ∧ chunks.flatMap (fun c => lines 0x0a (c.bytes content))
        = lines 0x0a (content.drop prev) := by
  induction h with
  | last prev =>
      have hall : Chunk.bytes content ⟨prev, 0⟩ = content.drop prev := by
        rw [Chunk.bytes, if_pos rfl, slice, List.take_of_length_le (by rw [List.length_drop])]
      rw [List.flatMap_singleton, List.flatMap_singleton, hall]
      exact ⟨rfl, rfl⟩
  | cons hlt hb hnl _ ih =>
      rename_i prev b rest _
      have hbytes : Chunk.bytes content ⟨prev, b⟩ = slice content prev b := by
        rw [Chunk.bytes, if_neg (Nat.ne_of_gt (Nat.zero_lt_of_lt hlt))]
      rw [List.flatMap_cons, List.flatMap_cons, hbytes, ih.1, ih.2,
        ← slice_append_drop hlt.le, lines_append (slice_ends hlt hnl)]
      exact ⟨rfl, rfl⟩

/-! ## What a chunk selects -/

/-- The selected lines of a list, numbered from `lineno + 1` and placed from
`pos` on. -/
def shown (f : Flags) (selects : List UInt8 → Bool) : Nat → Nat → List (List UInt8) → List Record
  | _, _, [] => []
  | lineno, pos, raw :: rest =>
      if selected f selects raw then
        ⟨lineno + 1, pos, raw⟩ :: shown f selects (lineno + 1) (pos + raw.length) rest
      else shown f selects (lineno + 1) (pos + raw.length) rest

/-- The buffer is given back at some selected line, before a line that ends
the scan. -/
def overflowsIn (f : Flags) (selects : List UInt8 → Bool) (full : Nat → Bool) :
    Nat → List (List UInt8) → Bool
  | _, [] => false
  | lineno, raw :: rest =>
      if f.binSkip && nulLine f raw then false
      else (selected f selects raw && full (lineno + 1))
        || overflowsIn f selects full (lineno + 1) rest

/-- A line is selected at or behind one that is binary. -/
def hitsBinary (f : Flags) (selects : List UInt8 → Bool) : Bool → List (List UInt8) → Bool
  | _, [] => false
  | binary, raw :: rest =>
      ((binary || nulLine f raw) && selected f selects raw)
        || hitsBinary f selects (binary || nulLine f raw) rest

/-- The flags under which lines are written. -/
structure Flags.Writes (f : Flags) : Prop where
  names : f.namesOnly = false
  without : f.namesWithout = false
  count : f.countOnly = false
  all : f.maxCount = 0

variable {f : Flags} {selects : List UInt8 → Bool} {full : Nat → Bool}

theorem Scan.select_writes (hf : f.Writes) (b : Bool) (raw : List UInt8) (off : Nat) (st : Scan) :
    st.select f b raw off = { st with fmatches := st.fmatches + 1 }.keep f b raw off := by
  rw [Scan.select, hf.names, hf.without, hf.all]
  rfl

theorem Scan.keep_pos (b : Bool) (raw : List UInt8) (off : Nat) (st : Scan) :
    (st.keep f b raw off).pos = st.pos := by
  rw [Scan.keep]
  split_ifs
  all_goals rfl

theorem Scan.select_pos (b : Bool) (raw : List UInt8) (off : Nat) (st : Scan) :
    (st.select f b raw off).pos = st.pos := by
  rw [Scan.select]
  dsimp only
  split_ifs
  · rfl
  · exact Scan.keep_pos b raw off _
  · exact Scan.keep_pos b raw off _

theorem Scan.line_pos (st : Scan) (raw : List UInt8) :
    (st.line f selects full raw).pos = st.pos + raw.length := by
  rw [Scan.line]
  dsimp only
  split
  · rfl
  · split
    · rw [Scan.select_pos]
    · rfl

theorem scanLoop_done {stop : Nat} {st : Scan} (h : st.fdone = true) :
    ∀ ls, scanLoop f selects full stop ls st = st
  | [] => rfl
  | raw :: rest => by rw [scanLoop, h]; rfl

/-- The end of the range cuts the scan off behind the chunk's own lines. -/
theorem scanLoop_stop {stop : Nat} (hstop : stop ≠ 0) (rest : List (List UInt8)) :
    ∀ (ls : List (List UInt8)) (st : Scan), (∀ l ∈ ls, l ≠ []) →
      st.pos + ls.flatten.length = stop →
      scanLoop f selects full stop (ls ++ rest) st = scanLoop f selects full 0 ls st
  | [], st, _, hpos => by
      have hend : ¬ st.pos < stop := by
        rw [List.flatten_nil, List.length_nil] at hpos
        omega
      cases rest with
      | nil => rfl
      | cons raw rest => simp [scanLoop, hend, hstop]
  | raw :: ls, st, hne, hpos => by
      have hraw := List.length_pos_iff.mpr (hne raw List.mem_cons_self)
      rw [List.flatten_cons, List.length_append] at hpos
      have hin : st.pos < stop := by omega
      have ih := scanLoop_stop hstop rest ls (st.line f selects full raw)
        (fun l hl => hne l (List.mem_cons_of_mem raw hl)) (by rw [Scan.line_pos]; omega)
      rw [List.cons_append, scanLoop, scanLoop, ih]
      simp [hin]

theorem reread_stop (base : Nat) {stop : Nat} (hstop : stop ≠ 0) (hall : f.maxCount = 0)
    (rest : List (List UInt8)) :
    ∀ (ls : List (List UInt8)) (lineno pos fmatches : Nat), (∀ l ∈ ls, l ≠ []) →
      pos + ls.flatten.length = stop →
      reread f selects base stop (ls ++ rest) lineno pos fmatches
        = (shown f selects lineno pos ls).map fun o => { o with lineNo := base + o.lineNo }
  | [], lineno, pos, fmatches, _, hpos => by
      have hend : ¬ pos < stop := by
        rw [List.flatten_nil, List.length_nil] at hpos
        omega
      cases rest with
      | nil => rfl
      | cons raw rest => simp [reread, shown, hend, hstop]
  | raw :: ls, lineno, pos, fmatches, hne, hpos => by
      have hraw := List.length_pos_iff.mpr (hne raw List.mem_cons_self)
      rw [List.flatten_cons, List.length_append] at hpos
      have hin : pos < stop := by omega
      have ih := fun m => reread_stop base hstop hall rest ls (lineno + 1)
        (pos + raw.length) m (fun l hl => hne l (List.mem_cons_of_mem raw hl)) (by omega)
      rw [List.cons_append, reread, shown, if_pos (by simp [hin])]
      split
      · rw [if_neg fun h => h.1 hall, ih, List.map_cons]
      · exact ih _

theorem reread_all (base : Nat) (hall : f.maxCount = 0) :
    ∀ (ls : List (List UInt8)) (lineno pos fmatches : Nat),
      reread f selects base 0 ls lineno pos fmatches
        = (shown f selects lineno pos ls).map fun o => { o with lineNo := base + o.lineNo }
  | [], _, _, _ => rfl
  | raw :: ls, lineno, pos, fmatches => by
      have ih := fun m => reread_all base hall ls (lineno + 1) (pos + raw.length) m
      rw [reread, shown, if_pos (by simp)]
      split
      · rw [if_neg fun h => h.1 hall, ih, List.map_cons]
      · exact ih _

def Record.buffered (o : Record) : Record := { o with lineNo := u32 o.lineNo }

/-- The scan went through the lines `ls`: it has counted them, and unless its
buffer was given back it holds those selected. -/
structure Scanned (f : Flags) (selects : List UInt8 → Bool) (ls : List (List UInt8))
    (st r : Scan) : Prop where
  lineno : r.lineno = st.lineno + ls.length
  buf : r.overflowed = false →
    r.buf = st.buf ++ (shown f selects st.lineno st.pos ls).map Record.buffered

theorem scanLoop_next {raw : List UInt8} {rest : List (List UInt8)} {st : Scan}
    (h : st.fdone = false) :
    scanLoop f selects full 0 (raw :: rest) st
      = scanLoop f selects full 0 rest (st.line f selects full raw) := by
  rw [scanLoop, h]
  rfl

theorem Scan.line_plain (full : Nat → Bool) (hf : f.Writes) {st : Scan} {raw : List UInt8}
    (hbin : ((st.binary || nulLine f raw) && (f.binSkip || selected f selects raw)) = false)
    (hd : st.fdone = false) (hh : st.binaryHit = false) :
    (st.line f selects full raw).fdone = false
      ∧ (st.line f selects full raw).binaryHit = false
      ∧ (st.line f selects full raw).binary = (st.binary || nulLine f raw)
      ∧ (st.line f selects full raw).lineno = st.lineno + 1
      ∧ (st.line f selects full raw).overflowed
        = (st.overflowed || (selected f selects raw && full (st.lineno + 1)))
      ∧ ((st.line f selects full raw).overflowed = false →
          (st.line f selects full raw).buf
            = st.buf ++ if selected f selects raw then [⟨u32 (st.lineno + 1), st.pos, raw⟩] else []) := by
  have hskip : ((st.binary || nulLine f raw) && f.binSkip) = false := by
    cases hb : (st.binary || nulLine f raw) with
    | false => rfl
    | true =>
        rw [hb, Bool.true_and, Bool.or_eq_false_iff] at hbin
        exact hbin.1
  rw [Scan.line]
  dsimp only
  rw [if_neg (by rw [hskip]; exact Bool.false_ne_true)]
  cases hs : selected f selects raw with
  | false => simp [hd, hh]
  | true =>
      have hb : (st.binary || nulLine f raw) = false := by
        rw [hs, Bool.or_true, Bool.and_true] at hbin
        exact hbin
      rw [if_pos rfl, Scan.select_writes hf, Scan.keep]
      dsimp only
      rw [hb, hf.count, if_neg Bool.false_ne_true, if_neg Bool.false_ne_true]
      cases st.overflowed with
      | true => simp [hd, hh]
      | false =>
          cases full (st.lineno + 1) with
          | true => simp [hd, hh]
          | false => simp [hd, hh]

theorem Scanned.cons {raw : List UInt8} {ls : List (List UInt8)} {st r : Scan}
    (h : Scanned f selects ls (st.line f selects full raw) r)
    (hlineno : (st.line f selects full raw).lineno = st.lineno + 1)
    (hbuf : r.overflowed = false → (st.line f selects full raw).buf
      = st.buf ++ if selected f selects raw then [⟨u32 (st.lineno + 1), st.pos, raw⟩] else []) :
    Scanned f selects (raw :: ls) st r where
  lineno := by
    rw [h.lineno, hlineno, List.length_cons]
    omega
  buf hov := by
    rw [h.buf hov, hbuf hov, hlineno, Scan.line_pos, shown]
    split
    · rw [List.map_cons, List.append_assoc]
      rfl
    · rw [List.append_nil]

theorem scanLoop_skip (selects : List UInt8 → Bool) (full : Nat → Bool) (hf : f.Writes) (hskip : f.binSkip = true) :
    ∀ (ls : List (List UInt8)) (st : Scan), st.fdone = false → st.binary = false →
      st.binaryHit = false →
      (scanLoop f selects full 0 ls st).binaryHit = false
        ∧ (scanLoop f selects full 0 ls st).overflowed
          = (st.overflowed || overflowsIn f selects full st.lineno ls)
        ∧ if ls.any (nulLine f) then
            (scanLoop f selects full 0 ls st).lineno = 0 ∧ (scanLoop f selects full 0 ls st).buf = []
          else Scanned f selects ls st (scanLoop f selects full 0 ls st)
  | [], st, hd, hb, hh => by
      refine ⟨hh, by rw [scanLoop, overflowsIn, Bool.or_false], ?_⟩
      rw [List.any_nil, if_neg Bool.false_ne_true]
      exact ⟨rfl, fun _ => (List.append_nil _).symm⟩
  | raw :: ls, st, hd, hb, hh => by
      rw [scanLoop_next hd, List.any_cons, overflowsIn, hskip, Bool.true_and]
      cases hnul : nulLine f raw with
      | true =>
          have hline : st.line f selects full raw
              = { st with fmatches := 0, lineno := 0, pos := st.pos + raw.length, binary := true
                          buf := [], fdone := true } := by
            rw [Scan.line]
            dsimp only
            rw [hnul, Bool.or_true, hskip]
            rfl
          rw [Bool.true_or, if_pos rfl, hline, scanLoop_done rfl]
          exact ⟨hh, by simp, rfl, rfl⟩
      | false =>
          obtain ⟨h1, h2, h3, h4, h5, h6⟩ := Scan.line_plain full hf
            (by rw [hb, hnul]; rfl : ((st.binary || nulLine f raw)
              && (f.binSkip || selected f selects raw)) = false) hd hh
          obtain ⟨i1, i2, i3⟩ := scanLoop_skip selects full hf hskip ls _ h1 (by rw [h3, hb, hnul]; rfl) h2
          rw [Bool.false_or, if_neg Bool.false_ne_true]
          refine ⟨i1, by rw [i2, h5, h4, Bool.or_assoc], ?_⟩
          split
          · rename_i hany
            rw [if_pos hany] at i3
            exact i3
          · rename_i hany
            rw [if_neg hany] at i3
            refine i3.cons h4 fun hov => h6 ?_
            rw [i2, Bool.or_eq_false_iff] at hov
            exact hov.1

/-- The scan without `-I`: it ends at a binary hit. -/
theorem scanLoop_noskip (selects : List UInt8 → Bool) (full : Nat → Bool) (hf : f.Writes) (hskip : f.binSkip = false) :
    ∀ (ls : List (List UInt8)) (st : Scan), st.fdone = false → st.binaryHit = false →
      if hitsBinary f selects st.binary ls then
        (scanLoop f selects full 0 ls st).binaryHit = true
      else
        (scanLoop f selects full 0 ls st).binaryHit = false
          ∧ (scanLoop f selects full 0 ls st).overflowed
            = (st.overflowed || overflowsIn f selects full st.lineno ls)
          ∧ Scanned f selects ls st (scanLoop f selects full 0 ls st)
  | [], st, hd, hh => by
      rw [hitsBinary, if_neg Bool.false_ne_true]
      exact ⟨hh, by rw [scanLoop, overflowsIn, Bool.or_false], rfl,
        fun _ => (List.append_nil _).symm⟩
  | raw :: ls, st, hd, hh => by
      rw [scanLoop_next hd, hitsBinary, overflowsIn, hskip, Bool.false_and]
      cases hhit : (st.binary || nulLine f raw) && selected f selects raw with
      | true =>
          obtain ⟨hb, hs⟩ := (Bool.and_eq_true _ _).mp hhit
          have hline : (st.line f selects full raw).fdone = true
              ∧ (st.line f selects full raw).binaryHit = true := by
            rw [Scan.line]
            dsimp only
            rw [hskip, Bool.and_false, if_neg Bool.false_ne_true, hs, if_pos rfl,
              Scan.select_writes hf, Scan.keep]
            dsimp only
            rw [hf.count, if_neg Bool.false_ne_true, hb, if_pos rfl]
            exact ⟨rfl, rfl⟩
          rw [Bool.true_or, if_pos rfl, scanLoop_done hline.1]
          exact hline.2
      | false =>
          obtain ⟨h1, h2, h3, h4, h5, h6⟩ := Scan.line_plain full hf
            (by rw [hskip, Bool.false_or, hhit] : ((st.binary || nulLine f raw)
              && (f.binSkip || selected f selects raw)) = false) hd hh
          have ih := scanLoop_noskip selects full hf hskip ls _ h1 h2
          rw [h3] at ih
          rw [Bool.false_or, if_neg Bool.false_ne_true]
          split
          · rename_i hrest
            rw [if_pos hrest] at ih
            exact ih
          · rename_i hrest
            rw [if_neg hrest] at ih
            obtain ⟨i1, i2, i3⟩ := ih
            refine ⟨i1, by rw [i2, h5, h4, Bool.or_assoc], i3.cons h4 fun hov => h6 ?_⟩
            rw [i2, Bool.or_eq_false_iff] at hov
            exact hov.1

/-! ## What a chunk reports -/

def Chunk.lines (content : List UInt8) (c : Chunk) : List (List UInt8) :=
  Lines.lines 0x0a (c.bytes content)

/-- Under `-I`, the chunk holds a NUL or its sniff sees one. -/
def skipped (f : Flags) (content : List UInt8) (c : Chunk) : Bool :=
  f.binSkip && (sniff f content c || (c.lines content).any (nulLine f))

/-- The buffer of the chunk is given back. -/
def overflows (f : Flags) (selects : List UInt8 → Bool) (full : Chunk → Nat → Bool)
    (content : List UInt8) (c : Chunk) : Bool :=
  !(sniff f content c && f.binSkip) && overflowsIn f selects (full c) 0 (c.lines content)

/-- The selected lines of a chunk, numbered from its own start. -/
def Chunk.shown (f : Flags) (selects : List UInt8 → Bool) (content : List UInt8) (c : Chunk) :
    List Record :=
  ParSearch.shown f selects 0 c.start (c.lines content)

/-- A chunk that ends right behind a newline, or at the end of the file. -/
def Chunk.Aligned (content : List UInt8) (c : Chunk) : Prop :=
  c.stop = 0 ∨ c.start < c.stop ∧ content[c.stop - 1]? = some 0x0a

theorem Tiles.aligned {content : List UInt8} {prev : Nat} {chunks : List Chunk}
    (h : Tiles content prev chunks) : ∀ c ∈ chunks, c.Aligned content := by
  induction h with
  | last prev =>
      rintro c hc
      rw [List.mem_singleton.mp hc]
      exact Or.inl rfl
  | cons hlt hb hnl _ ih =>
      rintro c hc
      rcases List.mem_cons.mp hc with rfl | hc
      · exact Or.inr ⟨hlt, hnl⟩
      · exact ih c hc

variable {content : List UInt8} {c : Chunk}

theorem Chunk.lines_drop (hc : c.Aligned content) (hstop : c.stop ≠ 0) :
    Lines.lines 0x0a (content.drop c.start)
        = c.lines content ++ Lines.lines 0x0a (content.drop c.stop)
      ∧ c.start + (c.lines content).flatten.length = c.stop := by
  obtain ⟨hlt, hnl⟩ := hc.resolve_left hstop
  have hin : c.stop - 1 < content.length := (List.getElem?_eq_some_iff.mp hnl).1
  have hbytes : c.bytes content = slice content c.start c.stop := by
    rw [Chunk.bytes, if_neg hstop]
  rw [Chunk.lines, flatten_lines, hbytes, length_slice (by omega),
    ← slice_append_drop hlt.le, lines_append (slice_ends hlt hnl)]
  exact ⟨rfl, by omega⟩

theorem Chunk.lines_last (hstop : c.stop = 0) :
    c.lines content = Lines.lines 0x0a (content.drop c.start) := by
  rw [Chunk.lines, Chunk.bytes, if_pos hstop, slice,
    List.take_of_length_le (by rw [List.length_drop])]

theorem Chunk.scanLoop (hc : c.Aligned content) (full : Nat → Bool) {st : Scan}
    (hst : st.pos = c.start) :
    ParSearch.scanLoop f selects full c.stop (Lines.lines 0x0a (content.drop c.start)) st
      = ParSearch.scanLoop f selects full 0 (c.lines content) st := by
  by_cases hstop : c.stop = 0
  · rw [Chunk.lines_last hstop, hstop]
  · obtain ⟨h1, h2⟩ := Chunk.lines_drop hc hstop
    rw [h1]
    exact scanLoop_stop hstop _ _ _ (fun l hl => ne_nil_of_mem_lines hl) (by rw [hst, h2])

theorem Chunk.reread (hf : f.Writes) (hc : c.Aligned content) (base : Nat) :
    ParSearch.reread f selects base c.stop (Lines.lines 0x0a (content.drop c.start)) 0 c.start 0
      = (c.shown f selects content).map fun o => { o with lineNo := base + o.lineNo } := by
  by_cases hstop : c.stop = 0
  · rw [Chunk.shown, Chunk.lines_last hstop, hstop]
    exact reread_all base hf.all _ _ _ _
  · obtain ⟨h1, h2⟩ := Chunk.lines_drop hc hstop
    rw [h1]
    exact reread_stop base hstop hf.all _ _ _ _ _ (fun l hl => ne_nil_of_mem_lines hl) h2

/-- What the scan leaves of a chunk without a binary hit. -/
structure Reported (f : Flags) (selects : List UInt8 → Bool) (full : Chunk → Nat → Bool)
    (content : List UInt8) (c : Chunk) (r : Scan) : Prop where
  binaryHit : r.binaryHit = false
  overflowed : r.overflowed = overflows f selects full content c
  lineno : r.lineno = if skipped f content c then 0 else (c.lines content).length
  buf : r.overflowed = false →
    r.buf = if skipped f content c then [] else (c.shown f selects content).map Record.buffered

/-- A binary hit in a chunk, when the file is not skipped. -/
def binaryHit (f : Flags) (selects : List UInt8 → Bool) (content : List UInt8) (c : Chunk) : Bool :=
  !f.binSkip && hitsBinary f selects (sniff f content c) (c.lines content)

theorem scanChunk_spec (hf : f.Writes) (full : Chunk → Nat → Bool) (hc : c.Aligned content) :
    if binaryHit f selects content c then (scanChunk f selects (full c) content c).binaryHit = true
    else Reported f selects full content c (scanChunk f selects (full c) content c) := by
  rw [scanChunk, binaryHit]
  dsimp only
  cases hskip : f.binSkip with
  | false =>
      have hns : skipped f content c = false := by rw [skipped, hskip, Bool.false_and]
      rw [Bool.and_false, if_neg Bool.false_ne_true, Chunk.scanLoop hc (full c) rfl, Bool.not_false,
        Bool.true_and]
      have hspec := scanLoop_noskip selects (full c) hf hskip (c.lines content)
        ⟨0, 0, c.start, sniff f content c, false, false, false, []⟩ rfl rfl
      split
      · rename_i hhit
        rwa [if_pos hhit] at hspec
      · rename_i hhit
        rw [if_neg hhit] at hspec
        obtain ⟨h1, h2, h3⟩ := hspec
        refine ⟨h1, ?_, ?_, fun hov => ?_⟩
        · rw [h2, overflows, hskip, Bool.and_false]
          rfl
        · rw [h3.lineno, hns, if_neg Bool.false_ne_true]
          exact Nat.zero_add _
        · rw [h3.buf hov, hns, if_neg Bool.false_ne_true]
          rfl
  | true =>
      rw [Bool.not_true, Bool.false_and, if_neg Bool.false_ne_true, Bool.and_true]
      cases hsn : sniff f content c with
      | true =>
          have hs : skipped f content c = true := by rw [skipped, hskip, hsn]; rfl
          rw [if_pos rfl]
          refine ⟨rfl, ?_, by rw [hs]; rfl, fun _ => by rw [hs]; rfl⟩
          rw [overflows, hsn, hskip]
          rfl
      | false =>
          have hs : skipped f content c = (c.lines content).any (nulLine f) := by
            rw [skipped, hskip, hsn]
            rfl
          rw [if_neg Bool.false_ne_true, Chunk.scanLoop hc (full c) rfl]
          obtain ⟨h1, h2, h3⟩ := scanLoop_skip selects (full c) hf hskip (c.lines content)
            ⟨0, 0, c.start, false, false, false, false, []⟩ rfl rfl rfl
          have hov : overflows f selects full content c
              = overflowsIn f selects (full c) 0 (c.lines content) := by
            rw [overflows, hsn]
            rfl
          rw [← hs] at h3
          cases hsk : skipped f content c with
          | true =>
              rw [hsk, if_pos rfl] at h3
              exact ⟨h1, by rw [h2, hov]; rfl, by rw [h3.1, hsk]; rfl, fun _ => by
                rw [h3.2, hsk]; rfl⟩
          | false =>
              rw [hsk, if_neg Bool.false_ne_true] at h3
              refine ⟨h1, by rw [h2, hov]; rfl, ?_, fun ho => ?_⟩
              · rw [h3.lineno, hsk, if_neg Bool.false_ne_true]
                exact Nat.zero_add _
              · rw [h3.buf ho, hsk, if_neg Bool.false_ne_true]
                rfl

/-- The number a chunk's record is written with. -/
def printed (f : Flags) (selects : List UInt8 → Bool) (full : Chunk → Nat → Bool)
    (content : List UInt8) (base : Nat) (c : Chunk) (o : Record) : Record :=
  { o with lineNo := base + if overflows f selects full content c then o.lineNo else u32 o.lineNo }

theorem render_eq (hf : f.Writes) {full : Chunk → Nat → Bool} (hc : c.Aligned content)
    {r : Scan} (hr : Reported f selects full content c r) (base : Nat) :
    render f selects content base c r
      = if skipped f content c && !overflows f selects full content c then []
        else (c.shown f selects content).map (printed f selects full content base c) := by
  rw [render, hf.names, hf.without, hf.count, hr.binaryHit, hr.overflowed]
  have hprinted : ∀ b, overflows f selects full content c = b →
      printed f selects full content base c
        = fun o => { o with lineNo := base + if b then o.lineNo else u32 o.lineNo } := by
    rintro b rfl
    rfl
  cases hov : overflows f selects full content c with
  | true =>
      rw [Bool.not_true, Bool.and_false, if_neg Bool.false_ne_true, hprinted true hov]
      exact Chunk.reread hf hc base
  | false =>
      have hbuf := hr.buf (hr.overflowed.trans hov)
      rw [Bool.not_false, Bool.and_true, hprinted false hov]
      cases hsk : skipped f content c with
      | true =>
          rw [hsk, if_pos rfl] at hbuf
          rw [hbuf]
          rfl
      | false =>
          rw [hsk, if_neg Bool.false_ne_true] at hbuf
          rw [hbuf, List.map_map]
          rfl

/-! ## The numbers -/

/-- The record stands for a line of the file, with that line's number. -/
def Record.Right (content : List UInt8) (o : Record) : Prop :=
  ∃ pre post, Lines.lines 0x0a content = pre ++ o.line :: post
    ∧ pre.flatten.length = o.pos ∧ o.lineNo = pre.length + 1

theorem shown_at {o : Record} : ∀ {ls : List (List UInt8)} {lineno pos : Nat},
    o ∈ ParSearch.shown f selects lineno pos ls →
      ∃ a b, ls = a ++ o.line :: b ∧ o.pos = pos + a.flatten.length
        ∧ o.lineNo = lineno + a.length + 1
  | [], _, _, h => absurd h List.not_mem_nil
  | raw :: ls, lineno, pos, h => by
      have hrest : o ∈ ParSearch.shown f selects (lineno + 1) (pos + raw.length) ls →
          ∃ a b, raw :: ls = a ++ o.line :: b ∧ o.pos = pos + a.flatten.length
            ∧ o.lineNo = lineno + a.length + 1 := by
        intro hmem
        obtain ⟨a, b, h1, h2, h3⟩ := shown_at hmem
        refine ⟨raw :: a, b, by rw [h1]; rfl, ?_, ?_⟩
        · rw [h2, List.flatten_cons, List.length_append]
          omega
        · rw [h3, List.length_cons]
          omega
      rw [ParSearch.shown] at h
      split at h
      · rcases List.mem_cons.mp h with rfl | hmem
        · exact ⟨[], ls, rfl, rfl, rfl⟩
        · exact hrest hmem
      · exact hrest h

theorem right_iff {pre rest : List (List UInt8)} {o : Record}
    (hlines : Lines.lines 0x0a content = pre ++ c.lines content ++ rest)
    (hpre : pre.flatten.length = c.start) (ho : o ∈ c.shown f selects content) (n : Nat) :
    ({ o with lineNo := n } : Record).Right content ↔ n = pre.length + o.lineNo := by
  obtain ⟨a, b, h1, h2, h3⟩ := shown_at ho
  have hcut : Lines.lines 0x0a content = (pre ++ a) ++ o.line :: (b ++ rest) := by
    rw [hlines, h1]
    simp
  have hoff : (pre ++ a).flatten.length = o.pos := by
    rw [List.flatten_append, List.length_append, hpre, h2]
  constructor
  · rintro ⟨pre', post', h', hoff', hn⟩
    have hlen := length_eq_of_offset hcut h' (hoff.trans hoff'.symm)
    rw [List.length_append] at hlen
    dsimp only at hn
    omega
  · rintro rfl
    refine ⟨pre ++ a, b ++ rest, hcut, hoff, ?_⟩
    rw [List.length_append]
    dsimp only
    omega

/-- Every reported line gets its own number: no chunk before it was skipped,
and in a buffer the number fits 32 bits. -/
def Numbered (f : Flags) (selects : List UInt8 → Bool) (full : Chunk → Nat → Bool)
    (content : List UInt8) (chunks : List Chunk) : Prop :=
  ∀ cs c post, chunks = cs ++ c :: post → ∀ o ∈ c.shown f selects content,
    (skipped f content c = false ∨ overflows f selects full content c = true) →
      (∀ c' ∈ cs, skipped f content c' = false)
        ∧ (overflows f selects full content c = false → o.lineNo < 2 ^ 32)

theorem u32_eq_self_iff {v : Nat} : u32 v = v ↔ v < 2 ^ 32 :=
  ⟨fun h => h ▸ Nat.mod_lt v (Nat.two_pow_pos 32), u32_eq⟩

theorem u32_le (v : Nat) : u32 v ≤ v := Nat.mod_le v _

/-- The merge from a chunk on: `base` is what it adds, `pre` the lines that
really stand before. -/
theorem mergeLoop_right (hf : f.Writes) (selects : List UInt8 → Bool)
    (full : Chunk → Nat → Bool) {prev : Nat} {chunks : List Chunk}
    (h : Tiles content prev chunks) :
    ∀ (pre : List (List UInt8)) (base : Nat),
      Lines.lines 0x0a content = pre ++ Lines.lines 0x0a (content.drop prev) →
      pre.flatten.length = prev → base ≤ pre.length →
      (∀ c ∈ chunks, Reported f selects full content c (scanChunk f selects (full c) content c)) →
      ((∀ o ∈ mergeLoop f selects content base
          (chunks.map fun c => (c, scanChunk f selects (full c) content c)), o.Right content)
        ↔ ∀ cs c post, chunks = cs ++ c :: post → ∀ o ∈ c.shown f selects content,
          (skipped f content c = false ∨ overflows f selects full content c = true) →
            base = pre.length ∧ (∀ c' ∈ cs, skipped f content c' = false)
              ∧ (overflows f selects full content c = false → o.lineNo < 2 ^ 32)) := by
  -- the records of the first chunk
  have hfirst : ∀ {c : Chunk} {pre rest : List (List UInt8)} {base : Nat}, c.Aligned content →
      Reported f selects full content c (scanChunk f selects (full c) content c) →
      Lines.lines 0x0a content = pre ++ c.lines content ++ rest → pre.flatten.length = c.start →
      base ≤ pre.length →
      ((∀ o ∈ render f selects content base c (scanChunk f selects (full c) content c),
          o.Right content)
        ↔ ∀ o ∈ c.shown f selects content,
          (skipped f content c = false ∨ overflows f selects full content c = true) →
            base = pre.length
              ∧ (overflows f selects full content c = false → o.lineNo < 2 ^ 32)) := by
    intro c pre rest base hc hr hlines hpre hbase
    rw [render_eq hf hc hr]
    have hright : ∀ o ∈ c.shown f selects content,
        ((printed f selects full content base c o).Right content
          ↔ base = pre.length
            ∧ (overflows f selects full content c = false → o.lineNo < 2 ^ 32)) := by
      intro o ho
      rw [printed, right_iff hlines hpre ho]
      cases overflows f selects full content c with
      | true =>
          rw [if_pos rfl]
          exact ⟨fun h => ⟨by omega, fun h => absurd h (by simp)⟩, fun h => by omega⟩
      | false =>
          rw [if_neg Bool.false_ne_true, ← u32_eq_self_iff]
          have := u32_le o.lineNo
          exact ⟨fun h => ⟨by omega, fun _ => by omega⟩, fun h => by rw [h.1, h.2 rfl]⟩
    split
    · rename_i hno
      rw [Bool.and_eq_true, Bool.not_eq_true'] at hno
      refine ⟨fun _ o _ hor => ?_, fun _ o ho => absurd ho List.not_mem_nil⟩
      rcases hor with h | h
      · exact absurd (hno.1.symm.trans h) (by simp)
      · exact absurd (hno.2.symm.trans h) (by simp)
    · rename_i hyes
      have hor : skipped f content c = false ∨ overflows f selects full content c = true := by
        cases hs : skipped f content c with
        | false => exact Or.inl rfl
        | true =>
            rw [hs, Bool.true_and, Bool.not_eq_true', Bool.not_eq_false] at hyes
            exact Or.inr hyes
      rw [List.forall_mem_map]
      exact ⟨fun h o ho _ => (hright o ho).mp (h o ho), fun h o ho => (hright o ho).mpr (h o ho hor)⟩
  induction h with
  | last prev =>
      intro pre base hlines hpre hbase hall
      have hlast : Lines.lines 0x0a content = pre ++ Chunk.lines content ⟨prev, 0⟩ ++ [] := by
        rw [Chunk.lines_last rfl, List.append_nil, ← hlines]
      have hone := hfirst (Or.inl rfl) (hall ⟨prev, 0⟩ List.mem_cons_self) hlast hpre hbase
      rw [List.map_singleton, mergeLoop, mergeLoop, List.append_nil, hone]
      constructor
      · intro h cs c post heq o ho hor
        rcases List.singleton_eq_append_iff.mp heq with ⟨rfl, hc⟩ | ⟨-, hc⟩
        · obtain ⟨rfl, -⟩ := List.cons.inj hc
          obtain ⟨h1, h2⟩ := h o ho hor
          exact ⟨h1, fun c' hc' => absurd hc' List.not_mem_nil, h2⟩
        · exact absurd hc (List.cons_ne_nil c post)
      · intro h o ho hor
        obtain ⟨h1, -, h2⟩ := h [] ⟨prev, 0⟩ [] rfl o ho hor
        exact ⟨h1, h2⟩
  | cons hlt hb hnl hrest ih =>
      rename_i prev b rest
      intro pre base hlines hpre hbase hall
      have hc : Chunk.Aligned content ⟨prev, b⟩ := Or.inr ⟨hlt, hnl⟩
      obtain ⟨hcut, hlen⟩ := Chunk.lines_drop hc (Nat.ne_of_gt (Nat.zero_lt_of_lt hlt))
      have hhere := hall ⟨prev, b⟩ List.mem_cons_self
      rw [hcut, ← List.append_assoc] at hlines
      have hone := hfirst hc hhere hlines hpre hbase
      have hpos : 0 < (Chunk.lines content ⟨prev, b⟩).length := by
        refine List.length_pos_iff.mpr fun hnil => ?_
        rw [hnil] at hlen
        exact absurd hlen (Nat.ne_of_lt hlt)
      have hnext := ih (pre ++ Chunk.lines content ⟨prev, b⟩)
        (base + (scanChunk f selects (full ⟨prev, b⟩) content ⟨prev, b⟩).lineno) hlines
        (by rw [List.flatten_append, List.length_append, hpre]; exact hlen)
        (by rw [hhere.lineno, List.length_append]; split <;> omega)
        fun c hc => hall c (List.mem_cons_of_mem _ hc)
      -- the base stays right behind this chunk when it was, and the chunk was not skipped
      have hbase' : base + (scanChunk f selects (full ⟨prev, b⟩) content ⟨prev, b⟩).lineno
            = (pre ++ Chunk.lines content ⟨prev, b⟩).length
          ↔ base = pre.length ∧ skipped f content ⟨prev, b⟩ = false := by
        rw [hhere.lineno, List.length_append]
        cases skipped f content ⟨prev, b⟩ with
        | true =>
            rw [if_pos rfl]
            exact ⟨fun h => by omega, fun h => absurd h.2 (by simp)⟩
        | false =>
            rw [if_neg Bool.false_ne_true]
            exact ⟨fun h => ⟨by omega, rfl⟩, fun h => by omega⟩
      rw [List.map_cons, mergeLoop]
      constructor
      · intro h cs c post heq o ho hor
        rcases cs with - | ⟨c₀, cs⟩
        · obtain ⟨rfl, -⟩ := List.cons.inj heq
          obtain ⟨h1, h2⟩ := hone.mp (fun o ho => h o (List.mem_append_left _ ho)) o ho hor
          exact ⟨h1, fun c' hc' => absurd hc' List.not_mem_nil, h2⟩
        · obtain ⟨rfl, heq'⟩ := List.cons.inj heq
          obtain ⟨h1, h2, h3⟩ := hnext.mp (fun o ho => h o (List.mem_append_right _ ho)) cs c post
            heq' o ho hor
          obtain ⟨h4, h5⟩ := hbase'.mp h1
          refine ⟨h4, fun c' hc' => ?_, h3⟩
          rcases List.mem_cons.mp hc' with rfl | hc'
          · exact h5
          · exact h2 c' hc'
      · intro h o ho
        rcases List.mem_append.mp ho with ho | ho
        · refine hone.mpr (fun o ho hor => ?_) o ho
          obtain ⟨h1, -, h2⟩ := h [] ⟨prev, b⟩ rest rfl o ho hor
          exact ⟨h1, h2⟩
        · refine hnext.mpr (fun cs c post heq o ho hor => ?_) o ho
          obtain ⟨h1, h2, h3⟩ := h (⟨prev, b⟩ :: cs) c post (by rw [heq]; rfl) o ho hor
          exact ⟨hbase'.mpr ⟨h1, h2 _ List.mem_cons_self⟩,
            fun c' hc' => h2 c' (List.mem_cons_of_mem _ hc'), h3⟩

/-- No line of the file is written: the flags ask for names or a count, or a
binary hit leaves a notice. -/
def Silent (f : Flags) (selects : List UInt8 → Bool) (content : List UInt8)
    (chunks : List Chunk) : Prop :=
  (f.namesOnly || f.namesWithout || f.countOnly) = true
    ∨ ∃ c ∈ chunks, binaryHit f selects content c = true

/-- **Searching in chunks**: for every file and every number of chunks asked
for, the chunks tile the file, no line is split, and without `-m` every
reported line number is right exactly when no line is written, or none is
reported behind a chunk that `-I` skipped and those in a buffer fit 32 bits. -/
theorem searchChunks_right_iff (content : List UInt8) (target : Nat → Nat) (want : Nat)
    (f : Flags) (hall : f.maxCount = 0) (selects : List UInt8 → Bool)
    (full : Chunk → Nat → Bool) :
    Tiles content 0 (searchSplitFile content target want)
      ∧ (searchSplitFile content target want).flatMap (Chunk.bytes content) = content
      ∧ (searchSplitFile content target want).flatMap (Chunk.lines content)
        = Lines.lines 0x0a content
      ∧ ((∀ o ∈ searchChunks f selects full content (searchSplitFile content target want),
            o.Right content)
          ↔ Silent f selects content (searchSplitFile content target want)
            ∨ Numbered f selects full content (searchSplitFile content target want)) := by
  have htiles : Tiles content 0 (searchSplitFile content target want) :=
    splitLoop_tiles _ _
  generalize searchSplitFile content target want = chunks at htiles ⊢
  obtain ⟨hbytes, hlines⟩ := htiles.flatMap
  rw [List.drop_zero] at hbytes hlines
  refine ⟨htiles, hbytes, hlines, ?_⟩
  rw [searchChunks]
  by_cases hflags : (f.namesOnly || f.namesWithout || f.countOnly) = true
  · have hnone : ∀ (base : Nat) (rs : List (Chunk × Scan)),
        mergeLoop f selects content base rs = [] := by
      intro base rs
      induction rs generalizing base with
      | nil => rfl
      | cons r rs ih => rw [mergeLoop, ih, render, if_pos hflags, List.append_nil]
    rw [hnone, ite_self]
    exact ⟨fun _ => Or.inl (Or.inl hflags), fun _ o ho => absurd ho List.not_mem_nil⟩
  have hf : f.Writes := by
    rw [Bool.not_eq_true, Bool.or_eq_false_iff, Bool.or_eq_false_iff] at hflags
    exact ⟨hflags.1.1, hflags.1.2, hflags.2, hall⟩
  have hscan : ∀ c ∈ chunks, if binaryHit f selects content c then
      (scanChunk f selects (full c) content c).binaryHit = true
      else Reported f selects full content c (scanChunk f selects (full c) content c) :=
    fun c hc => scanChunk_spec hf full (htiles.aligned c hc)
  by_cases hbin : ∃ c ∈ chunks, binaryHit f selects content c = true
  · obtain ⟨c, hc, hhit⟩ := hbin
    have hany : (chunks.map fun c => (c, scanChunk f selects (full c) content c)).any
        (fun r => r.2.binaryHit) = true := by
      have := hscan c hc
      rw [if_pos hhit] at this
      exact List.any_eq_true.mpr ⟨_, List.mem_map_of_mem hc, this⟩
    rw [if_pos hany]
    exact ⟨fun _ => Or.inl (Or.inr ⟨c, hc, hhit⟩), fun _ o ho => absurd ho List.not_mem_nil⟩
  · have hrep : ∀ c ∈ chunks,
        Reported f selects full content c (scanChunk f selects (full c) content c) := by
      intro c hc
      have := hscan c hc
      rwa [if_neg fun h => hbin ⟨c, hc, h⟩] at this
    have hany : ¬ (chunks.map fun c => (c, scanChunk f selects (full c) content c)).any
        (fun r => r.2.binaryHit) = true := by
      intro h
      obtain ⟨r, hr, hhit⟩ := List.any_eq_true.mp h
      obtain ⟨c, hc, rfl⟩ := List.mem_map.mp hr
      exact absurd ((hrep c hc).binaryHit.symm.trans hhit) Bool.false_ne_true
    have hmerge := mergeLoop_right hf selects full htiles [] 0 (by rw [List.drop_zero]; rfl) rfl
      le_rfl hrep
    rw [if_neg hany, hmerge]
    constructor
    · intro h
      refine Or.inr fun cs c post heq o ho hor => ?_
      exact (h cs c post heq o ho hor).2
    · rintro ((hs | hs) | hn) cs c post heq o ho hor
      · exact absurd hs hflags
      · exact absurd hs hbin
      · exact ⟨rfl, hn cs c post heq o ho hor⟩

/-- The flags of `-n -I`. -/
def flagsSkip : Flags := ⟨false, false, false, false, false, true, 0⟩

/-- The pattern `a` as the selector. -/
def selectsA (line : List UInt8) : Bool := searchSelects [patternA] true line false false

/-- Two lines in two chunks. -/
theorem searchChunks_right_iff_two :
    Tiles [0x62, 0x0a, 0x61, 0x0a] 0 (searchSplitFile [0x62, 0x0a, 0x61, 0x0a] (2 * ·) 2)
      ∧ (searchSplitFile [0x62, 0x0a, 0x61, 0x0a] (2 * ·) 2).flatMap
          (Chunk.bytes [0x62, 0x0a, 0x61, 0x0a]) = [0x62, 0x0a, 0x61, 0x0a]
      ∧ (searchSplitFile [0x62, 0x0a, 0x61, 0x0a] (2 * ·) 2).flatMap
          (Chunk.lines [0x62, 0x0a, 0x61, 0x0a]) = Lines.lines 0x0a [0x62, 0x0a, 0x61, 0x0a]
      ∧ ((∀ o ∈ searchChunks flagsSkip selectsA (fun _ _ => false) [0x62, 0x0a, 0x61, 0x0a]
            (searchSplitFile [0x62, 0x0a, 0x61, 0x0a] (2 * ·) 2),
            o.Right [0x62, 0x0a, 0x61, 0x0a])
          ↔ Silent flagsSkip selectsA [0x62, 0x0a, 0x61, 0x0a]
              (searchSplitFile [0x62, 0x0a, 0x61, 0x0a] (2 * ·) 2)
            ∨ Numbered flagsSkip selectsA (fun _ _ => false) [0x62, 0x0a, 0x61, 0x0a]
              (searchSplitFile [0x62, 0x0a, 0x61, 0x0a] (2 * ·) 2)) :=
  searchChunks_right_iff _ _ _ flagsSkip rfl selectsA _

/-- `-n -I a` on a line with a NUL and two lines `a`, in two chunks: the
first is skipped and counts no lines, so the third line is reported as the
first. -/
theorem searchChunks_skipped :
    searchSplitFile [0x00, 0x0a, 0x61, 0x0a, 0x61, 0x0a] (fun i => 6 * i / 2) 2 = [⟨0, 4⟩, ⟨4, 0⟩]
      ∧ ¬ ∀ o ∈ searchChunks flagsSkip selectsA (fun _ _ => false)
          [0x00, 0x0a, 0x61, 0x0a, 0x61, 0x0a]
          (searchSplitFile [0x00, 0x0a, 0x61, 0x0a, 0x61, 0x0a] (fun i => 6 * i / 2) 2),
          o.Right [0x00, 0x0a, 0x61, 0x0a, 0x61, 0x0a] := by
  have hout : searchChunks flagsSkip selectsA (fun _ _ => false)
      [0x00, 0x0a, 0x61, 0x0a, 0x61, 0x0a]
      (searchSplitFile [0x00, 0x0a, 0x61, 0x0a, 0x61, 0x0a] (fun i => 6 * i / 2) 2)
      = [⟨1, 4, [0x61, 0x0a]⟩] := by decide +kernel
  refine ⟨by decide +kernel, fun h => ?_⟩
  obtain ⟨pre, post, -, hoff, hn⟩ := h _ (by rw [hout]; exact List.mem_cons_self)
  obtain rfl : pre = [] := List.length_eq_zero_iff.mp (by dsimp only at hn; omega)
  exact absurd hoff (by simp)

end Montauk.ParSearch
