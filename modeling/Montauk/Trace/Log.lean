import Mathlib.Algebra.Group.Nat.Defs
import Mathlib.Data.List.Sublists

/-!
# The binary trace log

The writer of `--trace-out` (`trace_append`, `trace_flush`) against the
reader (`TraceReader::for_each`). A record is written as its length, four
bytes little-endian, and its payload; the writer buffers whole records and
flushes the buffer with as many `write` calls as it takes, so what reaches
the file ends wherever a call fails.

The writer drops the rest of the buffer on a failed `write`. When the bytes
that did arrive end inside a record, whatever is flushed later is read as
the rest of that record (`forEach_run_torn`). As long as nothing is written
behind such a tear, the reader visits the records that arrived whole, in
order (`forEach_run`).
-/

namespace Montauk.Trace

/-! ## Length prefixes -/

def le32 (n : Nat) : List UInt8 :=
  [UInt8.ofNat n, UInt8.ofNat (n / 2 ^ 8), UInt8.ofNat (n / 2 ^ 16), UInt8.ofNat (n / 2 ^ 24)]

def le32Val : List UInt8 → Nat
  | [] => 0
  | b :: bs => b.toNat + 2 ^ 8 * le32Val bs

@[simp] theorem length_le32 (n : Nat) : (le32 n).length = 4 := rfl

theorem le32Val_le32 {n : Nat} (h : n < 2 ^ 32) : le32Val (le32 n) = n := by
  simp only [le32, le32Val, UInt8.toNat_ofNat']
  omega

/-! ## The writer -/

abbrev Rec := List UInt8

def kTraceFlushThreshold : Nat := 256 * 1024

/-- A record as it goes into the buffer; the length is cast to
`TraceRecordLen`. -/
def frame (r : Rec) : List UInt8 := le32 (r.length % 2 ^ 32) ++ r

/-- The two binary sinks of the collector: the trace log and the stream.
`file` and `stream` are what the kernel has accepted so far. -/
structure Writer where
  traceOpen : Bool
  streamOpen : Bool
  traceBuf : List UInt8
  streamBuf : List UInt8
  file : List UInt8
  stream : List UInt8
  attempted : Nat
  errors : Nat
  lostBytes : Nat

/-- The loop of `write` calls over a buffer: `res i` is what the `i`-th call
accepts at most, `0` where it fails. The bytes written and the bytes left
when a call fails. -/
def writeLoop : Nat → (Nat → Nat) → List UInt8 → List UInt8 × List UInt8
  | 0, _, buf => ([], buf)
  | n + 1, res, buf =>
      if buf = [] then ([], [])
      else if res 0 = 0 then ([], buf)
      else
        let (out, left) := writeLoop n (fun i => res (i + 1)) (buf.drop (res 0))
        (buf.take (res 0) ++ out, left)

/-- The trace log's half of `trace_flush`. -/
def flushLog (res : Nat → Nat) (w : Writer) : Writer :=
  if w.traceOpen && !w.traceBuf.isEmpty then
    let io := writeLoop w.traceBuf.length res w.traceBuf
    { w with
      traceBuf := []
      file := w.file ++ io.1
      errors := if io.2 = [] then w.errors else w.errors + 1
      lostBytes := w.lostBytes + io.2.length }
  else w

/-- The stream's half; what a failed `write` drops is not counted here. -/
def flushStream (res : Nat → Nat) (w : Writer) : Writer :=
  if w.streamOpen && !w.streamBuf.isEmpty then
    { w with
      streamBuf := []
      stream := w.stream ++ (writeLoop w.streamBuf.length res w.streamBuf).1 }
  else w

/-- `trace_flush`; `res` and `resStream` answer the `write` calls on the two
sinks. -/
def traceFlush (res resStream : Nat → Nat) (w : Writer) : Writer :=
  flushStream resStream (flushLog res w)

def appendLog (res resStream : Nat → Nat) (data : Rec) (w : Writer) : Writer :=
  if w.traceOpen then
    let w := { w with attempted := w.attempted + 1, traceBuf := w.traceBuf ++ frame data }
    if kTraceFlushThreshold ≤ w.traceBuf.length then traceFlush res resStream w else w
  else w

/-- The stream is flushed on every poll cycle, with no threshold. -/
def appendStream (data : Rec) (w : Writer) : Writer :=
  if w.streamOpen then { w with streamBuf := w.streamBuf ++ frame data } else w

def traceAppend (res resStream : Nat → Nat) (data : Rec) (w : Writer) : Writer :=
  appendStream data (appendLog res resStream data w)

/-! ## The reader -/

def kTraceMaxRecordLen : Nat := 2 ^ 20

/-- How a walk over the records ends. -/
inductive TraceReadStatus where
  | ok
  | corruptLength (len : Nat)
  | truncatedRecord
deriving DecidableEq

/-- The loop of `TraceReader::for_each`: what `visit` is called with, the
type and the payload, and the status. -/
def forEachLoop : Nat → List UInt8 → List (Nat × Rec) × TraceReadStatus
  | 0, _ => ([], .ok)
  | n + 1, p =>
      if p.length < 4 then ([], .ok)
      else
        let len := le32Val (p.take 4)
        if len < 4 ∨ kTraceMaxRecordLen < len then ([], .corruptLength len)
        else if (p.drop 4).length < len then ([], .truncatedRecord)
        else
          let r := (p.drop 4).take len
          let (vs, st) := forEachLoop n ((p.drop 4).drop len)
          ((le32Val (r.take 4), r) :: vs, st)

/-- `TraceReader::for_each` on the body of a log. -/
def forEach (body : List UInt8) : List (Nat × Rec) × TraceReadStatus :=
  forEachLoop (body.length + 1) body

/-! ## Reading framed records -/

/-- A record the writer is handed. -/
structure ValidRec (r : Rec) : Prop where
  type : 4 ≤ r.length
  fits : r.length ≤ kTraceMaxRecordLen

instance (r : Rec) : Decidable (ValidRec r) :=
  decidable_of_iff (4 ≤ r.length ∧ r.length ≤ kTraceMaxRecordLen)
    ⟨fun h => ⟨h.1, h.2⟩, fun h => ⟨h.type, h.fits⟩⟩

/-- The body that holds the records `rs`. -/
def framed (rs : List Rec) : List UInt8 := rs.flatMap frame

@[simp] theorem framed_nil : framed [] = [] := rfl

@[simp] theorem framed_cons (r : Rec) (rs : List Rec) : framed (r :: rs) = frame r ++ framed rs := rfl

theorem framed_append (rs ss : List Rec) : framed (rs ++ ss) = framed rs ++ framed ss :=
  List.flatMap_append

@[simp] theorem length_frame (r : Rec) : (frame r).length = 4 + r.length := by
  rw [frame, List.length_append, length_le32]

theorem ValidRec.len_mod {r : Rec} (h : ValidRec r) : r.length % 2 ^ 32 = r.length := by
  have := h.fits
  have hmax : kTraceMaxRecordLen = 2 ^ 20 := rfl
  exact Nat.mod_eq_of_lt (by omega)

theorem ValidRec.le32Val {r : Rec} (h : ValidRec r) :
    le32Val (le32 (r.length % 2 ^ 32)) = r.length := by
  have := h.fits
  have hmax : kTraceMaxRecordLen = 2 ^ 20 := rfl
  rw [h.len_mod, le32Val_le32 (by omega)]

/-- What `visit` gets for a record. -/
def visitOf (r : Rec) : Nat × Rec := (le32Val (r.take 4), r)

theorem forEachLoop_frame {r : Rec} (h : ValidRec r) (n : Nat) (rest : List UInt8) :
    forEachLoop (n + 1) (frame r ++ rest)
      = (visitOf r :: (forEachLoop n rest).1, (forEachLoop n rest).2) := by
  have htake : (frame r ++ rest).take 4 = le32 (r.length % 2 ^ 32) := by
    rw [frame, List.append_assoc, List.take_left' (length_le32 _)]
  have hdrop : (frame r ++ rest).drop 4 = r ++ rest := by
    rw [frame, List.append_assoc, List.drop_left' (length_le32 _)]
  have hlong : ¬ (frame r ++ rest).length < 4 := by
    rw [List.length_append, length_frame]
    omega
  have hok : ¬(r.length < 4 ∨ kTraceMaxRecordLen < r.length) := by
    have h1 := h.type
    have h2 := h.fits
    omega
  have hroom : ¬ (r ++ rest).length < r.length := by
    rw [List.length_append]
    omega
  rw [forEachLoop, if_neg hlong, htake, hdrop, h.le32Val]
  dsimp only
  rw [if_neg hok, if_neg hroom, List.take_left, List.drop_left]
  rfl

/-- A proper prefix of a record's frame: what a failed `write` leaves at the
end of the log. -/
structure TornTail (tail : List UInt8) : Prop where
  prefix_of : ∃ r, ValidRec r ∧ tail <+: frame r ∧ tail.length < (frame r).length

theorem tornTail_nil : TornTail [] :=
  ⟨[0, 0, 0, 0], ⟨by decide, by decide⟩, List.nil_prefix, by simp⟩

/-- A torn record ends the walk without a corrupt length. -/
theorem forEachLoop_torn {tail : List UInt8} (h : TornTail tail) (n : Nat) :
    (forEachLoop n tail).1 = [] ∧ ∀ len, (forEachLoop n tail).2 ≠ .corruptLength len := by
  obtain ⟨r, hr, hpre, hlt⟩ := h.prefix_of
  cases n with
  | zero => exact ⟨rfl, fun len => by simp [forEachLoop]⟩
  | succ n =>
      rw [forEachLoop]
      by_cases hshort : tail.length < 4
      · rw [if_pos hshort]
        exact ⟨rfl, fun len => by simp⟩
      · have htail : tail = (frame r).take tail.length := (List.prefix_iff_eq_take.mp hpre)
        have htake : tail.take 4 = le32 (r.length % 2 ^ 32) := by
          rw [htail, List.take_take, Nat.min_eq_left (Nat.not_lt.mp hshort), frame,
            List.take_left' (length_le32 _)]
        have hok : ¬(r.length < 4 ∨ kTraceMaxRecordLen < r.length) := by
          have h1 := hr.type
          have h2 := hr.fits
          omega
        have hrest : (tail.drop 4).length < r.length := by
          rw [length_frame] at hlt
          rw [List.length_drop]
          omega
        rw [if_neg hshort, htake, hr.le32Val]
        dsimp only
        rw [if_neg hok, if_pos hrest]
        exact ⟨rfl, fun len => by simp⟩

/-- **The reader visits the records of a body**, up to a torn one at its
end. -/
theorem forEach_framed {tail : List UInt8} (htail : TornTail tail) :
    ∀ {rs : List Rec} {n : Nat}, (∀ r ∈ rs, ValidRec r) → (framed rs ++ tail).length < n →
      (forEachLoop n (framed rs ++ tail)).1 = rs.map visitOf
        ∧ ∀ len, (forEachLoop n (framed rs ++ tail)).2 ≠ .corruptLength len
  | [], n, _, _ => forEachLoop_torn htail n
  | r :: rs, 0, _, hn => absurd hn (Nat.not_lt_zero _)
  | r :: rs, n + 1, hall, hn => by
      have hr := hall r List.mem_cons_self
      have hlt : (framed rs ++ tail).length < n := by
        rw [framed_cons, List.append_assoc, List.length_append, length_frame] at hn
        omega
      obtain ⟨h1, h2⟩ := forEach_framed htail (fun s hs => hall s (List.mem_cons_of_mem _ hs)) hlt
      rw [framed_cons, List.append_assoc, forEachLoop_frame hr, List.map_cons, h1]
      exact ⟨rfl, h2⟩

/-! ## Runs -/

/-- What the collector does to the log: hands over a record, or flushes. The
functions answer the `write` calls of the step on the two sinks. -/
inductive Op where
  | append (data : Rec) (res resStream : Nat → Nat)
  | flush (res resStream : Nat → Nat)

def Op.records : Op → List Rec
  | .append data _ _ => [data]
  | .flush _ _ => []

def handedOver (ops : List Op) : List Rec := ops.flatMap Op.records

def Op.apply : Op → Writer → Writer
  | .append data res resStream, w => traceAppend res resStream data w
  | .flush res resStream, w => traceFlush res resStream w

/-- The records whose frames lie in the first `m` bytes of `framed rs`. -/
def wholeRecords : Nat → List Rec → List Rec
  | _, [] => []
  | m, r :: rs =>
      if (frame r).length ≤ m then r :: wholeRecords (m - (frame r).length) rs else []

/-- The writer with what has happened so far: the records handed over, those
still in the buffer, and those that reached the file whole. -/
structure Run where
  writer : Writer
  appended : List Rec
  pending : List Rec
  whole : List Rec

def Run.start (streamOpen : Bool) : Run where
  writer :=
    { traceOpen := true, streamOpen, traceBuf := [], streamBuf := [], file := [], stream := [],
      attempted := 0, errors := 0, lostBytes := 0 }
  appended := []
  pending := []
  whole := []

/-- One step. A buffer that is empty afterwards was flushed; what the file
grew by tells which of its records arrived whole. -/
def Run.step (s : Run) (op : Op) : Run :=
  let w := op.apply s.writer
  let buffered := s.pending ++ op.records
  { writer := w
    appended := s.appended ++ op.records
    pending := if w.traceBuf = [] then [] else buffered
    whole :=
      if w.traceBuf = [] then
        s.whole ++ wholeRecords (w.file.length - s.writer.file.length) buffered
      else s.whole }

def Run.steps (s : Run) (ops : List Op) : Run := ops.foldl Run.step s

/-- What the reader owes the writer: it visits records that were handed over,
in their order, all that arrived whole among them, and never takes bytes from
inside a record for a length. -/
structure Run.Readable (s : Run) : Prop where
  visited_sublist : ((forEach s.writer.file).1).Sublist (s.appended.map visitOf)
  whole_sublist : (s.whole.map visitOf).Sublist (forEach s.writer.file).1
  status : ∀ len, (forEach s.writer.file).2 ≠ .corruptLength len

def Writer.AtBoundary (w : Writer) : Prop :=
  ∃ rs, (∀ r ∈ rs, ValidRec r) ∧ w.file = framed rs

/-- The step leaves the log as it is: the buffer stays below the threshold,
there is nothing to flush, or the first `write` fails. -/
def Op.Silent (w : Writer) : Op → Prop
  | .append data res _ =>
      (w.traceBuf ++ frame data).length < kTraceFlushThreshold ∨ res 0 = 0
  | .flush res _ => w.traceBuf = [] ∨ res 0 = 0

/-- No step writes behind a torn record. -/
def Run.NoWriteAfterTear : Run → List Op → Prop
  | _, [] => True
  | s, op :: ops =>
      (s.writer.AtBoundary ∨ op.Silent s.writer) ∧ (s.step op).NoWriteAfterTear ops

/-! ## What one step does to the log -/

theorem writeLoop_append (n : Nat) (res : Nat → Nat) (buf : List UInt8) :
    (writeLoop n res buf).1 ++ (writeLoop n res buf).2 = buf := by
  induction n generalizing res buf with
  | zero => rfl
  | succ n ih =>
      rw [writeLoop]
      by_cases hbuf : buf = []
      · rw [if_pos hbuf, hbuf]
        rfl
      · rw [if_neg hbuf]
        by_cases hres : res 0 = 0
        · rw [if_pos hres]
          rfl
        · rw [if_neg hres]
          dsimp only
          rw [List.append_assoc, ih, List.take_append_drop]

theorem writeLoop_fails {n : Nat} {res : Nat → Nat} {buf : List UInt8} (h : res 0 = 0) :
    (writeLoop n res buf).1 = [] := by
  cases n with
  | zero => rfl
  | succ n =>
      rw [writeLoop]
      by_cases hbuf : buf = []
      · rw [if_pos hbuf]
      · rw [if_neg hbuf, if_pos h]

@[simp] theorem flushStream_traceOpen (res : Nat → Nat) (w : Writer) :
    (flushStream res w).traceOpen = w.traceOpen := by
  unfold flushStream; split <;> rfl

@[simp] theorem flushStream_traceBuf (res : Nat → Nat) (w : Writer) :
    (flushStream res w).traceBuf = w.traceBuf := by
  unfold flushStream; split <;> rfl

@[simp] theorem flushStream_file (res : Nat → Nat) (w : Writer) :
    (flushStream res w).file = w.file := by
  unfold flushStream; split <;> rfl

@[simp] theorem appendStream_traceOpen (data : Rec) (w : Writer) :
    (appendStream data w).traceOpen = w.traceOpen := by
  unfold appendStream; split <;> rfl

@[simp] theorem appendStream_traceBuf (data : Rec) (w : Writer) :
    (appendStream data w).traceBuf = w.traceBuf := by
  unfold appendStream; split <;> rfl

@[simp] theorem appendStream_file (data : Rec) (w : Writer) :
    (appendStream data w).file = w.file := by
  unfold appendStream; split <;> rfl

@[simp] theorem flushLog_traceOpen (res : Nat → Nat) (w : Writer) :
    (flushLog res w).traceOpen = w.traceOpen := by
  unfold flushLog; split <;> rfl

theorem flushLog_open (res : Nat → Nat) {w : Writer} (hopen : w.traceOpen = true) :
    (flushLog res w).traceBuf = []
      ∧ (flushLog res w).file = w.file ++ (writeLoop w.traceBuf.length res w.traceBuf).1 := by
  unfold flushLog
  by_cases hbuf : w.traceBuf = []
  · have hcond : ¬ (w.traceOpen && !w.traceBuf.isEmpty) = true := by simp [hbuf]
    rw [if_neg hcond, hbuf]
    exact ⟨rfl, (List.append_nil _).symm⟩
  · have hcond : (w.traceOpen && !w.traceBuf.isEmpty) = true := by simp [hopen, hbuf]
    rw [if_pos hcond]
    exact ⟨rfl, rfl⟩

theorem Op.apply_traceOpen (op : Op) (w : Writer) :
    (op.apply w).traceOpen = w.traceOpen := by
  cases op with
  | append data res resStream =>
      rw [Op.apply, traceAppend, appendStream_traceOpen, appendLog]
      split
      · dsimp only
        split
        · rw [traceFlush, flushStream_traceOpen, flushLog_traceOpen]
        · rfl
      · rfl
  | flush res resStream =>
      rw [Op.apply, traceFlush, flushStream_traceOpen, flushLog_traceOpen]

/-- A step keeps the buffer, with the record it hands over, or flushes all of
it and writes a prefix. -/
inductive LogStep (op : Op) (w w' : Writer) : Prop where
  | keep (hbuf : w'.traceBuf = w.traceBuf ++ framed op.records) (hnew : w'.traceBuf ≠ [])
      (hfile : w'.file = w.file)
  | flush (hbuf : w'.traceBuf = []) (out : List UInt8)
      (hout : out <+: w.traceBuf ++ framed op.records) (hfile : w'.file = w.file ++ out)
      (hsilent : op.Silent w → out = [])

theorem writeLoop_front (n : Nat) (res : Nat → Nat) (buf : List UInt8) :
    (writeLoop n res buf).1 <+: buf :=
  ⟨_, writeLoop_append n res buf⟩

theorem frame_ne_nil (r : Rec) : frame r ≠ [] := by
  have h := length_frame r
  intro hnil
  rw [hnil, List.length_nil] at h
  omega

theorem logStep (op : Op) {w : Writer} (hopen : w.traceOpen = true) :
    LogStep op w (op.apply w) := by
  cases op with
  | flush res resStream =>
      obtain ⟨hbuf, hfile⟩ := flushLog_open res hopen
      refine .flush ?_ (writeLoop w.traceBuf.length res w.traceBuf).1 ?_ ?_ ?_
      · rw [Op.apply, traceFlush, flushStream_traceBuf, hbuf]
      · rw [Op.records, framed_nil, List.append_nil]
        exact writeLoop_front _ _ _
      · rw [Op.apply, traceFlush, flushStream_file, hfile]
      · rintro (hempty | hfails)
        · rw [hempty]
          rfl
        · exact writeLoop_fails hfails
  | append data res resStream =>
      have hrec : framed (Op.append data res resStream).records = frame data := by
        rw [Op.records, framed_cons, framed_nil, List.append_nil]
      by_cases hfull : kTraceFlushThreshold ≤ (w.traceBuf ++ frame data).length
      · let v : Writer := { w with attempted := w.attempted + 1, traceBuf := w.traceBuf ++ frame data }
        have hv : appendLog res resStream data w = traceFlush res resStream v := by
          rw [appendLog, if_pos hopen]
          exact if_pos hfull
        obtain ⟨hbuf, hfile⟩ := flushLog_open res (show v.traceOpen = true from hopen)
        refine .flush ?_ (writeLoop v.traceBuf.length res v.traceBuf).1 ?_ ?_ ?_
        · rw [Op.apply, traceAppend, appendStream_traceBuf, hv, traceFlush, flushStream_traceBuf, hbuf]
        · rw [hrec]
          exact writeLoop_front _ _ _
        · rw [Op.apply, traceAppend, appendStream_file, hv, traceFlush, flushStream_file, hfile]
        · rintro (hroom | hfails)
          · exact absurd hfull (Nat.not_le.mpr hroom)
          · exact writeLoop_fails hfails
      · have hv : appendLog res resStream data w
            = { w with attempted := w.attempted + 1, traceBuf := w.traceBuf ++ frame data } := by
          rw [appendLog, if_pos hopen]
          exact if_neg hfull
        refine .keep ?_ ?_ ?_
        · rw [Op.apply, traceAppend, appendStream_traceBuf, hv, hrec]
        · rw [Op.apply, traceAppend, appendStream_traceBuf, hv]
          exact List.append_ne_nil_of_right_ne_nil _ (frame_ne_nil data)
        · rw [Op.apply, traceAppend, appendStream_file, hv]

/-! ## What a partial flush leaves -/

theorem wholeRecords_front (m : Nat) (rs : List Rec) : wholeRecords m rs <+: rs := by
  induction rs generalizing m with
  | nil => exact List.prefix_rfl
  | cons r rs ih =>
      rw [wholeRecords]
      split
      · exact List.cons_prefix_cons.mpr ⟨rfl, ih _⟩
      · exact List.nil_prefix

@[simp] theorem wholeRecords_zero (rs : List Rec) : wholeRecords 0 rs = [] := by
  cases rs with
  | nil => rfl
  | cons r rs =>
      have := length_frame r
      rw [wholeRecords, if_neg (by omega)]

/-- The first bytes of framed records are some of them, and a torn one. -/
theorem take_framed (rs : List Rec) (hall : ∀ r ∈ rs, ValidRec r) (m : Nat) :
    ∃ tail, TornTail tail ∧ (framed rs).take m = framed (wholeRecords m rs) ++ tail := by
  induction rs generalizing m with
  | nil => exact ⟨[], tornTail_nil, by simp [wholeRecords]⟩
  | cons r rs ih =>
      rw [framed_cons, List.take_append, wholeRecords]
      by_cases hm : (frame r).length ≤ m
      · obtain ⟨tail, htail, heq⟩ :=
          ih (fun s hs => hall s (List.mem_cons_of_mem _ hs)) (m - (frame r).length)
        refine ⟨tail, htail, ?_⟩
        rw [if_pos hm, List.take_of_length_le hm, heq, framed_cons, List.append_assoc]
      · have hrest : m - (frame r).length = 0 := by omega
        refine ⟨(frame r).take m, ⟨r, hall r List.mem_cons_self, List.take_prefix _ _, ?_⟩, ?_⟩
        · rw [List.length_take]
          omega
        · rw [if_neg hm, hrest, List.take_zero, List.append_nil, framed_nil, List.nil_append]

theorem visitOf_injective : Function.Injective visitOf :=
  fun _ _ h => (Prod.mk.inj h).2

/-- A log that ends where a record ends has no torn record behind its
records. -/
theorem framed_tail_unique {rs ss : List Rec} {tail : List UInt8} (hrs : ∀ r ∈ rs, ValidRec r)
    (hss : ∀ r ∈ ss, ValidRec r) (htail : TornTail tail) (h : framed rs = framed ss ++ tail) :
    tail = [] := by
  have hread := (forEach_framed htail hss (Nat.lt_succ_self _)).1
  have hread' := (forEach_framed tornTail_nil hrs (Nat.lt_succ_self _)).1
  rw [List.append_nil] at hread'
  rw [← h, hread'] at hread
  have hsame : rs = ss := List.map_injective_iff.mpr visitOf_injective hread
  rw [hsame] at h
  exact List.append_right_eq_self.mp h.symm

/-! ## Runs that write nothing behind a tear -/

/-- What holds between the steps: the buffer is whole records, the log is the
records that arrived whole and at most one torn record. -/
structure Run.Inv (s : Run) : Prop where
  opened : s.writer.traceOpen = true
  valid : ∀ r ∈ s.appended, ValidRec r
  buffer : s.writer.traceBuf = framed s.pending
  log : ∃ tail, TornTail tail ∧ s.writer.file = framed s.whole ++ tail
  order : (s.whole ++ s.pending).Sublist s.appended

theorem Run.Inv.start (streamOpen : Bool) : (Run.start streamOpen).Inv where
  opened := rfl
  valid := fun _ h => absurd h List.not_mem_nil
  buffer := rfl
  log := ⟨[], tornTail_nil, rfl⟩
  order := List.Sublist.refl _

theorem Run.Inv.valid_whole {s : Run} (h : s.Inv) : ∀ r ∈ s.whole, ValidRec r :=
  fun r hr => h.valid r (h.order.subset (List.mem_append_left _ hr))

theorem Run.Inv.valid_pending {s : Run} (h : s.Inv) : ∀ r ∈ s.pending, ValidRec r :=
  fun r hr => h.valid r (h.order.subset (List.mem_append_right _ hr))

theorem Run.step_keep {s : Run} {op : Op} (h : (op.apply s.writer).traceBuf ≠ []) :
    (s.step op).pending = s.pending ++ op.records ∧ (s.step op).whole = s.whole :=
  ⟨if_neg h, if_neg h⟩

theorem Run.step_flush {s : Run} {op : Op} {out : List UInt8}
    (h : (op.apply s.writer).traceBuf = [])
    (hfile : (op.apply s.writer).file = s.writer.file ++ out) :
    (s.step op).pending = []
      ∧ (s.step op).whole = s.whole ++ wholeRecords out.length (s.pending ++ op.records) := by
  have hgrow : (op.apply s.writer).file.length - s.writer.file.length = out.length := by
    rw [hfile, List.length_append, Nat.add_sub_cancel_left]
  refine ⟨if_pos h, ?_⟩
  rw [← hgrow]
  exact if_pos h

theorem Run.Inv.step {s : Run} (h : s.Inv) {op : Op} (hvalid : ∀ r ∈ op.records, ValidRec r)
    (hclean : s.writer.AtBoundary ∨ op.Silent s.writer) : (s.step op).Inv := by
  have hbuffered : s.writer.traceBuf ++ framed op.records = framed (s.pending ++ op.records) := by
    rw [framed_append, h.buffer]
  have hpend : ∀ r ∈ s.pending ++ op.records, ValidRec r := by
    intro r hr
    rcases List.mem_append.mp hr with hr | hr
    · exact h.valid_pending r hr
    · exact hvalid r hr
  have hall : ∀ r ∈ s.appended ++ op.records, ValidRec r := by
    intro r hr
    rcases List.mem_append.mp hr with hr | hr
    · exact h.valid r hr
    · exact hvalid r hr
  have horder : (s.whole ++ (s.pending ++ op.records)).Sublist (s.appended ++ op.records) := by
    rw [← List.append_assoc]
    exact h.order.append (List.Sublist.refl _)
  have hopen := (Op.apply_traceOpen op s.writer).trans h.opened
  rcases logStep op h.opened with ⟨hbuf, hnew, hfile⟩ | ⟨hbuf, out, hout, hfile, hsilent⟩
  · obtain ⟨hpending, hwhole⟩ := Run.step_keep hnew
    refine ⟨hopen, hall, ?_, ?_, ?_⟩
    · rw [hpending]
      exact hbuf.trans hbuffered
    · obtain ⟨tail, htail, hlog⟩ := h.log
      rw [hwhole]
      exact ⟨tail, htail, hfile.trans hlog⟩
    · rw [hpending, hwhole]
      exact horder
  · obtain ⟨hpending, hwhole⟩ := Run.step_flush hbuf hfile
    rw [hbuffered] at hout
    refine ⟨hopen, hall, ?_, ?_, ?_⟩
    · rw [hpending]
      exact hbuf
    · obtain ⟨tail, htail, hlog⟩ := h.log
      have hgrown : (s.step op).writer.file = framed s.whole ++ tail ++ out := by
        rw [← hlog]
        exact hfile
      rw [hgrown, hwhole]
      rcases hclean with ⟨rs, hrs, hboundary⟩ | hquiet
      · -- the log ends where a record ends, so the new bytes start one
        have hnil := framed_tail_unique hrs h.valid_whole htail (hboundary.symm.trans hlog)
        obtain ⟨tail', htail', htake⟩ := take_framed _ hpend out.length
        refine ⟨tail', htail', ?_⟩
        rw [hnil, List.append_nil, framed_append, List.append_assoc, ← htake,
          ← List.prefix_iff_eq_take.mp hout]
      · refine ⟨tail, htail, ?_⟩
        rw [hsilent hquiet, List.append_nil, List.length_nil, wholeRecords_zero, List.append_nil]
    · rw [hpending, hwhole, List.append_nil]
      exact ((List.Sublist.refl _).append (wholeRecords_front _ _).sublist).trans horder

theorem Run.Inv.steps {s : Run} (h : s.Inv) {ops : List Op}
    (hvalid : ∀ r ∈ handedOver ops, ValidRec r) (hclean : s.NoWriteAfterTear ops) :
    (s.steps ops).Inv := by
  induction ops generalizing s with
  | nil => exact h
  | cons op ops ih =>
      rw [handedOver, List.flatMap_cons] at hvalid
      have hstep := h.step (fun r hr => hvalid r (List.mem_append_left _ hr)) hclean.1
      exact ih hstep (fun r hr => hvalid r (List.mem_append_right _ hr)) hclean.2

theorem Run.Inv.readable {s : Run} (h : s.Inv) : s.Readable := by
  obtain ⟨tail, htail, hlog⟩ := h.log
  obtain ⟨hvisit, hstatus⟩ :=
    forEach_framed htail h.valid_whole (Nat.lt_succ_self _)
  rw [← hlog] at hvisit hstatus
  refine ⟨?_, ?_, hstatus⟩
  · rw [forEach, hvisit]
    exact ((List.sublist_append_left _ _).trans h.order).map _
  · rw [forEach, hvisit]

/-- **A log nothing is written to behind a torn record is readable**: the
reader visits exactly what arrived whole. -/
theorem forEach_run (streamOpen : Bool) (ops : List Op)
    (hvalid : ∀ r ∈ handedOver ops, ValidRec r)
    (hclean : (Run.start streamOpen).NoWriteAfterTear ops) :
    ((Run.start streamOpen).steps ops).Readable :=
  ((Run.Inv.start streamOpen).steps hvalid hclean).readable

/-- A record that arrives whole, and one the device has no room for. -/
theorem forEach_run_full :
    ((Run.start false).steps
      [.append [1, 0, 0, 0] (fun _ => 8) (fun _ => 0), .flush (fun _ => 8) (fun _ => 0),
       .append [2, 0, 0, 0, 9] (fun _ => 8) (fun _ => 0),
       .flush (fun i => if i = 0 then 6 else 0) (fun _ => 0)]).Readable :=
  forEach_run false _ (by decide) ⟨.inl ⟨[], by decide, rfl⟩, .inl ⟨[], by decide, rfl⟩,
    .inl ⟨[[1, 0, 0, 0]], by decide, rfl⟩, .inl ⟨[[1, 0, 0, 0]], by decide, rfl⟩, trivial⟩

/-- Three bytes of a record arrive and the next `write` fails; the record
flushed afterwards is whole in the file, and its length is read from the wrong
place. -/
theorem forEach_run_torn :
    ¬ ∀ ops : List Op, (∀ r ∈ handedOver ops, ValidRec r) →
      ((Run.start false).steps ops).Readable := by
  intro h
  have hread :
      (forEach ((Run.start false).steps
        [.append [1, 0, 0, 0] (fun _ => 8) (fun _ => 0),
         .flush (fun i => if i = 0 then 3 else 0) (fun _ => 0),
         .append [2, 0, 0, 0] (fun _ => 8) (fun _ => 0),
         .flush (fun _ => 8) (fun _ => 0)]).writer.file).2 = .corruptLength 0x04000004 := by
    decide +kernel
  exact (h _ (by decide)).status _ hread

end Montauk.Trace
