import Montauk.Collect.Provider
import Montauk.Trace.Log
import Montauk.Trace.Migrations
import Montauk.Trace.Ntsync

/-!
# The records of the log

Every record that the collector hands to `trace_append`, with its size: the
structs of the ring buffer, the drop and kick counters, the cache topology and
the snapshots of the providers. The reader takes a length from 4 to
`kTraceMaxRecordLen` for a record and anything else for corruption.

All but the last are of a fixed size or a bounded one. The text of a provider
is as long as the provider makes it, and one that does not fit ends the reading
of the log (`log_provider_long`); a log without such a text is read back as it
was written (`log_read_iff`).
-/

namespace Montauk.Trace

open Scan Collect Emit
open Json (utf8)

/-! ## Structs -/

/-- The scalar types of the event structs. -/
inductive CType where
  | char
  | u8
  | u32
  | s32
  | u64
  | s64

def CType.size : CType → Nat
  | .char => 1
  | .u8 => 1
  | .u32 => 4
  | .s32 => 4
  | .u64 => 8
  | .s64 => 8

def alignUp (a n : Nat) : Nat := (n + (a - 1)) / a * a

/-- `sizeof` a struct of these fields, each with its number of elements. -/
def sizeOfStruct (fields : List (CType × Nat)) : Nat :=
  alignUp ((fields.map fun f => f.1.size).foldl max 1)
    (fields.foldl (fun off f => alignUp f.1.size off + f.1.size * f.2) 0)

/-- The structs that go through the ring buffer. -/
inductive RingStruct where
  | ring
  | io
  | ntsync
  | sched
  | heap
  | signal
  | mmap
  | abort
  | heapstack
  | keyedevt
  | kstrand
  | waitstack
  | rawstack

def traceStackMaxFrames : Nat := 32
def traceAbortMsgMax : Nat := 128
def traceRawstackBytes : Nat := 1024

/-- The fields, in the order of the header. -/
def RingStruct.fields : RingStruct → List (CType × Nat)
  | .ring => [(.u32, 1), (.u32, 1), (.u32, 1), (.u32, 1), (.char, 16), (.char, 64)]
  | .io =>
      [(.u32, 1), (.u32, 1), (.u32, 1), (.s32, 1), (.s32, 1), (.s64, 1), (.u64, 1), (.u32, 1),
        (.char, 16), (.u64, 1), (.u64, 1)]
  | .ntsync =>
      [(.u32, 1), (.u32, 1), (.u32, 1), (.u8, 1), (.u8, 3), (.s32, 1), (.s64, 1), (.u64, 1),
        (.u32, 1), (.u32, 1), (.u64, 1), (.u32, 1), (.u32, 1), (.u32, 1), (.u32, 1),
        (.u32, ntsyncMaxWaitFds), (.u64, 1), (.u64, ntsyncMaxWaitFds), (.char, 16)]
  | .sched =>
      [(.u32, 1), (.u32, 1), (.u32, 1), (.s32, 1), (.s32, 1), (.s32, 1), (.u32, 1), (.u32, 1),
        (.u64, 1), (.u64, 1), (.u64, 1), (.u64, 1)]
  | .heap =>
      [(.u32, 1), (.u32, 1), (.u32, 1), (.u32, 1), (.u64, 1), (.u64, 1), (.u64, 1), (.u64, 1),
        (.char, 16)]
  | .signal =>
      [(.u32, 1), (.u32, 1), (.u32, 1), (.u32, 1), (.s32, 1), (.s32, 1), (.s32, 1), (.u32, 1),
        (.u64, traceStackMaxFrames), (.u64, 1), (.char, 16), (.s32, 1), (.s32, 1), (.u64, 1),
        (.u64, 1)]
  | .mmap =>
      [(.u32, 1), (.u32, 1), (.u32, 1), (.s32, 1), (.u64, 1), (.u64, 1), (.u64, 1), (.u32, 1),
        (.u32, 1), (.u64, 1), (.char, 16)]
  | .abort =>
      [(.u32, 1), (.u32, 1), (.u32, 1), (.u32, 1), (.u32, 1), (.u32, 1),
        (.u64, traceStackMaxFrames), (.u64, 1), (.char, 16), (.char, traceAbortMsgMax),
        (.char, traceAbortMsgMax)]
  | .heapstack =>
      [(.u32, 1), (.u32, 1), (.u32, 1), (.u32, 1), (.u64, 1), (.u64, 1), (.u32, 1), (.u32, 1),
        (.u64, traceStackMaxFrames), (.u64, 1), (.char, 16)]
  | .keyedevt => [(.u32, 1), (.u32, 1), (.u32, 1), (.u32, 1), (.u64, 1), (.u64, 1), (.char, 16)]
  | .kstrand => [(.u32, 1), (.u32, 1), (.u32, 1), (.u32, 1), (.u64, 1), (.u64, 1), (.char, 16)]
  | .waitstack =>
      [(.u32, 1), (.u32, 1), (.u32, 1), (.u32, 1), (.u64, 1), (.u64, 1),
        (.u64, traceStackMaxFrames), (.u64, 1), (.char, 16)]
  | .rawstack =>
      [(.u32, 1), (.u32, 1), (.u32, 1), (.u32, 1), (.u64, 1), (.u64, 1), (.u64, 1), (.u64, 1),
        (.u64, 1), (.u8, traceRawstackBytes), (.char, 16)]

/-- The event types that a struct is sent under. -/
def RingStruct.types : RingStruct → List Nat
  | .ring => [1, 2, 3, 4, 18]
  | .io => [5]
  | .ntsync => [6]
  | .sched => [7]
  | .heap => [8]
  | .signal => [9]
  | .mmap => [10]
  | .abort => [12]
  | .heapstack => [13]
  | .keyedevt => [14]
  | .kstrand => [15]
  | .waitstack => [16]
  | .rawstack => [19]

def RingStruct.size (k : RingStruct) : Nat := sizeOfStruct k.fields

example : RingStruct.ntsync.size = 192 := by decide

/-- A sample of the ring buffer, as `handle_event` gets it: as long as its
struct, the type in front. -/
structure RingRecord where
  kind : RingStruct
  bytes : Rec
  length_eq : bytes.length = kind.size
  type_mem : le32Val (bytes.take 4) ∈ kind.types

/-! ## Records of the collector -/

def le64 (n : UInt64) : List UInt8 := le32 (n.toNat % 2 ^ 32) ++ le32 (n.toNat / 2 ^ 32)

@[simp] theorem length_le64 (n : UInt64) : (le64 n).length = 8 := rfl

/-- `struct montauk_drop_event`. -/
structure DropEvent where
  tsNs : UInt64
  dropped : Vector UInt64 24
  writerAttempted : UInt64
  writerErrors : UInt64
  writerLostBytes : UInt64

def DropEvent.bytes (e : DropEvent) : Rec :=
  le32 20 ++ le32 0 ++ le64 e.tsNs ++ e.dropped.toList.flatMap le64 ++ le64 e.writerAttempted ++
    le64 e.writerErrors ++ le64 e.writerLostBytes

/-- `struct montauk_scx_storm_event`. -/
structure StormEvent where
  intervalMs : UInt32
  kicks : UInt64
  preemptKicks : UInt64
  reenq : UInt64
  timestampNs : UInt64

def StormEvent.bytes (e : StormEvent) : Rec :=
  le32 17 ++ le32 e.intervalMs.toNat ++ le64 e.kicks ++ le64 e.preemptKicks ++ le64 e.reenq ++
    le64 e.timestampNs

/-- `struct montauk_provider_event` and the text behind it. -/
def providerBytes (timestampNs : UInt64) (name text : List UInt8) : Rec :=
  le32 11 ++ le32 0 ++ le64 timestampNs ++ cbuf 32 (cstr name) ++ le32 (text.length % 2 ^ 32) ++
    le32 0 ++ text

/-- The cache domains and the socket of a CPU. -/
structure CpuTopology where
  l2 : UInt32
  l3 : UInt32
  socket : UInt32

/-- The CPUs of the machine, no more than `TRACE_MAX_CPUS`. -/
structure CacheTopology where
  cpus : List CpuTopology
  few : cpus.length ≤ traceMaxCpus

/-- The line of a CPU, cut to its buffer of 160 bytes. -/
def topologyLine (cpu : Nat) (t : CpuTopology) : List UInt8 :=
  (utf8 "montauk_cache_topology\x7bcpu=\"".toList ++ decimal cpu ++
    utf8 "\",l2=\"".toList ++ decimal t.l2.toNat ++ utf8 "\",l3=\"".toList ++
    decimal t.l3.toNat ++ utf8 "\",socket=\"".toList ++ decimal t.socket.toNat ++
    utf8 "\"\x7d 1\n".toList).take 159

def CacheTopology.text (t : CacheTopology) : List UInt8 :=
  t.cpus.zipIdx.flatMap fun p => topologyLine p.2 p.1

/-- What the collector appends. A provider is one that `sample` has taken. -/
inductive Source {D : Type} (lib : DoubleText D) where
  | ring (r : RingRecord)
  | drops (e : DropEvent)
  | storm (e : StormEvent)
  | topology (timestampNs : UInt64) (t : CacheTopology)
  | provider (timestampNs : UInt64) (p : Provider D)
      (sampled : ∃ name rs, sampleProvider lib name rs = some p)

/-- The bytes handed to `trace_append`. -/
def Source.record {D : Type} {lib : DoubleText D} : Source lib → Rec
  | .ring r => r.bytes
  | .drops e => e.bytes
  | .storm e => e.bytes
  | .topology timestampNs t => providerBytes timestampNs (utf8 "cache_topology".toList) t.text
  | .provider timestampNs p _ => providerBytes timestampNs p.name p.rawText

/-! ## The file -/

def kTraceMagic : List UInt8 := utf8 "MTKTRACE".toList

def kTraceFormatVersion : Nat := 1

/-- `struct TraceFileHeader`. -/
structure TraceFileHeader where
  monoAnchorNs : UInt64
  realAnchorNs : UInt64
  pattern : List UInt8

/-- The header as `set_binary_output` writes it. -/
def TraceFileHeader.bytes (h : TraceFileHeader) : List UInt8 :=
  kTraceMagic ++ (le32 kTraceFormatVersion ++ (le32 0 ++ (le64 h.monoAnchorNs ++
    (le64 h.realAnchorNs ++ cbuf 32 (cstr h.pattern)))))

inductive OpenError where
  | shortHeader
  | badMagic
  | badVersion

/-- `TraceReader::open`: the body behind the header. -/
def openTrace (file : List UInt8) : Except OpenError (List UInt8) :=
  if file.length < 64 then .error .shortHeader
  else if file.take 8 ≠ kTraceMagic then .error .badMagic
  else if le32Val ((file.drop 8).take 4) ≠ kTraceFormatVersion then .error .badVersion
  else .ok (file.drop 64)

def readTrace (file : List UInt8) : Except OpenError (List (Nat × Rec) × TraceReadStatus) :=
  (openTrace file).map forEach

/-- The length in the frame of a record. -/
def frameLen (r : Rec) : Nat := le32Val ((frame r).take 4)

/-! ## Sizes -/

theorem validRec_ring (r : RingRecord) : ValidRec r.bytes := by
  have hsize : ∀ k : RingStruct, 4 ≤ k.size ∧ k.size ≤ kTraceMaxRecordLen := by
    intro k
    cases k <;> decide
  have hk := hsize r.kind
  rw [← r.length_eq] at hk
  exact ⟨hk.1, hk.2⟩

theorem length_drops (e : DropEvent) : e.bytes.length = 232 := by
  have hflat : ∀ l : List UInt64, (l.flatMap le64).length = 8 * l.length := by
    intro l
    induction l with
    | nil => rfl
    | cons n l ih =>
      rw [List.flatMap_cons, List.length_append, length_le64, ih, List.length_cons]
      omega
  simp only [DropEvent.bytes, List.length_append, length_le32, length_le64, hflat,
    Vector.length_toList]

theorem length_storm (e : StormEvent) : e.bytes.length = 40 := by
  simp only [StormEvent.bytes, List.length_append, length_le32, length_le64]

theorem length_provider (timestampNs : UInt64) (name text : List UInt8) :
    (providerBytes timestampNs name text).length = 56 + text.length := by
  simp only [providerBytes, List.length_append, length_le32, length_le64, length_cbuf]

theorem length_topology (t : CacheTopology) : t.text.length ≤ 159 * traceMaxCpus := by
  have hline : ∀ l : List (CpuTopology × Nat),
      (l.flatMap fun p => topologyLine p.2 p.1).length ≤ 159 * l.length := by
    intro l
    induction l with
    | nil => exact Nat.le_refl _
    | cons p l ih =>
      have hp : (topologyLine p.2 p.1).length ≤ 159 := List.length_take_le _ _
      rw [List.flatMap_cons, List.length_append, List.length_cons]
      omega
  have hlen := hline t.cpus.zipIdx
  rw [List.length_zipIdx] at hlen
  have hfew := t.few
  unfold CacheTopology.text
  omega

section

variable {D : Type} {lib : DoubleText D}

/-- The text of a provider fits into a record with the header in front. -/
def Source.Fits : Source lib → Prop
  | .provider _ p _ => 56 + p.rawText.length ≤ kTraceMaxRecordLen
  | _ => True

/-- Every record but a provider's fits, of whatever content. -/
theorem validRec_iff (s : Source lib) : ValidRec s.record ↔ s.Fits := by
  have hmax : kTraceMaxRecordLen = 2 ^ 20 := rfl
  have hcpus : traceMaxCpus = 256 := rfl
  cases s with
  | ring r => exact ⟨fun _ => trivial, fun _ => validRec_ring r⟩
  | drops e =>
    have hlen : (Source.record (.drops e : Source lib)).length = 232 := length_drops e
    exact ⟨fun _ => trivial, fun _ => ⟨by omega, by omega⟩⟩
  | storm e =>
    have hlen : (Source.record (.storm e : Source lib)).length = 40 := length_storm e
    exact ⟨fun _ => trivial, fun _ => ⟨by omega, by omega⟩⟩
  | topology timestampNs t =>
    have hlen : (Source.record (.topology timestampNs t : Source lib)).length
        = 56 + t.text.length := length_provider ..
    have htext := length_topology t
    exact ⟨fun _ => trivial, fun _ => ⟨by omega, by omega⟩⟩
  | provider timestampNs p sampled =>
    have hlen : (Source.record (.provider timestampNs p sampled : Source lib)).length
        = 56 + p.rawText.length := length_provider ..
    constructor
    · intro h
      have hfits := h.fits
      rw [hlen] at hfits
      exact hfits
    · intro h
      replace h : 56 + p.rawText.length ≤ kTraceMaxRecordLen := h
      exact ⟨by omega, by omega⟩

end

/-! ## What the reader takes -/

/-- A body that is read back as it was written holds valid records only. -/
theorem validRec_of_forEach : ∀ {rs : List Rec} {n : Nat},
    forEachLoop n (framed rs) = (rs.map visitOf, .ok) → ∀ r ∈ rs, ValidRec r
  | [], _, _, _, hr => by cases hr
  | r :: rs, 0, h, _, _ => by
    have hlen := congrArg (fun x => x.1.length) h
    simp [forEachLoop] at hlen
  | r :: rs, n + 1, h, s, hs => by
    by_cases hv : ValidRec r
    · rw [framed_cons, forEachLoop_frame hv] at h
      obtain ⟨hvisits, hst⟩ := Prod.mk.inj h
      have htail : forEachLoop n (framed rs) = (rs.map visitOf, .ok) :=
        Prod.ext (List.cons.inj hvisits).2 hst
      rcases List.mem_cons.mp hs with rfl | hs
      · exact hv
      · exact validRec_of_forEach htail s hs
    · -- a length the reader takes is not the length of this record
      exfalso
      have htake : (frame r ++ framed rs).take 4 = le32 (r.length % 2 ^ 32) := by
        rw [frame, List.append_assoc, List.take_left' (length_le32 _)]
      have hdrop : (frame r ++ framed rs).drop 4 = r ++ framed rs := by
        rw [frame, List.append_assoc, List.drop_left' (length_le32 _)]
      have hlong : ¬ (frame r ++ framed rs).length < 4 := by
        rw [List.length_append, length_frame]
        omega
      rw [framed_cons, forEachLoop, if_neg hlong, htake, hdrop] at h
      dsimp only at h
      split_ifs at h with hbad hshort
      · cases h
      · cases h
      · obtain ⟨hvisits, -⟩ := Prod.mk.inj h
        have hhead := (Prod.mk.inj (List.cons.inj hvisits).1).2
        have hlen := congrArg List.length hhead
        rw [List.length_take] at hlen
        rw [not_or] at hbad
        exact hv ⟨by omega, by omega⟩

theorem forEach_framed_iff (rs : List Rec) :
    forEach (framed rs) = (rs.map visitOf, .ok) ↔ ∀ r ∈ rs, ValidRec r := by
  constructor
  · exact fun h => validRec_of_forEach h
  · intro h
    have hloop : ∀ {ss : List Rec} {n : Nat}, (∀ r ∈ ss, ValidRec r) → (framed ss).length < n →
        forEachLoop n (framed ss) = (ss.map visitOf, .ok) := by
      intro ss
      induction ss with
      | nil =>
        intro n _ hn
        cases n with
        | zero => rfl
        | succ n => rfl
      | cons r ss ih =>
        intro n hall hn
        cases n with
        | zero => exact absurd hn (Nat.not_lt_zero _)
        | succ n =>
          obtain ⟨hr, hss⟩ := List.forall_mem_cons.mp hall
          have hlt : (framed ss).length < n := by
            rw [framed_cons, List.length_append, length_frame] at hn
            omega
          rw [framed_cons, forEachLoop_frame hr, ih hss hlt]
          rfl
    exact hloop h (Nat.lt_succ_self _)

theorem openTrace_header (h : TraceFileHeader) (body : List UInt8) :
    openTrace (h.bytes ++ body) = .ok body := by
  have hmagic : kTraceMagic.length = 8 := by decide
  have hlen : h.bytes.length = 64 := by
    simp only [TraceFileHeader.bytes, List.length_append, length_le32, length_le64, length_cbuf,
      hmagic]
  have htake : (h.bytes ++ body).take 8 = kTraceMagic := by
    rw [TraceFileHeader.bytes, List.append_assoc, List.take_left' hmagic]
  have hversion : ((h.bytes ++ body).drop 8).take 4 = le32 kTraceFormatVersion := by
    rw [TraceFileHeader.bytes, List.append_assoc, List.drop_left' hmagic, List.append_assoc,
      List.take_left' (length_le32 _)]
  unfold openTrace
  rw [if_neg, htake, if_neg (not_not_intro rfl), hversion, if_neg, List.drop_left' hlen]
  · exact not_not_intro (le32Val_le32 (by decide))
  · rw [List.length_append]
    omega

section

variable {D : Type} {lib : DoubleText D}

/-- The log is read back: every frame has a length the reader takes, and the
walk visits every record and ends at the end of the file. -/
structure ReadBack (hdr : TraceFileHeader) (ss : List (Source lib)) : Prop where
  lengths : ∀ s ∈ ss, 4 ≤ frameLen s.record ∧ frameLen s.record ≤ kTraceMaxRecordLen
  read : readTrace (hdr.bytes ++ framed (ss.map Source.record))
    = .ok ((ss.map Source.record).map visitOf, .ok)

theorem readTrace_iff (hdr : TraceFileHeader) (rs : List Rec) :
    readTrace (hdr.bytes ++ framed rs) = .ok (rs.map visitOf, .ok) ↔ ∀ r ∈ rs, ValidRec r := by
  unfold readTrace
  rw [openTrace_header, ← forEach_framed_iff]
  exact ⟨fun h => Except.ok.inj h, fun h => congrArg Except.ok h⟩

/-- Any log of the collector is read back if and only if the text of each of
its provider snapshots fits into a record. -/
theorem log_read_iff (hdr : TraceFileHeader) (ss : List (Source lib)) :
    ReadBack hdr ss ↔ ∀ s ∈ ss, s.Fits := by
  have hvalid : (∀ r ∈ ss.map Source.record, ValidRec r) ↔ ∀ s ∈ ss, s.Fits := by
    rw [List.forall_mem_map]
    exact forall_congr' fun s => imp_congr_right fun _ => validRec_iff s
  constructor
  · intro h
    exact hvalid.mp ((readTrace_iff hdr _).mp h.read)
  · intro h
    refine ⟨fun s hs => ?_, (readTrace_iff hdr _).mpr (hvalid.mpr h)⟩
    have hv := (validRec_iff s).mpr (h s hs)
    have hframe : frameLen s.record = s.record.length := by
      unfold frameLen
      rw [frame, List.take_left' (length_le32 _), hv.le32Val]
    rw [hframe]
    exact ⟨hv.type, hv.fits⟩

end

/-- The reads of a provider that dumps the sample `a 1` and a comment of `n`
buffers. -/
def longReads (n : Nat) : List ReadResult :=
  .data [0x61, 0x20, 0x31, 0x0a] ⟨by decide, by decide⟩ ::
    (List.replicate n (.data (List.replicate readBufSize 0x23)
      ⟨by rw [List.length_replicate]; decide, by rw [List.length_replicate]⟩) ++ [.eof])

theorem readLoop_replicate (n : Nat) {buf : List UInt8}
    (fits : 0 < buf.length ∧ buf.length ≤ readBufSize) (text : List UInt8) :
    readLoop (List.replicate n (.data buf fits) ++ [.eof]) text
      = some (text ++ (List.replicate n buf).flatten) := by
  induction n generalizing text with
  | zero => simp [readLoop]
  | succ n ih =>
    rw [List.replicate_succ, List.cons_append, readLoop, ih, List.replicate_succ,
      List.flatten_cons, List.append_assoc]

theorem sampleProvider_long (n : Nat) : ∃ p,
    sampleProvider oneText [0x61] (longReads n) = some p ∧
      p.rawText.length = 4 + n * readBufSize := by
  let comment : List UInt8 := (List.replicate n (List.replicate readBufSize 0x23)).flatten
  have hread : readProviderSocket (longReads n) = some ([0x61, 0x20, 0x31] ++ Ch.newline :: comment) := by
    unfold readProviderSocket longReads
    rw [readLoop, readLoop_replicate]
    rfl
  have hline : parseLine oneText [0x61, 0x20, 0x31]
      = some { name := [0x61], labels := [], value := () } := rfl
  have hparse : parsePrometheus oneText ([0x61, 0x20, 0x31] ++ Ch.newline :: comment)
      = { name := [0x61], labels := [], value := () } :: parsePrometheus oneText comment := by
    rw [parsePrometheus_cons oneText (by decide), hline]
    rfl
  unfold sampleProvider
  rw [hread]
  simp only [hparse]
  refine ⟨_, if_neg (Nat.succ_ne_zero _), ?_⟩
  simp [comment]
  omega

/-- A provider with a text of more than a megabyte ends the reading. -/
theorem log_provider_long :
    ¬ ∀ (D : Type) (lib : DoubleText D) (hdr : TraceFileHeader) (ss : List (Source lib)),
      ReadBack hdr ss := by
  intro h
  obtain ⟨p, hp, hlen⟩ := sampleProvider_long 257
  have hread := (h Unit oneText ⟨0, 0, []⟩ [.provider 0 p ⟨_, _, hp⟩]).read
  have hvalid := (readTrace_iff ⟨0, 0, []⟩ _).mp hread _ List.mem_cons_self
  have hfits : 56 + p.rawText.length ≤ kTraceMaxRecordLen := (validRec_iff _).mp hvalid
  rw [hlen] at hfits
  exact absurd hfits (by decide)

end Montauk.Trace
