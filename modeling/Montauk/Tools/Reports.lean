import Montauk.Machine.Timeline
import Montauk.Tools.Golden
import Montauk.Trace.Futex
import Montauk.Trace.Records

/-!
# What the reports are made of

The records a report folds, the result it publishes, and what its conclusion is
written with: counts, quantiles, names of objects and threads. Doubles and the
statistics on them are a parameter, and so are the row qualifiers and the maps
of the traced processes.

A record is taken as the analyzer casts it; one that is too short for its
struct, or of a type that no report looks at, is `other`. A hash map is walked
in the order in which its keys first came, the other maps in the order of their
keys.
-/

namespace Montauk.Tools

open Scan Timeline Trace
open App (spelling)
open Emit (decimal)
open Json (utf8)

/-! ## Records -/

/-- `enum sched_trace_op`. -/
inductive SchedOp where
  | enqueue | pick | pickEmpty | preemptTick | preemptWakeup | wakeup | wake2run | cpuIdle
  | switchIn | fieldGate | kickIssue | resched | tickStop
  | unknown
deriving DecidableEq

/-- `struct montauk_sched_event`. -/
structure SchedEvent where
  op : SchedOp
  cpu : UInt32
  pid : Int32
  secondaryPid : Int32
  lastCpu : Int32
  subIdx : UInt32
  freqMhz : UInt32
  score : UInt64
  runtimeNs : UInt64
  budgetNs : UInt64
  timestampNs : UInt64

/-- `enum heap_op`. -/
inductive HeapOp where
  | malloc | free | realloc | calloc
  | unknown
deriving DecidableEq

/-- `struct montauk_heap_event`. -/
structure HeapEvent where
  pid : UInt32
  tid : UInt32
  op : HeapOp
  addr : UInt64
  size : UInt64
  newAddr : UInt64
  timestampNs : UInt64
  comm : List UInt8

/-- `struct montauk_kstrand_event`. -/
structure KstrandEvent where
  tid : UInt32
  cpu : UInt32
  nrCpusAllowed : UInt32
  latencyNs : UInt64
  timestampNs : UInt64
  comm : List UInt8

/-- The types a `struct montauk_ring_event` comes under. -/
inductive RingType where
  | exec | fork | exit | commChange | threadName
deriving DecidableEq

/-- `struct montauk_ring_event`. -/
structure RingEvent where
  type : RingType
  pid : UInt32
  ppid : UInt32
  childPid : UInt32
  comm : List UInt8

/-- `struct montauk_provider_event`, with the bytes that follow it in the
record. -/
structure ProviderEvent where
  timestampNs : UInt64
  name : List UInt8
  payloadLen : UInt32
  rest : List UInt8

/-- A record of the log. -/
inductive TraceRecord where
  | sync (e : TraceEvent)
  | sched (e : SchedEvent)
  | heap (e : HeapEvent)
  | kstrand (e : KstrandEvent)
  | storm (e : StormEvent)
  | ring (e : RingEvent)
  | waitstack (tid : UInt32) (comm : List UInt8)
  | provider (e : ProviderEvent)
  | other

/-- The scheduler's record in it, if it is one. -/
def TraceRecord.schedEvent? : TraceRecord → Option SchedEvent
  | .sched e => some e
  | _ => none

/-- `sync_wait`. -/
def TraceRecord.syncWait? : TraceRecord → Option SyncWait
  | .sync e => syncWait e
  | _ => none

def isSignalOp : NtsyncOp → Bool
  | .eventSet | .eventReset | .semRelease | .mutexUnlock => true
  | _ => false

def futexIsWake (opb : UInt32) : Bool := opb == 1 || opb == 10 || opb == 7

/-- `struct SyncSignal`. -/
structure SyncSignal where
  tid : UInt32
  obj : UInt64
  ts : UInt64

/-- `sync_signal`. -/
def TraceRecord.syncSignal? : TraceRecord → Option SyncSignal
  | .sync (.ntsync e) =>
      if !isSignalOp e.op then none else some ⟨e.tid, e.fd.toUInt32.toUInt64, e.timestampNs⟩
  | .sync (.io e) =>
      if e.syscallNr != 202 then none
      else if !futexIsWake (e.fd.toUInt32 &&& 0x7f) then none
      else some ⟨e.tid, e.count, e.timestampNs⟩
  | _ => none

def tidObjKey (tid : UInt32) (obj : UInt64) : UInt64 :=
  (tid.toUInt64 * 0x9E3779B97F4A7C15) ^^^ (obj + 0x165667B19E3779F9)

/-! ## What the reports compute with -/

/-- Doubles, with the constants of the source and `%.*f`. -/
structure Arith (F : Type) where
  ofNat : Nat → F
  ofRat : Rat → F
  nan : F
  add : F → F → F
  sub : F → F → F
  mul : F → F → F
  div : F → F → F
  fabs : F → F
  lt : F → F → Bool
  le : F → F → Bool
  finite : F → Bool
  /-- The cast to an unsigned integer. -/
  toNat : F → Nat
  fixed : Nat → F → List UInt8

/-- `montauk::stats` and the classifier, as far as the reports call them. -/
structure Stats (F : Type) where
  /-- The exponent, its standard error and the decades of scale. -/
  dfaHurst : List F → F × F × F
  rsHurst : List F → F
  avalancheTail : List F → Int × F
  inversionRatio : List UInt64 → F

/-- The row qualifiers; a negative number matches every row. -/
structure Qualifiers where
  sig : Int32 := -1
  comm : List UInt8 := []
  pid : Int64 := -1
  tid : Int64 := -1

/-- What a run of the analyzer is given besides the trace. -/
structure ReportEnv (F : Type) extends Arith F, Stats F where
  qual : Qualifiers
  redact : Bool
  /-- `MapsResolver::resolve`, empty where nothing is mapped. -/
  resolve : UInt32 → UInt64 → List UInt8
  ioSyscallName : Int32 → List UInt8

/-- `qual_match`. -/
def Qualifiers.matches (q : Qualifiers) (sig : Int32) (pid tid : UInt32) (comm : List UInt8) :
    Bool :=
  if 0 ≤ q.sig && sig != q.sig then false
  else if 0 ≤ q.pid && pid != q.pid.toUInt64.toUInt32 then false
  else if 0 ≤ q.tid && tid != q.tid.toUInt64.toUInt32 then false
  else q.comm == [] || holds (cstr (comm.take 16)) q.comm

/-- The call of `qual_match` for a scheduler's record. -/
def Qualifiers.matchesPid (q : Qualifiers) (e : SchedEvent) : Bool :=
  q.matches (-1) e.pid.toUInt32 e.pid.toUInt32 []

/-- The digits of `%x`, at least `width` of them. -/
def hex (width n : Nat) : List UInt8 :=
  let digits := utf8 (Nat.toDigits 16 n)
  List.replicate (width - digits.length) 0x30 ++ digits

/-- `%u`, `%zu` and `%llu`. -/
def num (n : Nat) : List UInt8 := decimal n

variable {F : Type} (env : ReportEnv F)

def redactComm (comm : List UInt8) : List UInt8 :=
  let name := cstr (comm.take 16)
  if !env.redact then name
  else
    let h := name.foldl (fun h c => (h ^^^ c.toUInt64) * 1099511628211)
      (1469598103934665603 : UInt64)
    spelling "comm#" ++ hex 8 h.toUInt32.toNat

def syncObjName (pid : UInt32) (obj : UInt64) (isFutex : Bool) : List UInt8 :=
  if !isFutex then spelling "ntsync fd " ++ num obj.toNat else env.resolve pid obj

def fmtObj (pid : UInt32) (obj : UInt64) (isFutex : Bool) : List UInt8 :=
  let name := syncObjName env pid obj isFutex
  spelling "0x" ++ hex 16 obj.toNat
    ++ if name ≠ [] then spelling " (" ++ name ++ spelling ")" else []

/-- The loop of `fmt_count`: the number in the largest of these units it fills. -/
def scaleCount : List String → F → F × String
  | [], n => (n, "")
  | [unit], n => (n, unit)
  | unit :: units, n =>
      if env.le (env.ofNat 1000) (env.fabs n) then scaleCount units (env.div n (env.ofNat 1000))
      else (n, unit)

def fmtCount (n : F) : List UInt8 :=
  let s := scaleCount env ["", "k", "M", "G", "T"] n
  if s.2 = "" ∨ env.le (env.ofRat 99.95) (env.fabs s.1) = true then
    env.fixed 0 s.1 ++ spelling s.2
  else env.fixed 1 s.1 ++ spelling s.2

def us (ns : UInt64) : F := env.div (env.ofNat ns.toNat) (env.ofNat 1000)

def ms (ns : UInt64) : F := env.div (env.ofNat ns.toNat) (env.ofNat 1000000)

/-- `q_at`, over a row in order. -/
def qAt (v : List UInt64) (f : Rat) : UInt64 :=
  let i := env.toNat (env.mul (env.ofNat v.length) (env.ofRat f))
  v.getD (if v.length ≤ i then v.length - 1 else i) 0

def qUs (v : List UInt64) (f : Rat) : F := us env (qAt env v f)

def qMs (v : List UInt64) (f : Rat) : F := ms env (qAt env v f)

/-- `100.0 * part / whole`, and zero of nothing. -/
def percent (part whole : Nat) : F :=
  if whole ≠ 0 then env.div (env.mul (env.ofNat 100) (env.ofNat part)) (env.ofNat whole)
  else env.ofNat 0

/-- `sublimation_u64`. -/
def sorted (v : List UInt64) : List UInt64 := v.mergeSort fun a b => a ≤ b

/-- `sublimation_order_u64`, ascending. The scratch of the sort under it,
`sublimation_pack_sort_u64`, is taken to be allocated: without it the order
stays as it is. -/
def orderBy {β : Type} (key : β → UInt64) (v : List β) : List β :=
  v.mergeSort fun a b => key a ≤ key b

/-! ## What a report publishes -/

/-- `struct ReportResult`, less the offenders, which no `compute` writes. -/
structure ReportResult (F : Type) where
  verdict : List UInt8 := []
  klass : List UInt8 := []
  gauges : List (PromMetric F) := []

namespace ReportResult

variable {F : Type}

/-- `set_verdict`: the token, and the text as its buffer of 512 bytes leaves
it. -/
def setVerdict (klass : String) (text : List (List UInt8)) (r : ReportResult F) : ReportResult F :=
  { r with verdict := text.flatten.take 511, klass := spelling klass }

def gauge (name : String) (labels : List UInt8) (value : F) (r : ReportResult F) :
    ReportResult F :=
  { r with gauges := r.gauges ++ [⟨spelling name, labels, value⟩] }

/-- A family of gauges, one for each member of a list. -/
def gaugeEach {β : Type} (name : String) (rows : List β) (labels : β → List UInt8) (value : β → F)
    (r : ReportResult F) : ReportResult F :=
  { r with gauges := r.gauges ++ rows.map fun b => ⟨spelling name, labels b, value b⟩ }

/-- `push_quantile_gauges`. -/
def quantiles (name : String) (qs : List (String × F)) (r : ReportResult F) : ReportResult F :=
  r.gaugeEach name qs (fun q => spelling "quantile=\"" ++ spelling q.1 ++ spelling "\"") Prod.snd

end ReportResult

end Montauk.Tools
