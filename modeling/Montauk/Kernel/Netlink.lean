import Montauk.Kernel.ProcTable
import Montauk.Machine.Attributes
import Montauk.Machine.Scan

/-!
# The snapshot of the kernel module

`GET_SNAPSHOT` walks the process table and answers with one message: an
attribute with the fields of an entry in it for each process, as many as
there is room for, then the number of entries. `recv_snapshot` reads the
message back with an attribute walk of its own.

The entries come back as they were sent (`decode_snapshotBytes`). The number of
entries needs eight bytes behind them, and nothing keeps these free: when the
entries leave less, the whole answer fails (`snapshotExact_iff`).
-/

namespace Montauk.Kernel

open Attributes

/-! ## The module's side -/

/-- `enum montauk_attr`. -/
inductive MontaukAttr where
  | unspec
  | pid
  | ppid
  | comm
  | state
  | utime
  | stime
  | rssPages
  | uid
  | threads
  | exePath
  | startTime
  | cmdline
  | procEntry
  | procCount
  | statTracked
  | statForks
  | statExecs
  | statExits
  | statOverflows
  | statUptimeSec
deriving DecidableEq

def MontaukAttr.code (a : MontaukAttr) : Nat := a.ctorIdx

def nlaFNested : Nat := 2 ^ 15

def nlaTypeMask : Nat := 2 ^ 14 - 1

/-- `nla_put_u32` and `nla_put_u64_64bit`, as the attribute they put. -/
def attrU32 (t : MontaukAttr) (v : UInt32) : Attr := ⟨t.code, le 4 v.toNat⟩

def attrU64 (t : MontaukAttr) (v : UInt64) : Attr := ⟨t.code, le 8 v.toNat⟩

/-- `nla_put_u8`. -/
def attrU8 (t : MontaukAttr) (v : UInt8) : Attr := ⟨t.code, [v]⟩

/-- `nla_put_string`: the string with its NUL. -/
def attrString {cap : Nat} (t : MontaukAttr) (s : CString cap) : Attr := ⟨t.code, s.bytes ++ [0]⟩

/-- The attributes every entry has, in the order they are put. -/
def procAttrs (proc : MontaukProc) : List Attr :=
  [attrU32 .pid proc.pid.toUInt32, attrU32 .ppid proc.ppid.toUInt32, attrString .comm proc.comm,
    attrU8 .state proc.state, attrU64 .utime proc.utime, attrU64 .stime proc.stime,
    attrU64 .rssPages proc.rssPages, attrU32 .uid proc.uid,
    attrU32 .threads proc.nrThreads.toUInt32, attrU64 .startTime proc.startTime]

/-- `montauk_add_proc_entry`; the flag is false for `-EMSGSIZE`. -/
def addProcEntry (msg : Buf) (proc : MontaukProc) : Buf × Bool :=
  match msg.nestStart (MontaukAttr.procEntry.code ||| nlaFNested) with
  | none => (msg, false)
  | some nest =>
      match nest.putAll (procAttrs proc) with
      | none => (nest.nestCancel msg.data.length, false)
      | some full =>
          -- exe_path is optional
          if proc.exePath.bytes ≠ [] then
            match full.put (attrString .exePath proc.exePath) with
            | none => (full.nestCancel msg.data.length, false)
            | some full => (full.nestEnd msg.data.length, true)
          else (full.nestEnd msg.data.length, true)

/-- The walk over the table, up to the first entry there is no room for. -/
def walkTable (msg : Buf) (count : Nat) : List MontaukProc → Buf × Nat
  | [] => (msg, count)
  | proc :: rest =>
      let (msg, put) := addProcEntry msg proc
      if put then walkTable msg (count + 1) rest else (msg, count)

/-- What a request brings along, and the number of the family, which the
kernel takes from `GENL_MIN_ID` on. -/
structure Request where
  family : UInt16
  seq : UInt32
  portid : UInt32
  dynamic : 16 ≤ family.toNat

/-- `NLMSG_HDRLEN` and `GENL_HDRLEN`. -/
def nlmsgHdrlen : Nat := 16

def genlHdrlen : Nat := 4

/-- `MONTAUK_CMD_GET_SNAPSHOT` and `MONTAUK_GENL_VERSION`. -/
def cmdGetSnapshot : UInt8 := 1

def genlVersion : UInt8 := 1

/-- `struct nlmsghdr` and `struct genlmsghdr` of a message of `len` bytes. -/
def header (req : Request) (len : Nat) : List UInt8 :=
  le 4 len ++ (le 2 req.family.toNat ++ le 2 0 ++ le 4 req.seq.toNat ++ le 4 req.portid.toNat
    ++ [cmdGetSnapshot, genlVersion] ++ le 2 0)

/-- `genlmsg_put` into a fresh message of `nlmsg_new(256 * 1024)`. -/
def genlmsgPut (req : Request) : Buf :=
  ⟨header req (nlmsgHdrlen + genlHdrlen), nlmsgHdrlen + 256 * 1024⟩

/-- `genlmsg_end`: the length of the message, in its header. -/
def genlmsgEnd (msg : Buf) : List UInt8 := le 4 msg.data.length ++ msg.data.drop 4

/-- `montauk_cmd_get_snapshot`: the message it replies with, or nothing for
`-EMSGSIZE`. -/
def montaukCmdGetSnapshot (req : Request) (table : List MontaukProc) : Option (List UInt8) :=
  let (msg, count) := walkTable (genlmsgPut req) 0 table
  (msg.put (attrU32 .procCount (UInt32.ofNat count))).map genlmsgEnd

/-! ## The collector's side -/

namespace Collector

/-- The collector's own copy of the numbers. -/
inductive MontaukAttr where
  | unspec
  | pid
  | ppid
  | comm
  | state
  | utime
  | stime
  | rssPages
  | uid
  | threads
  | exePath
  | startTime
  | cmdline
  | procEntry
  | procCount
deriving DecidableEq

def MontaukAttr.ofCode (n : Nat) : Option MontaukAttr :=
  [unspec, pid, ppid, comm, state, utime, stime, rssPages, uid, threads, exePath, startTime,
    cmdline, procEntry, procCount][n]?

end Collector

/-- The fields of a `ProcSample` that are read from the message. -/
structure ProcSample where
  pid : Int32 := 0
  totalTime : UInt64 := 0
  rssKb : UInt64 := 0
  userName : List UInt8 := []
  cmd : List UInt8 := []
  exePath : List UInt8 := []
  threadCount : Int32 := 1

structure ProcessSnapshot where
  processes : List ProcSample := []
  totalProcesses : Nat := 0
  totalThreads : UInt64 := 0

/-- What the collector asks its machine: the page size, and the names of the
users. -/
structure Host where
  pageSize : UInt64
  getpwuid : UInt32 → Option (List UInt8)

/-- `std::to_string`. -/
def toStringBytes (n : Nat) : List UInt8 := (Nat.repr n).toUTF8.toList

def readU32 (data : List UInt8) : UInt32 := UInt32.ofNat (readLe 4 data)

def readU64 (data : List UInt8) : UInt64 := UInt64.ofNat (readLe 8 data)

variable (host : Host)

/-- The switch over the attributes of an entry; the state is the sample with
`ut` and `st`. -/
def innerStep (s : ProcSample × UInt64 × UInt64) (type _payload : Nat) (data : List UInt8) :
    ProcSample × UInt64 × UInt64 :=
  let (ps, ut, st) := s
  match Collector.MontaukAttr.ofCode type with
  | some .pid => ({ ps with pid := (readU32 data).toInt32 }, ut, st)
  | some .comm => ({ ps with cmd := Scan.cstr data }, ut, st)
  | some .utime => (ps, readU64 data, st)
  | some .stime => (ps, ut, readU64 data)
  | some .rssPages => ({ ps with rssKb := readU64 data * (host.pageSize / 1024) }, ut, st)
  | some .uid =>
      let uid := readU32 data
      ({ ps with userName := (host.getpwuid uid).getD (toStringBytes uid.toNat) }, ut, st)
  | some .threads => ({ ps with threadCount := (readU32 data).toInt32 }, ut, st)
  | some .exePath => ({ ps with exePath := Scan.cstr data }, ut, st)
  | some .cmdline => ({ ps with cmd := Scan.cstr data }, ut, st)
  | _ => (ps, ut, st)

def readEntry (payload : List UInt8) : ProcSample :=
  let (ps, ut, st) := walkAttrs (innerStep host) (payload.length + 1) payload ({}, 0, 0)
  { ps with totalTime := ut + st }

def ProcessSnapshot.push (out : ProcessSnapshot) (ps : ProcSample) : ProcessSnapshot :=
  { out with
    processes := out.processes ++ [ps]
    totalThreads := out.totalThreads
      + (if 0 < ps.threadCount then ps.threadCount.toInt64.toUInt64 else 1) }

/-- The loop over the attributes of the message. -/
def outerStep (out : ProcessSnapshot) (type payload : Nat) (data : List UInt8) :
    ProcessSnapshot :=
  let attrType := Collector.MontaukAttr.ofCode (type &&& nlaTypeMask)
  if attrType = some .procEntry ∧ 0 < payload then out.push (readEntry host (data.take payload))
  else if attrType = some .procCount then { out with totalProcesses := (readU32 data).toNat }
  else out

def nlmsgError : Nat := 2

/-- `recv_snapshot`, up to the end of its attribute loop. -/
def decodeSnapshot (message : List UInt8) : Option ProcessSnapshot :=
  let buf := message.take (1024 * 1024)
  if buf.length < nlmsgHdrlen ∨ readLe 4 buf < nlmsgHdrlen ∨ buf.length < readLe 4 buf then none
  else if readLe 2 (buf.drop 4) = nlmsgError then none
  else
    let attrs := (buf.drop (nlmsgHdrlen + genlHdrlen)).take
      (readLe 4 buf - nlmsgHdrlen - genlHdrlen)
    some (walkAttrs (outerStep host) (attrs.length + 1) attrs {})

/-- The rest of `recv_snapshot`: the processes are ordered by `cpu_pct` and get
the command line of `/proc`, where it can be read. -/
def recvSnapshot (order : List ProcSample → List ProcSample) (readCmdline : Int32 → List UInt8)
    (message : List UInt8) : Option ProcessSnapshot :=
  (decodeSnapshot host message).map fun out => { out with
    processes := (order out.processes).map fun ps =>
      if ps.pid ≤ 0 ∨ readCmdline ps.pid = [] then ps else { ps with cmd := readCmdline ps.pid } }

/-! ## What the module sends -/

def exeAttrs (proc : MontaukProc) : List Attr :=
  if proc.exePath.bytes ≠ [] then [attrString .exePath proc.exePath] else []

def entryAttr (proc : MontaukProc) : Attr :=
  ⟨MontaukAttr.procEntry.code ||| nlaFNested, encodeAll (procAttrs proc ++ exeAttrs proc)⟩

def entrySize (proc : MontaukProc) : Nat := (entryAttr proc).size

theorem entrySize_eq (proc : MontaukProc) :
    entrySize proc = 4 + sizeAll (procAttrs proc) + sizeAll (exeAttrs proc) := by
  have hdvd := dvd_sizeAll (procAttrs proc ++ exeAttrs proc)
  have hlen : (entryAttr proc).len = 4 + sizeAll (procAttrs proc ++ exeAttrs proc) := by
    rw [Attr.len, entryAttr, length_encodeAll]
  rw [entrySize, Attr.size, hlen, align4_of_dvd (by omega), sizeAll_append]
  omega

theorem addProcEntry_eq {msg : Buf} (hmsg : msg.data.length ≤ msg.cap) (proc : MontaukProc) :
    addProcEntry msg proc =
      if msg.data.length + entrySize proc ≤ msg.cap then
        ({ msg with data := msg.data ++ (entryAttr proc).encode }, true)
      else (msg, false) := by
  obtain ⟨data, cap⟩ := msg
  dsimp only at hmsg ⊢
  have hsize := entrySize_eq proc
  have hhead : (Attr.mk (MontaukAttr.procEntry.code ||| nlaFNested) []).size = 4 := rfl
  have hcancel : ∀ more, (⟨data ++ more, cap⟩ : Buf).nestCancel data.length = ⟨data, cap⟩ := by
    intro more
    rw [Buf.nestCancel, List.take_left]
  rw [addProcEntry]
  by_cases h4 : data.length + 4 ≤ cap
  · rw [Buf.nestStart, Buf.put_eq_some (by exact h4)]
    dsimp only
    have hstart : (data ++ (Attr.mk (MontaukAttr.procEntry.code ||| nlaFNested) []).encode).length
        = data.length + 4 := by
      rw [List.length_append, Attr.length_encode, hhead]
    by_cases hproc : data.length + 4 + sizeAll (procAttrs proc) ≤ cap
    · rw [Buf.putAll_eq_some (by dsimp only; rw [hstart]; exact hproc)]
      dsimp only
      by_cases hexe : proc.exePath.bytes ≠ []
      · have hsizes : sizeAll (exeAttrs proc) = (attrString .exePath proc.exePath).size := by
          rw [exeAttrs, if_pos hexe, sizeAll_cons, sizeAll_nil, Nat.add_zero]
        have hlen : (data ++ (Attr.mk (MontaukAttr.procEntry.code ||| nlaFNested) []).encode
            ++ encodeAll (procAttrs proc)).length = data.length + 4 + sizeAll (procAttrs proc) := by
          rw [List.length_append, hstart, length_encodeAll]
        rw [if_pos hexe]
        by_cases hfit : data.length + entrySize proc ≤ cap
        · rw [Buf.put_eq_some (by dsimp only; rw [hlen]; omega), if_pos hfit]
          dsimp only
          have hone : encodeAll (exeAttrs proc) = (attrString .exePath proc.exePath).encode := by
            rw [exeAttrs, if_pos hexe, encodeAll_cons, encodeAll_nil, List.append_nil]
          rw [← hone, List.append_assoc _ (encodeAll (procAttrs proc)), ← encodeAll_append,
            Buf.nestEnd_encode]
          rfl
        · rw [Buf.put_eq_none (by dsimp only; rw [hlen]; omega), if_neg hfit]
          dsimp only
          rw [List.append_assoc, hcancel]
      · have hnone : exeAttrs proc = [] := by rw [exeAttrs, if_neg hexe]
        rw [hnone, sizeAll_nil, Nat.add_zero] at hsize
        rw [if_neg hexe, Buf.nestEnd_encode, if_pos (by omega), entryAttr, hnone, List.append_nil]
    · rw [Buf.putAll_eq_none (by dsimp only; omega) (by dsimp only; omega), if_neg (by omega)]
      dsimp only
      rw [hcancel]
  · rw [Buf.nestStart, Buf.put_eq_none (by dsimp only; rw [hhead]; omega), if_neg (by omega)]

/-- The entries that fit into `room` bytes, from the front. -/
def fitting : Nat → List MontaukProc → List MontaukProc
  | _, [] => []
  | room, proc :: rest =>
      if entrySize proc ≤ room then proc :: fitting (room - entrySize proc) rest else []

def entriesSize (procs : List MontaukProc) : Nat := (procs.map entrySize).sum

theorem walkTable_eq :
    ∀ (table : List MontaukProc) (msg : Buf) (count : Nat), msg.data.length ≤ msg.cap →
      walkTable msg count table =
        ({ msg with data := msg.data ++ encodeAll ((fitting msg.tailroom table).map entryAttr) },
          count + (fitting msg.tailroom table).length)
  | [], msg, count, _ => by
      rw [walkTable, fitting, List.map_nil, encodeAll_nil, List.append_nil]
      rfl
  | proc :: rest, msg, count, hmsg => by
      rw [walkTable, addProcEntry_eq hmsg, fitting, Buf.tailroom]
      by_cases hfit : msg.data.length + entrySize proc ≤ msg.cap
      · have hroom : entrySize proc ≤ msg.cap - msg.data.length := by omega
        have hlen : (msg.data ++ (entryAttr proc).encode).length
            = msg.data.length + entrySize proc := by
          rw [List.length_append, Attr.length_encode]
          rfl
        have hnext : ({ msg with data := msg.data ++ (entryAttr proc).encode } : Buf).tailroom
            = msg.cap - msg.data.length - entrySize proc := by
          rw [Buf.tailroom, hlen, Nat.sub_sub]
        rw [if_pos hfit, if_pos hroom]
        dsimp only
        rw [if_pos rfl, walkTable_eq rest _ _ (by dsimp only; rw [hlen]; exact hfit), hnext,
          List.map_cons, List.length_cons, encodeAll_cons, ← List.append_assoc, Nat.add_assoc,
          Nat.add_comm 1]
      · have hroom : ¬ entrySize proc ≤ msg.cap - msg.data.length := by omega
        rw [if_neg hfit, if_neg hroom]
        dsimp only
        rw [if_neg Bool.false_ne_true, List.map_nil, encodeAll_nil, List.append_nil]
        rfl

/-- `fitting` takes from the front, and stops only at an entry that does not
fit. -/
theorem fitting_spec :
    ∀ (room : Nat) (table : List MontaukProc),
      entriesSize (fitting room table) ≤ room
        ∧ ∃ rest, table = fitting room table ++ rest
          ∧ ∀ proc more, rest = proc :: more →
            room < entriesSize (fitting room table) + entrySize proc
  | room, [] => ⟨Nat.zero_le _, [], rfl, fun _ _ h => absurd h (by simp)⟩
  | room, proc :: rest => by
      rw [fitting]
      by_cases hfit : entrySize proc ≤ room
      · obtain ⟨hle, more, hmore, hnext⟩ := fitting_spec (room - entrySize proc) rest
        rw [if_pos hfit]
        have hsum : entriesSize (proc :: fitting (room - entrySize proc) rest)
            = entrySize proc + entriesSize (fitting (room - entrySize proc) rest) := by
          rw [entriesSize, List.map_cons, List.sum_cons]
          rfl
        rw [hsum]
        refine ⟨by omega, more, congrArg (proc :: ·) hmore, fun p m h => ?_⟩
        have := hnext p m h
        omega
      · rw [if_neg hfit]
        refine ⟨Nat.zero_le _, proc :: rest, rfl, fun p m h => ?_⟩
        obtain ⟨rfl, -⟩ := List.cons.inj h
        have hzero : entriesSize [] = 0 := rfl
        rw [hzero]
        omega

/-! ## What the collector reads -/

section

variable {host : Host}

theorem readU32_le (v : UInt32) (tail : List UInt8) : readU32 (le 4 v.toNat ++ tail) = v := by
  rw [readU32, readLe_le v.toNat_lt]
  exact UInt32.ofNat_toNat

theorem readU64_le (v : UInt64) (tail : List UInt8) : readU64 (le 8 v.toNat ++ tail) = v := by
  rw [readU64, readLe_le v.toNat_lt]
  exact UInt64.ofNat_toNat

theorem cstr_bytes {cap : Nat} (s : CString cap) (tail : List UInt8) :
    Scan.cstr (s.bytes ++ [0] ++ tail) = s.bytes := by
  have hall : ∀ c ∈ s.bytes, (c != 0) = true := fun c hc =>
    bne_iff_ne.mpr fun h0 => s.nonul (h0 ▸ hc)
  rw [Scan.cstr, List.append_assoc, List.takeWhile_append_of_pos hall]
  exact List.append_nil _

def sampleOf (host : Host) (proc : MontaukProc) : ProcSample where
  pid := proc.pid
  totalTime := proc.utime + proc.stime
  rssKb := proc.rssPages * (host.pageSize / 1024)
  userName := (host.getpwuid proc.uid).getD (toStringBytes proc.uid.toNat)
  cmd := proc.comm.bytes
  exePath := proc.exePath.bytes
  threadCount := proc.nrThreads

/-- One attribute of an entry, with whatever bytes follow it. -/
def applyAttr (host : Host) (s : ProcSample × UInt64 × UInt64) (a : Attr) :
    ProcSample × UInt64 × UInt64 :=
  innerStep host s a.type a.payload.length (a.payload ++ [])

theorem innerStep_attr (proc : MontaukProc) (s : ProcSample × UInt64 × UInt64) {a : Attr}
    (ha : a ∈ procAttrs proc ++ exeAttrs proc) (tail : List UInt8) :
    innerStep host s a.type a.payload.length (a.payload ++ tail) = applyAttr host s a := by
  obtain ⟨ps, ut, st⟩ := s
  have hu32 : ∀ v : UInt32, readU32 (le 4 v.toNat ++ tail) = readU32 (le 4 v.toNat ++ []) := fun v => by
    rw [readU32_le, readU32_le]
  have hu64 : ∀ v : UInt64, readU64 (le 8 v.toNat ++ tail) = readU64 (le 8 v.toNat ++ []) := fun v => by
    rw [readU64_le, readU64_le]
  have hstr : ∀ (cap : Nat) (s : CString cap),
      Scan.cstr (s.bytes ++ [0] ++ tail) = Scan.cstr (s.bytes ++ [0] ++ []) := fun cap s => by
    rw [cstr_bytes, cstr_bytes]
  rcases List.mem_append.mp ha with ha | ha
  · simp only [procAttrs, List.mem_cons, List.not_mem_nil, or_false] at ha
    rcases ha with rfl | rfl | rfl | rfl | rfl | rfl | rfl | rfl | rfl | rfl
    · exact congrArg (fun v : UInt32 => ({ ps with pid := v.toInt32 }, ut, st)) (hu32 _)
    · rfl
    · exact congrArg (fun v : List UInt8 => ({ ps with cmd := v }, ut, st)) (hstr _ _)
    · rfl
    · exact congrArg (fun v : UInt64 => (ps, v, st)) (hu64 _)
    · exact congrArg (fun v : UInt64 => (ps, ut, v)) (hu64 _)
    · exact congrArg
        (fun v : UInt64 => ({ ps with rssKb := v * (host.pageSize / 1024) }, ut, st)) (hu64 _)
    · exact congrArg (fun v : UInt32 =>
        ({ ps with userName := (host.getpwuid v).getD (toStringBytes v.toNat) }, ut, st)) (hu32 _)
    · exact congrArg (fun v : UInt32 => ({ ps with threadCount := v.toInt32 }, ut, st)) (hu32 _)
    · rfl
  · rw [exeAttrs] at ha
    split at ha
    · obtain rfl := List.mem_singleton.mp ha
      exact congrArg (fun v : List UInt8 => ({ ps with exePath := v }, ut, st)) (hstr _ _)
    · exact absurd ha List.not_mem_nil

theorem MontaukAttr.code_lt (t : MontaukAttr) : t.code < 2 ^ 16 := by
  cases t <;> decide

theorem attrU32_len (t : MontaukAttr) (v : UInt32) : (attrU32 t v).len = 8 := by
  rw [Attr.len, attrU32, length_le]

theorem attrU64_len (t : MontaukAttr) (v : UInt64) : (attrU64 t v).len = 12 := by
  rw [Attr.len, attrU64, length_le]

theorem attrString_len (t : MontaukAttr) {cap : Nat} (s : CString cap) :
    (attrString t s).len ≤ 4 + cap := by
  have := s.fits
  rw [Attr.len, attrString, List.length_append, List.length_singleton]
  omega

theorem len_attr_le (proc : MontaukProc) {a : Attr} (ha : a ∈ procAttrs proc ++ exeAttrs proc) :
    a.len ≤ 260 := by
  rcases List.mem_append.mp ha with ha | ha
  · simp only [procAttrs, List.mem_cons, List.not_mem_nil, or_false] at ha
    rcases ha with rfl | rfl | rfl | rfl | rfl | rfl | rfl | rfl | rfl | rfl
    · simp only [attrU32_len, Nat.reduceLeDiff]
    · simp only [attrU32_len, Nat.reduceLeDiff]
    · exact (attrString_len _ _).trans (by decide)
    · exact (by decide : 5 ≤ 260)
    · simp only [attrU64_len, Nat.reduceLeDiff]
    · simp only [attrU64_len, Nat.reduceLeDiff]
    · simp only [attrU64_len, Nat.reduceLeDiff]
    · simp only [attrU32_len, Nat.reduceLeDiff]
    · simp only [attrU32_len, Nat.reduceLeDiff]
    · simp only [attrU64_len, Nat.reduceLeDiff]
  · rw [exeAttrs] at ha
    split at ha
    · obtain rfl := List.mem_singleton.mp ha
      exact attrString_len _ _
    · exact absurd ha List.not_mem_nil

theorem type_attr_lt (proc : MontaukProc) {a : Attr} (ha : a ∈ procAttrs proc ++ exeAttrs proc) :
    a.type < 2 ^ 16 := by
  rcases List.mem_append.mp ha with ha | ha
  · simp only [procAttrs, List.mem_cons, List.not_mem_nil, or_false] at ha
    rcases ha with rfl | rfl | rfl | rfl | rfl | rfl | rfl | rfl | rfl | rfl
    · exact MontaukAttr.code_lt .pid
    · exact MontaukAttr.code_lt .ppid
    · exact MontaukAttr.code_lt .comm
    · exact MontaukAttr.code_lt .state
    · exact MontaukAttr.code_lt .utime
    · exact MontaukAttr.code_lt .stime
    · exact MontaukAttr.code_lt .rssPages
    · exact MontaukAttr.code_lt .uid
    · exact MontaukAttr.code_lt .threads
    · exact MontaukAttr.code_lt .startTime
  · rw [exeAttrs] at ha
    split at ha
    · obtain rfl := List.mem_singleton.mp ha
      exact MontaukAttr.code_lt .exePath
    · exact absurd ha List.not_mem_nil

theorem fits_attr (proc : MontaukProc) {a : Attr} (ha : a ∈ procAttrs proc ++ exeAttrs proc) :
    a.Fits :=
  ⟨(len_attr_le proc ha).trans_lt (by decide), type_attr_lt proc ha⟩

theorem readEntry_encode (proc : MontaukProc) :
    readEntry host (encodeAll (procAttrs proc ++ exeAttrs proc)) = sampleOf host proc := by
  have hwalk := walkAttrs_encode (f := innerStep host) (g := applyAttr host)
    (l := procAttrs proc ++ exeAttrs proc) (fun a ha => fits_attr proc ha)
    (fun s a ha tail => innerStep_attr proc s ha tail) _ ({}, 0, 0) (Nat.lt_succ_self _)
  have hprocs : (procAttrs proc).foldl (applyAttr host) ({}, 0, 0)
      = ({ pid := proc.pid, rssKb := proc.rssPages * (host.pageSize / 1024),
           userName := (host.getpwuid proc.uid).getD (toStringBytes proc.uid.toNat),
           cmd := proc.comm.bytes, threadCount := proc.nrThreads }, proc.utime, proc.stime) := by
    show (({ pid := (readU32 (le 4 proc.pid.toUInt32.toNat ++ [])).toInt32
             rssKb := readU64 (le 8 proc.rssPages.toNat ++ []) * (host.pageSize / 1024)
             userName := (host.getpwuid (readU32 (le 4 proc.uid.toNat ++ []))).getD
               (toStringBytes (readU32 (le 4 proc.uid.toNat ++ [])).toNat)
             cmd := Scan.cstr (proc.comm.bytes ++ [0] ++ [])
             threadCount := (readU32 (le 4 proc.nrThreads.toUInt32.toNat ++ [])).toInt32 },
           readU64 (le 8 proc.utime.toNat ++ []), readU64 (le 8 proc.stime.toNat ++ [])) :
      ProcSample × UInt64 × UInt64) = _
    simp only [readU32_le, readU64_le, cstr_bytes, Int32.toInt32_toUInt32]
  rw [readEntry, hwalk, List.foldl_append, hprocs]
  by_cases hexe : proc.exePath.bytes ≠ []
  · rw [exeAttrs, if_pos hexe]
    show ({ pid := proc.pid, rssKb := proc.rssPages * (host.pageSize / 1024),
            userName := (host.getpwuid proc.uid).getD (toStringBytes proc.uid.toNat),
            cmd := proc.comm.bytes, threadCount := proc.nrThreads,
            exePath := Scan.cstr (proc.exePath.bytes ++ [0] ++ []),
            totalTime := proc.utime + proc.stime } : ProcSample) = _
    rw [cstr_bytes]
    rfl
  · rw [exeAttrs, if_neg hexe, sampleOf, not_not.mp hexe]
    rfl

/-! ## The message -/

/-- The attributes of a message with these entries. -/
def messageAttrs (procs : List MontaukProc) : List Attr :=
  procs.map entryAttr ++ [attrU32 .procCount (UInt32.ofNat procs.length)]

def snapshotBytes (req : Request) (procs : List MontaukProc) : List UInt8 :=
  header req (nlmsgHdrlen + genlHdrlen + sizeAll (messageAttrs procs))
    ++ encodeAll (messageAttrs procs)

/-- The room for attributes in a message of 256 KiB. -/
def messageRoom : Nat := 256 * 1024 - genlHdrlen

theorem attrU32_size (t : MontaukAttr) (v : UInt32) : (attrU32 t v).size = 8 := by
  rw [Attr.size, attrU32_len]
  rfl

theorem sizeAll_map_entryAttr (procs : List MontaukProc) :
    sizeAll (procs.map entryAttr) = entriesSize procs := by
  rw [sizeAll, List.map_map]
  rfl

theorem sizeAll_messageAttrs (procs : List MontaukProc) :
    sizeAll (messageAttrs procs) = entriesSize procs + 8 := by
  rw [messageAttrs, sizeAll_append, sizeAll_map_entryAttr, sizeAll_cons, attrU32_size, sizeAll_nil]

theorem length_header (req : Request) (len : Nat) : (header req len).length = 20 := by
  simp [header]

theorem header_split (req : Request) (len : Nat) :
    header req len = le 4 len ++ (header req 0).drop 4 := by
  rw [header, header, List.drop_left' (length_le 4 0)]

/-- **The reply**: the entries that fit and their number, when there is room
left for the number. -/
theorem montaukCmdGetSnapshot_eq (req : Request) (table : List MontaukProc) :
    montaukCmdGetSnapshot req table =
      if entriesSize (fitting messageRoom table) + 8 ≤ messageRoom then
        some (snapshotBytes req (fitting messageRoom table))
      else none := by
  have hlen : (genlmsgPut req).data.length = 20 := length_header req _
  have hcap : (genlmsgPut req).cap = 20 + messageRoom := rfl
  have hroom : (genlmsgPut req).tailroom = messageRoom := by
    rw [Buf.tailroom, hlen, hcap, Nat.add_sub_cancel_left]
  rw [montaukCmdGetSnapshot, walkTable_eq table _ 0 (by rw [hlen, hcap]; omega), hroom,
    Nat.zero_add]
  generalize fitting messageRoom table = procs
  dsimp only
  have hdata : ((genlmsgPut req).data ++ encodeAll (procs.map entryAttr)).length
      = 20 + entriesSize procs := by
    rw [List.length_append, hlen, length_encodeAll, sizeAll_map_entryAttr]
  have hcount := attrU32_size .procCount (UInt32.ofNat procs.length)
  by_cases hfit : entriesSize procs + 8 ≤ messageRoom
  · rw [Buf.put_eq_some (by dsimp only; rw [hdata, hcount, hcap]; omega), if_pos hfit,
      Option.map_some]
    refine congrArg some ?_
    have hall : encodeAll (procs.map entryAttr)
        ++ (attrU32 .procCount (UInt32.ofNat procs.length)).encode
          = encodeAll (messageAttrs procs) := by
      rw [messageAttrs, encodeAll_append, encodeAll_cons, encodeAll_nil, List.append_nil]
    rw [genlmsgEnd]
    dsimp only
    rw [List.append_assoc, hall, List.length_append, hlen, length_encodeAll, snapshotBytes,
      header_split, List.append_assoc, genlmsgPut,
      List.drop_append_of_le_length (by rw [length_header]; decide), header_split req (_ + _),
      List.drop_left' (length_le 4 _)]
    rfl
  · rw [Buf.put_eq_none (by dsimp only; rw [hdata, hcount, hcap]; omega), if_neg hfit]
    rfl

theorem entryAttr_fits (proc : MontaukProc) : (entryAttr proc).Fits := by
  have hle : ∀ a ∈ procAttrs proc ++ exeAttrs proc, a.size ≤ 260 := by
    intro a ha
    have := len_attr_le proc ha
    rw [Attr.size, align4]
    omega
  have hcount : (procAttrs proc ++ exeAttrs proc).length ≤ 11 := by
    rw [List.length_append, exeAttrs]
    split
    · exact le_rfl
    · exact (by decide : 10 ≤ 11)
  have hsum := sizeAll_le hle
  refine ⟨?_, (by decide : MontaukAttr.procEntry.code ||| nlaFNested < 2 ^ 16)⟩
  rw [Attr.len, entryAttr, length_encodeAll]
  omega

theorem payload_pos (proc : MontaukProc) : 0 < (entryAttr proc).payload.length := by
  have hpos := (attrU32 .pid proc.pid.toUInt32).size_pos
  rw [entryAttr, length_encodeAll, sizeAll_append, procAttrs, sizeAll_cons]
  omega

def applyMessage (host : Host) (out : ProcessSnapshot) (a : Attr) : ProcessSnapshot :=
  outerStep host out a.type a.payload.length (a.payload ++ [])

theorem outerStep_entry (out : ProcessSnapshot) (proc : MontaukProc) (tail : List UInt8) :
    outerStep host out (entryAttr proc).type (entryAttr proc).payload.length
      ((entryAttr proc).payload ++ tail) = out.push (sampleOf host proc) := by
  have htype : Collector.MontaukAttr.ofCode
      ((MontaukAttr.procEntry.code ||| nlaFNested) &&& nlaTypeMask) = some .procEntry := by decide
  change Collector.MontaukAttr.ofCode ((entryAttr proc).type &&& nlaTypeMask) = _ at htype
  rw [outerStep, htype, if_pos ⟨rfl, payload_pos proc⟩, List.take_left, entryAttr, readEntry_encode]

theorem outerStep_count (out : ProcessSnapshot) (v : UInt32) (tail : List UInt8) :
    outerStep host out (attrU32 .procCount v).type (attrU32 .procCount v).payload.length
      ((attrU32 .procCount v).payload ++ tail) = { out with totalProcesses := v.toNat } := by
  have hread : readU32 ((attrU32 .procCount v).payload ++ tail) = v := readU32_le v tail
  have htype : Collector.MontaukAttr.ofCode (MontaukAttr.procCount.code &&& nlaTypeMask)
      = some .procCount := by decide
  change Collector.MontaukAttr.ofCode ((attrU32 .procCount v).type &&& nlaTypeMask) = _ at htype
  rw [outerStep, htype, if_neg (by simp), if_pos rfl, hread]

def snapshotOf (host : Host) (procs : List MontaukProc) : ProcessSnapshot :=
  { procs.foldl (fun (out : ProcessSnapshot) proc => out.push (sampleOf host proc)) {} with
    totalProcesses := procs.length }

theorem processes_snapshotOf (procs : List MontaukProc) :
    (snapshotOf host procs).processes = procs.map (sampleOf host) := by
  have h : ∀ (procs : List MontaukProc) (out : ProcessSnapshot),
      (procs.foldl (fun (out : ProcessSnapshot) proc => out.push (sampleOf host proc)) out).processes
        = out.processes ++ procs.map (sampleOf host) := by
    intro procs
    induction procs with
    | nil =>
        intro out
        rw [List.map_nil, List.append_nil]
        rfl
    | cons proc procs ih =>
        intro out
        rw [List.foldl_cons, ih, ProcessSnapshot.push, List.append_assoc, List.map_cons]
        rfl
  exact h procs {}

theorem length_le_entriesSize (procs : List MontaukProc) : 4 * procs.length ≤ entriesSize procs := by
  induction procs with
  | nil => exact Nat.zero_le _
  | cons proc procs ih =>
      have hpos := (entryAttr proc).size_pos
      rw [entriesSize, List.map_cons, List.sum_cons, List.length_cons]
      change 4 * procs.length ≤ (procs.map entrySize).sum at ih
      change 4 ≤ entrySize proc at hpos
      omega

/-- **The decoder** reads a message back as the entries it was made of. -/
theorem decode_snapshotBytes (req : Request) {procs : List MontaukProc}
    (hroom : entriesSize procs + 8 ≤ messageRoom) :
    decodeSnapshot host (snapshotBytes req procs) = some (snapshotOf host procs) := by
  have hsize := sizeAll_messageAttrs procs
  have hcount := length_le_entriesSize procs
  rw [messageRoom, genlHdrlen] at hroom
  have hlen : (snapshotBytes req procs).length = 20 + sizeAll (messageAttrs procs) := by
    rw [snapshotBytes, List.length_append, length_header, length_encodeAll]
  have htake : (snapshotBytes req procs).take (1024 * 1024) = snapshotBytes req procs :=
    List.take_of_length_le (by omega)
  have htotal : readLe 4 (snapshotBytes req procs) = 20 + sizeAll (messageAttrs procs) := by
    rw [snapshotBytes, header, List.append_assoc]
    exact readLe_le (by rw [nlmsgHdrlen, genlHdrlen]; omega) _
  have htype : readLe 2 ((snapshotBytes req procs).drop 4) = req.family.toNat := by
    rw [snapshotBytes, header, List.append_assoc, List.drop_left' (length_le 4 _)]
    simp only [List.append_assoc]
    exact readLe_le req.family.toNat_lt _
  have hbody : (snapshotBytes req procs).drop (nlmsgHdrlen + genlHdrlen)
      = encodeAll (messageAttrs procs) := List.drop_left' (length_header req _)
  have hdyn := req.dynamic
  rw [decodeSnapshot]
  dsimp only
  rw [htake, htotal, hbody, htype, if_neg (by rw [hlen, nlmsgHdrlen]; omega),
    if_neg (by rw [nlmsgError]; omega)]
  have hattrs : (encodeAll (messageAttrs procs)).take
      (20 + sizeAll (messageAttrs procs) - nlmsgHdrlen - genlHdrlen)
        = encodeAll (messageAttrs procs) :=
    List.take_of_length_le (by rw [length_encodeAll, nlmsgHdrlen, genlHdrlen]; omega)
  rw [hattrs]
  refine congrArg some ?_
  have hwalk := walkAttrs_encode (f := outerStep host) (g := applyMessage host)
    (l := messageAttrs procs) (fun a ha => ?_) (fun out a ha tail => ?_) _ {} (Nat.lt_succ_self _)
  · rw [hwalk, messageAttrs, List.foldl_append, List.foldl_map]
    have hpush : (fun out proc => applyMessage host out (entryAttr proc))
        = fun (out : ProcessSnapshot) proc => out.push (sampleOf host proc) := by
      funext out proc
      exact outerStep_entry out proc []
    rw [hpush]
    have hofnat : (UInt32.ofNat procs.length).toNat = procs.length := by
      rw [UInt32.toNat_ofNat']
      omega
    refine (outerStep_count _ _ []).trans ?_
    rw [hofnat]
    rfl
  · rcases List.mem_append.mp ha with ha | ha
    · obtain ⟨proc, -, rfl⟩ := List.mem_map.mp ha
      exact entryAttr_fits proc
    · obtain rfl := List.mem_singleton.mp ha
      exact ⟨by rw [attrU32_len]; decide, MontaukAttr.code_lt .procCount⟩
  · rcases List.mem_append.mp ha with ha | ha
    · obtain ⟨proc, -, rfl⟩ := List.mem_map.mp ha
      rw [outerStep_entry, applyMessage, outerStep_entry]
    · obtain rfl := List.mem_singleton.mp ha
      rw [outerStep_count, applyMessage, outerStep_count]

/-! ## The codec -/

/-- What the sample of a process is to keep of its entry. -/
structure SameProcess (host : Host) (proc : MontaukProc) (ps : ProcSample) : Prop where
  pid : ps.pid = proc.pid
  time : ps.totalTime = proc.utime + proc.stime
  rss : ps.rssKb = proc.rssPages * (host.pageSize / 1024)
  threads : ps.threadCount = proc.nrThreads
  cmd : ps.cmd = proc.comm.bytes
  exePath : ps.exePath = proc.exePath.bytes

theorem sameProcess_sampleOf (proc : MontaukProc) : SameProcess host proc (sampleOf host proc) :=
  ⟨rfl, rfl, rfl, rfl, rfl, rfl⟩

/-- The snapshot arrives: the first `n` entries of the walk are what the
collector decodes, with their number, and all of them when the message had
room for one more. -/
def SnapshotExact (host : Host) (req : Request) (table : List MontaukProc) : Prop :=
  ∃ message out n, montaukCmdGetSnapshot req table = some message
    ∧ decodeSnapshot host message = some out
    ∧ List.Forall₂ (SameProcess host) (table.take n) out.processes
    ∧ out.totalProcesses = out.processes.length
    ∧ ∀ proc rest, table.drop n = proc :: rest →
      messageRoom < entriesSize (table.take n) + entrySize proc

theorem not_snapshotExact {req : Request} {table : List MontaukProc}
    (hfull : messageRoom < entriesSize (fitting messageRoom table) + 8) :
    ¬ SnapshotExact host req table := by
  rintro ⟨message, out, n, hreply, -⟩
  rw [montaukCmdGetSnapshot_eq, if_neg (Nat.not_le.mpr hfull)] at hreply
  exact absurd hreply (by simp)

theorem snapshotExact_of_room (req : Request) {table : List MontaukProc}
    (hroom : entriesSize (fitting messageRoom table) + 8 ≤ messageRoom) :
    SnapshotExact host req table := by
  obtain ⟨-, rest, hsplit, hnext⟩ := fitting_spec messageRoom table
  have htake : table.take (fitting messageRoom table).length = fitting messageRoom table :=
    (congrArg (List.take _) hsplit).trans List.take_left
  have hdrop : table.drop (fitting messageRoom table).length = rest :=
    (congrArg (List.drop _) hsplit).trans List.drop_left
  refine ⟨snapshotBytes req (fitting messageRoom table),
    snapshotOf host (fitting messageRoom table), (fitting messageRoom table).length, ?_,
    decode_snapshotBytes req hroom, ?_, ?_, ?_⟩
  · rw [montaukCmdGetSnapshot_eq, if_pos hroom]
  · rw [htake, processes_snapshotOf, List.forall₂_map_right_iff]
    exact List.forall₂_same.mpr fun proc _ => sameProcess_sampleOf proc
  · rw [processes_snapshotOf, List.length_map]
    rfl
  · rw [htake, hdrop]
    exact hnext

/-- **The snapshot** arrives exactly when the entries that fit leave room for
their number. -/
theorem snapshotExact_iff (host : Host) (req : Request) (table : List MontaukProc) :
    SnapshotExact host req table ↔
      entriesSize (fitting messageRoom table) + 8 ≤ messageRoom :=
  ⟨fun h => Nat.not_lt.mp fun hfull => not_snapshotExact hfull h, snapshotExact_of_room req⟩

/-- The part of `recv_snapshot` behind the decoder keeps the processes, but for
their order and the command, which `/proc` may replace. -/
theorem recvSnapshot_eq {order : List ProcSample → List ProcSample} (hperm : ∀ l, (order l).Perm l)
    {readCmdline : Int32 → List UInt8} {message : List UInt8} {out : ProcessSnapshot}
    (h : decodeSnapshot host message = some out) :
    ∃ out', recvSnapshot host order readCmdline message = some out'
      ∧ out'.totalProcesses = out.totalProcesses
      ∧ (out'.processes.map fun ps => (ps.pid, ps.totalTime, ps.rssKb, ps.threadCount, ps.exePath)).Perm
        (out.processes.map fun ps => (ps.pid, ps.totalTime, ps.rssKb, ps.threadCount, ps.exePath)) := by
  rw [recvSnapshot, h, Option.map_some]
  refine ⟨_, rfl, rfl, ?_⟩
  rw [List.map_map]
  have hkeeps : ((fun ps : ProcSample => (ps.pid, ps.totalTime, ps.rssKb, ps.threadCount, ps.exePath))
      ∘ fun ps => if ps.pid ≤ 0 ∨ readCmdline ps.pid = [] then ps
        else { ps with cmd := readCmdline ps.pid })
      = fun ps => (ps.pid, ps.totalTime, ps.rssKb, ps.threadCount, ps.exePath) := by
    funext ps
    rw [Function.comp_apply]
    split <;> rfl
  rw [hkeeps]
  exact (hperm out.processes).map _

/-! ## A full message -/

theorem attrU64_size (t : MontaukAttr) (v : UInt64) : (attrU64 t v).size = 12 := by
  rw [Attr.size, attrU64_len]
  rfl

theorem attrU8_size (t : MontaukAttr) (v : UInt8) : (attrU8 t v).size = 8 := by
  have hlen : (attrU8 t v).len = 5 := rfl
  rw [Attr.size, hlen]
  rfl

theorem entrySize_strings (proc : MontaukProc) :
    entrySize proc = 92 + (attrString .comm proc.comm).size + sizeAll (exeAttrs proc) := by
  rw [entrySize_eq, procAttrs]
  simp only [sizeAll_cons, sizeAll_nil, attrU32_size, attrU64_size, attrU8_size]
  omega

theorem fitting_eq_self {room : Nat} {table : List MontaukProc} (h : entriesSize table ≤ room) :
    fitting room table = table := by
  induction table generalizing room with
  | nil => rfl
  | cons proc rest ih =>
      rw [entriesSize, List.map_cons, List.sum_cons] at h
      change entrySize proc + entriesSize rest ≤ room at h
      rw [fitting, if_pos (by omega), ih (by omega)]

theorem nul_notMem_sh : (0 : UInt8) ∉ [(0x73 : UInt8), 0x68] := by decide

theorem length_sh_lt : [(0x73 : UInt8), 0x68].length < 16 := by decide

def commSh : CString 16 := ⟨[0x73, 0x68], nul_notMem_sh, length_sh_lt⟩

/-- A process `sh` with a path of `n` letters. -/
def procSh (n : Fin 256) (pid : Nat) : MontaukProc where
  pid := Int32.ofNat pid
  ppid := 1
  comm := commSh
  utime := 0
  stime := 0
  startTime := 0
  rssPages := 0
  state := 0x53
  uid := 0
  nrThreads := 1
  exePath := ⟨List.replicate n 0x78, fun h => absurd (List.eq_of_mem_replicate h) (by decide),
    by rw [List.length_replicate]; exact n.isLt⟩

/-- 2620 processes without a path, and one with a path of 35 bytes. -/
def fullTable : List MontaukProc := (List.range 2620).map (procSh 0) ++ [procSh 35 2620]

theorem commSh_size : (attrString .comm commSh).size = 8 := by
  have hlen : (attrString .comm commSh).len = 7 := rfl
  rw [Attr.size, hlen]
  rfl

theorem entrySize_procSh_zero (pid : Nat) : entrySize (procSh 0 pid) = 100 := by
  have hexe : exeAttrs (procSh 0 pid) = [] := rfl
  rw [entrySize_strings, hexe, sizeAll_nil]
  change 92 + (attrString .comm commSh).size + 0 = 100
  rw [commSh_size]

theorem entrySize_procSh_path (pid : Nat) : entrySize (procSh 35 pid) = 140 := by
  have hlen : (attrString .exePath (procSh 35 pid).exePath).len = 40 := rfl
  have hsize : (attrString .exePath (procSh 35 pid).exePath).size = 40 := congrArg align4 hlen
  have hexe : exeAttrs (procSh 35 pid) = [attrString .exePath (procSh 35 pid).exePath] := rfl
  rw [entrySize_strings, hexe, sizeAll_cons, sizeAll_nil, hsize]
  change 92 + (attrString .comm commSh).size + (40 + 0) = 140
  rw [commSh_size]

theorem entriesSize_procSh (pids : List Nat) (last : Nat) :
    entriesSize (pids.map (procSh 0) ++ [procSh 35 last]) = 100 * pids.length + 140 := by
  induction pids with
  | nil =>
      have hone := entrySize_procSh_path last
      rw [List.map_nil, List.nil_append, entriesSize, List.map_singleton, List.sum_singleton, hone]
      rfl
  | cons pid pids ih =>
      rw [List.map_cons, List.cons_append, entriesSize, List.map_cons, List.sum_cons,
        entrySize_procSh_zero, List.length_cons, Nat.mul_succ]
      rw [entriesSize] at ih
      omega

theorem entriesSize_fullTable : entriesSize fullTable = messageRoom := by
  have h := entriesSize_procSh (List.range 2620) 2620
  rw [List.length_range] at h
  exact h

/-- The entries of 2621 processes fill the message to its last byte: the number
of entries does not fit any more, and there is no snapshot at all. -/
theorem not_snapshotExact_fullTable :
    ¬ SnapshotExact ⟨4096, fun _ => none⟩ ⟨27, 1, 1, by decide⟩ fullTable := by
  refine not_snapshotExact ?_
  rw [fitting_eq_self entriesSize_fullTable.le, entriesSize_fullTable]
  omega

end

end Montauk.Kernel
