import Montauk.Machine.CursorWalk

/-!
# The threads of a snapshot

`snapshot_from_maps` copies the threads of the kernel's thread map whose
processes are tracked and deletes the entries of the others. It walks the map by
`bpf_map_get_next_key`, with the deleted key as the cursor after a deletion, and
there the kernel begins again with the first key. The walk ends all the same:
every new beginning has one entry less. But the threads it has copied before are
copied again.

So each tracked thread is reported once only if the walk meets the tracked
threads in one go, or the snapshot is full before the walk begins again
(`snapshotThreads_iff`). The walk starts behind the key 0, which is the front if
there is no such entry.
-/

namespace Montauk.Trace

open CursorWalk Machine

/-! ## The rows -/

/-- What `snapshot_from_maps` reads of `struct thread_bpf_state`. -/
structure ThreadBpfState where
  pid : UInt32
  tid : UInt32
  state : UInt8
  syscallNr : Int32
  syscallArg0 : UInt64
  syscallArg1 : UInt64
  runtimeNs : UInt64
  comm : Vector UInt8 16
  ioFd : Int32
  ioCount : UInt64
  ioWhence : UInt32
  ioResult : Int64
  ioTimestampNs : UInt64
  curCpu : Int32
  migrations : UInt64
deriving DecidableEq

/-- `ThreadSample`, its buffers as the bytes they hold. -/
structure ThreadSample where
  pid : Int32
  tid : Int32
  state : UInt8
  utime : UInt64
  stime : UInt64
  cpuPct : Nat
  syscallNr : Int32
  syscallArg1 : UInt64
  syscallArg2 : UInt64
  comm : List UInt8
  wchan : List UInt8
  syscallName : List UInt8
  ioFd : Int32
  ioCount : UInt64
  ioWhence : UInt32
  ioResult : Int64
  ioTimestampNs : UInt64
  curCpu : Int32
  migrations : UInt64

def syscallName : Int32 → Option String
  | 0 => "read"
  | 1 => "write"
  | 2 => "open"
  | 3 => "close"
  | 7 => "poll"
  | 8 => "lseek"
  | 9 => "mmap"
  | 10 => "mprotect"
  | 11 => "munmap"
  | 16 => "ioctl"
  | 17 => "pread64"
  | 18 => "pwrite64"
  | 23 => "select"
  | 35 => "nanosleep"
  | 44 => "sendto"
  | 45 => "recvfrom"
  | 46 => "sendmsg"
  | 47 => "recvmsg"
  | 48 => "shutdown"
  | 56 => "clone"
  | 59 => "execve"
  | 61 => "wait4"
  | 62 => "kill"
  | 202 => "futex"
  | 228 => "clock_nanosleep"
  | 232 => "epoll_wait"
  | 257 => "openat"
  | 270 => "pselect6"
  | 271 => "ppoll"
  | 281 => "epoll_pwait"
  | 290 => "eventfd2"
  | 302 => "prlimit64"
  | 332 => "statx"
  | 426 => "io_uring_enter"
  | 435 => "clone3"
  | 441 => "epoll_pwait2"
  | _ => none

def ntsyncName (nr : UInt32) : String :=
  if nr = 0x80 then "ntsync:create_sem"
  else if nr = 0x82 then "ntsync:wait_any"
  else if nr = 0x83 then "ntsync:wait_all"
  else if nr = 0x84 then "ntsync:create_mutex"
  else if nr = 0x87 then "ntsync:create_event"
  else if nr = 0x88 then "ntsync:event_set"
  else if nr = 0x89 then "ntsync:event_reset"
  else if nr = 0x8a then "ntsync:event_pulse"
  else "ntsync:op"

/-- Bytes that are copied over the front of a buffer. -/
def overlay (buf bytes : List UInt8) : List UInt8 := bytes ++ buf.drop bytes.length

/-- The bytes of a text, as many as a buffer of 24 has room for. -/
def clip (text : String) : List UInt8 := text.toUTF8.toList.take 23

/-- `th.syscall_name`: a known name is copied without a NUL. -/
def nameSyscall (buf : List UInt8) (ts : ThreadBpfState) : List UInt8 :=
  let buf :=
    if ts.syscallNr = -1 then overlay buf ("running".toUTF8.toList ++ [0])
    else
      match syscallName ts.syscallNr with
      | some name => overlay buf (clip name)
      | none => overlay buf (clip s!"sys_{ts.syscallNr.toInt}" ++ [0])
  let cmd := ts.syscallArg1.toUInt32
  if ts.syscallNr = 16 ∧ (cmd >>> 8) &&& 0xff = 0x4e ∧ 0x80 ≤ cmd &&& 0xff ∧ cmd &&& 0xff ≤ 0x8d then
    overlay buf (clip (ntsyncName (cmd &&& 0xff)) ++ [0])
  else buf

/-- `RSDTZ`, and `?` for what is none of them. -/
def stateChar (state : UInt8) : UInt8 := [0x52, 0x53, 0x44, 0x54, 0x5a].getD state.toNat 0x3f

/-- The row of a thread over what was in its place. -/
def fillThread (th : ThreadSample) (ts : ThreadBpfState) : ThreadSample :=
  let name := nameSyscall th.syscallName ts
  { pid := ts.pid.toInt32
    tid := ts.tid.toInt32
    state := stateChar ts.state
    utime := ts.runtimeNs
    stime := 0
    cpuPct := 0
    syscallNr := ts.syscallNr
    syscallArg1 := ts.syscallArg0
    syscallArg2 := ts.syscallArg1
    comm := overlay th.comm ts.comm.toList
    wchan := if stateChar ts.state ≠ 0x52 ∧ 0 ≤ ts.syscallNr then overlay th.wchan (name.take 24) else th.wchan
    syscallName := name
    ioFd := ts.ioFd
    ioCount := ts.ioCount
    ioWhence := ts.ioWhence
    ioResult := ts.ioResult
    ioTimestampNs := ts.ioTimestampNs
    curCpu := ts.curCpu
    migrations := ts.migrations }

/-! ## The loop over `thread_map` -/

def maxThreads : Nat := 256

/-- `snap.threads` and `snap.thread_count`. -/
structure SnapThreads where
  threads : Vector ThreadSample maxThreads
  count : Nat

def SnapThreads.rows (snap : SnapThreads) : List ThreadSample := snap.threads.toList.take snap.count

def SnapThreads.push (snap : SnapThreads) (ts : ThreadBpfState) : SnapThreads :=
  if h : snap.count < maxThreads then
    { threads := snap.threads.set snap.count (fillThread snap.threads[snap.count] ts) h, count := snap.count + 1 }
  else snap

section

variable {ι : Type} (procMap : KeyMap UInt32 ι)

/-- The `while` loop, from the cursor `key` on. What `proc_map` holds of a
process is not looked at. -/
def threadLoop : Nat → KeyMap UInt32 ThreadBpfState → UInt32 → SnapThreads →
    Option (KeyMap UInt32 ThreadBpfState × SnapThreads)
  | 0, _, _, _ => none
  | fuel + 1, threadMap, key, snap =>
      match threadMap.getNextKey key with
      | none => some (threadMap, snap)
      | some next =>
          if maxThreads ≤ snap.count then some (threadMap, snap)
          else
            match threadMap.lookup next with
            | none => threadLoop fuel threadMap next snap
            | some ts =>
                match procMap.lookup ts.pid with
                | none => threadLoop fuel (threadMap.erase next) next snap
                | some _ => threadLoop fuel threadMap next (snap.push ts)

/-- The threads of `snapshot_from_maps`. -/
def snapshotThreads (fuel : Nat) (threadMap : KeyMap UInt32 ThreadBpfState) (snap : SnapThreads) :
    Option (KeyMap UInt32 ThreadBpfState × SnapThreads) :=
  threadLoop procMap fuel threadMap 0 { snap with count := 0 }

/-! ## What is reported -/

/-- `thread_map` is keyed by tid. -/
structure ThreadMap extends KeyMap UInt32 ThreadBpfState where
  keyed : ∀ e ∈ entries, e.2.tid = e.1

def tracked (ts : ThreadBpfState) : Bool := (procMap.lookup ts.pid).isSome

/-- A row has the counters of a map entry. -/
structure SampleOf (th : ThreadSample) (ts : ThreadBpfState) : Prop where
  pid : th.pid = ts.pid.toInt32
  tid : th.tid = ts.tid.toInt32
  syscallNr : th.syscallNr = ts.syscallNr
  syscallArgs : th.syscallArg1 = ts.syscallArg0 ∧ th.syscallArg2 = ts.syscallArg1
  utime : th.utime = ts.runtimeNs
  io : th.ioFd = ts.ioFd ∧ th.ioCount = ts.ioCount ∧ th.ioWhence = ts.ioWhence
  ioDone : th.ioResult = ts.ioResult ∧ th.ioTimestampNs = ts.ioTimestampNs
  placement : th.curCpu = ts.curCpu ∧ th.migrations = ts.migrations

/-- The rows are those of the tracked threads, each once, as many as fit. -/
def Reports (threadMap : ThreadMap) (rows : List ThreadSample) : Prop :=
  ∃ picks, Once (fun e => tracked procMap e.2) maxThreads threadMap.entries picks
    ∧ List.Forall₂ (fun th e => SampleOf th e.2) rows picks

end

theorem sampleOf_fillThread (th : ThreadSample) (ts : ThreadBpfState) : SampleOf (fillThread th ts) ts :=
  ⟨rfl, rfl, rfl, ⟨rfl, rfl⟩, rfl, ⟨rfl, rfl, rfl⟩, ⟨rfl, rfl⟩, ⟨rfl, rfl⟩⟩

section

variable {ι : Type} {procMap : KeyMap UInt32 ι}

/-- Rows with the entries they were made from. -/
structure RowsOf (snap : SnapThreads) (rows : List (UInt32 × ThreadBpfState)) : Prop where
  count : snap.count = rows.length
  rows : List.Forall₂ (fun th (e : UInt32 × ThreadBpfState) => SampleOf th e.2) snap.rows rows

theorem RowsOf.push {snap : SnapThreads} {rows : List (UInt32 × ThreadBpfState)} (h : RowsOf snap rows)
    (hroom : snap.count < maxThreads) (next : UInt32) (ts : ThreadBpfState) :
    RowsOf (snap.push ts) (rows ++ [(next, ts)]) := by
  have hrows : (snap.push ts).rows = snap.rows ++ [fillThread snap.threads[snap.count] ts] := by
    have hlen : snap.count < snap.threads.toList.length := by rwa [Vector.length_toList]
    rw [SnapThreads.push, dif_pos hroom, SnapThreads.rows, Vector.toList_set, SnapThreads.rows, List.take_add_one,
      List.take_set_of_le le_rfl, List.getElem?_set_self hlen]
    rfl
  constructor
  · rw [SnapThreads.push, dif_pos hroom, List.length_append, ← h.count]
    rfl
  · rw [hrows]
    exact List.rel_append h.rows (.cons (sampleOf_fillThread _ ts) .nil)

theorem threadLoop_of_walk {fuel : Nat} {m m' : KeyMap UInt32 ThreadBpfState} {key : UInt32} {snap : SnapThreads}
    {rows rows' : List (UInt32 × ThreadBpfState)} (h : RowsOf snap rows)
    (hwalk : CursorWalk.walk (tracked procMap) maxThreads fuel m key rows = some (m', rows')) :
    ∃ snap', threadLoop procMap fuel m key snap = some (m', snap') ∧ RowsOf snap' rows' := by
  induction fuel generalizing m key snap rows with
  | zero => exact absurd hwalk nofun
  | succ fuel ih =>
      rw [CursorWalk.walk] at hwalk
      rw [threadLoop]
      cases hnext : m.getNextKey key with
      | none =>
          rw [hnext] at hwalk
          cases hwalk
          exact ⟨snap, rfl, h⟩
      | some next =>
          rw [hnext] at hwalk
          dsimp only at hwalk ⊢
          rw [← h.count] at hwalk
          by_cases hfull : maxThreads ≤ snap.count
          · rw [if_pos hfull] at hwalk ⊢
            cases hwalk
            exact ⟨snap, rfl, h⟩
          · rw [if_neg hfull] at hwalk ⊢
            cases hlookup : m.lookup next with
            | none =>
                rw [hlookup] at hwalk
                exact ih h hwalk
            | some ts =>
                rw [hlookup] at hwalk
                dsimp only at hwalk ⊢
                cases hproc : procMap.lookup ts.pid with
                | none =>
                    rw [tracked, hproc, Option.isSome_none, if_neg Bool.false_ne_true] at hwalk
                    exact ih h hwalk
                | some p =>
                    rw [tracked, hproc, Option.isSome_some, if_pos rfl] at hwalk
                    exact ih (h.push (Nat.not_le.mp hfull) next ts) hwalk

/-- The tids of the rows are those of the entries, so the rows tell them. -/
theorem picks_unique {threadMap : ThreadMap} {rows : List ThreadSample} {picks picks' : List (UInt32 × ThreadBpfState)}
    (h : List.Forall₂ (fun th (e : UInt32 × ThreadBpfState) => SampleOf th e.2) rows picks)
    (h' : List.Forall₂ (fun th (e : UInt32 × ThreadBpfState) => SampleOf th e.2) rows picks')
    (hmem : ∀ e ∈ picks, e ∈ threadMap.entries) (hmem' : ∀ e ∈ picks', e ∈ threadMap.entries) : picks = picks' := by
  induction h generalizing picks' with
  | nil =>
      cases h'
      rfl
  | @cons th e rows picks hsample _ ih =>
      cases h' with
      | @cons _ e' _ picks' hsample' hrest' =>
          obtain ⟨he, hpicks⟩ := List.forall_mem_cons.mp hmem
          obtain ⟨he', hpicks'⟩ := List.forall_mem_cons.mp hmem'
          have htid : e.2.tid = e'.2.tid := by
            have hcast : e.2.tid.toInt32.toUInt32 = e'.2.tid.toInt32.toUInt32 :=
              congrArg Int32.toUInt32 (hsample.tid.symm.trans hsample'.tid)
            rwa [UInt32.toUInt32_toInt32, UInt32.toUInt32_toInt32] at hcast
          have hkey : e.1 = e'.1 := by rw [← threadMap.keyed e he, htid, threadMap.keyed e' he']
          rw [List.inj_on_of_nodup_map threadMap.nodup he he' hkey, ih hrest' hpicks hpicks']

/-- The walk ends and its rows are the threads, each once, exactly if it meets
them once. -/
theorem snapshotThreads_spec (procMap : KeyMap UInt32 ι) (threadMap : ThreadMap) (snap : SnapThreads) :
    ∃ n, ∀ fuel, n ≤ fuel → ∃ m' snap', snapshotThreads procMap fuel threadMap.toKeyMap snap = some (m', snap')
      ∧ (Reports procMap threadMap snap'.rows ↔
        MeetsOnce (fun e => tracked procMap e.2) maxThreads (splitBehind 0 threadMap.entries).1
          (splitBehind 0 threadMap.entries).2) := by
  have hsplit := splitBehind_append_eq 0 threadMap.entries
  have hnodup : threadMap.entries.Nodup := threadMap.nodup.of_map _
  have hwalk : ∃ n, ∀ fuel, n ≤ fuel → ∃ m', CursorWalk.walk (tracked procMap) maxThreads fuel threadMap.toKeyMap 0 []
      = some (m', scan (fun e => tracked procMap e.2) maxThreads (splitBehind 0 threadMap.entries).1
        (splitBehind 0 threadMap.entries).2 []) := walk_eq_scan hsplit.symm rfl
  obtain ⟨n, hn⟩ := hwalk
  refine ⟨n, fun fuel hfuel => ?_⟩
  obtain ⟨m', hm'⟩ := hn fuel hfuel
  have hstart : RowsOf { snap with count := 0 } [] := ⟨rfl, .nil⟩
  obtain ⟨snap', hloop, hrows⟩ := threadLoop_of_walk hstart hm'
  refine ⟨m', snap', hloop, ?_⟩
  have hmem : ∀ e ∈ scan (fun e => tracked procMap e.2) maxThreads (splitBehind 0 threadMap.entries).1
      (splitBehind 0 threadMap.entries).2 [], e ∈ threadMap.entries :=
    mem_scan (fun e he => hsplit ▸ he) nofun
  rw [← once_iff (hsplit.symm ▸ hnodup), hsplit]
  constructor
  · rintro ⟨picks, honce, hpicks⟩
    rwa [picks_unique hrows.rows hpicks hmem fun e he => (honce.mem e he).1]
  · exact fun honce => ⟨_, honce, hrows.rows⟩

variable (procMap) in
/-- The walk ends, and the snapshot reports each tracked thread once. -/
def ReportsOnce (threadMap : ThreadMap) (snap : SnapThreads) : Prop :=
  ∃ n, ∀ fuel, n ≤ fuel → ∃ m' snap', snapshotThreads procMap fuel threadMap.toKeyMap snap = some (m', snap')
    ∧ Reports procMap threadMap snap'.rows

theorem reportsOnce_iff (threadMap : ThreadMap) (snap : SnapThreads) :
    ReportsOnce procMap threadMap snap ↔
      MeetsOnce (fun e => tracked procMap e.2) maxThreads (splitBehind 0 threadMap.entries).1
        (splitBehind 0 threadMap.entries).2 := by
  obtain ⟨n, hn⟩ := snapshotThreads_spec procMap threadMap snap
  constructor
  · rintro ⟨k, hk⟩
    obtain ⟨m, out, hrun, hiff⟩ := hn (max n k) (le_max_left _ _)
    obtain ⟨m', out', hrun', hreports⟩ := hk (max n k) (le_max_right _ _)
    rw [hrun] at hrun'
    cases hrun'
    exact hiff.mp hreports
  · intro h
    refine ⟨n, fun fuel hfuel => ?_⟩
    obtain ⟨m, out, hrun, hiff⟩ := hn fuel hfuel
    exact ⟨m, out, hrun, hiff.mpr h⟩

/-- **The walk over the thread map ends**, and it reports each tracked thread
once exactly if it meets the tracked ones once. -/
theorem snapshotThreads_iff (procMap : KeyMap UInt32 ι) (threadMap : ThreadMap) (snap : SnapThreads) :
    (∃ n, ∀ fuel, n ≤ fuel → (snapshotThreads procMap fuel threadMap.toKeyMap snap).isSome)
      ∧ (ReportsOnce procMap threadMap snap ↔
        MeetsOnce (fun e => tracked procMap e.2) maxThreads (splitBehind 0 threadMap.entries).1
          (splitBehind 0 threadMap.entries).2) := by
  refine ⟨?_, reportsOnce_iff threadMap snap⟩
  obtain ⟨n, hn⟩ := snapshotThreads_spec procMap threadMap snap
  refine ⟨n, fun fuel hfuel => ?_⟩
  obtain ⟨m, out, hrun, -⟩ := hn fuel hfuel
  rw [hrun]
  rfl

end

def freshThread (pid tid : UInt32) : ThreadBpfState where
  pid := pid
  tid := tid
  state := 0
  syscallNr := -1
  syscallArg0 := 0
  syscallArg1 := 0
  runtimeNs := 0
  comm := Vector.replicate 16 0
  ioFd := -1
  ioCount := 0
  ioWhence := 0
  ioResult := 0
  ioTimestampNs := 0
  curCpu := -1
  migrations := 0

/-- Behind the thread 1 of a tracked process comes the thread 2 of another one:
the thread 1 is reported twice. -/
theorem not_reportsOnce_behind : ¬ ∀ (procMap : KeyMap UInt32 Unit) (threadMap : ThreadMap) (snap : SnapThreads),
    ReportsOnce procMap threadMap snap := by
  intro h
  have hbad := h ⟨[(1, ())], by decide⟩
    ⟨⟨[(1, freshThread 1 1), (2, freshThread 2 2)], by decide⟩, by simp [freshThread]⟩
    ⟨Vector.replicate maxThreads (fillThread ⟨0, 0, 0, 0, 0, 0, 0, 0, 0, [], [], [], 0, 0, 0, 0, 0, 0, 0⟩
      (freshThread 0 0)), 0⟩
  rw [reportsOnce_iff] at hbad
  simp [splitBehind, MeetsOnce, tracked, KeyMap.lookup, freshThread, maxThreads] at hbad

end Montauk.Trace
