import Montauk.Machine.Run
import Mathlib.Data.UInt
import Mathlib.Logic.Function.Basic

/-!
# mmap events

The tracer pairs the arguments of an `mmap` with its return value through a
scratch slot of the CPU: `handle_mmap_enter` fills the slot, unless the
mapping is anonymous, and `handle_mmap_exit` makes an event of it. The exit
handler means to skip a call whose entry was skipped by looking at the flags
in the slot; but only the flags of file-backed calls are ever stored there,
so the test never fires, and an anonymous call repeats the event of whatever
file-backed call was last on its CPU.
-/

namespace Montauk.Trace

open Machine

def mapAnonymous : UInt32 := 0x20

/-- An `mmap` call: the thread that makes it, whether its process is in
`proc_map`, and the six arguments. -/
structure MmapCall where
  pid : UInt32
  tid : UInt32
  tracked : Bool
  addr : UInt64
  length : UInt64
  prot : UInt64
  flags : UInt64
  fd : UInt64
  offset : UInt64

/-- `flags & MAP_ANONYMOUS`. -/
def MmapCall.anonymous (c : MmapCall) : Bool := c.flags.toUInt32 &&& mapAnonymous != 0

/-- `struct mmap_scratch`. -/
structure MmapScratch where
  fd : Int32
  prot : UInt32
  flags : UInt32
  length : UInt64
  offset : UInt64

def MmapScratch.zero : MmapScratch where
  fd := 0
  prot := 0
  flags := 0
  length := 0
  offset := 0

/-- `struct montauk_mmap_event`. -/
structure MmapEvent where
  pid : UInt32
  tid : UInt32
  fd : Int32
  addr : UInt64
  length : UInt64
  offset : UInt64
  prot : UInt32
  flags : UInt32
  timestampNs : UInt64
  comm : List UInt8
deriving DecidableEq

/-- The clock and the name of the running thread when a handler runs. -/
structure MmapEnv where
  now : UInt64
  comm : List UInt8

/-- What a file-backed call leaves in the slot. -/
def MmapCall.scratch (c : MmapCall) : MmapScratch where
  fd := c.fd.toUInt32.toInt32
  prot := c.prot.toUInt32
  flags := c.flags.toUInt32
  length := c.length
  offset := c.offset

/-- `handle_mmap_enter`, on the slot of the CPU. -/
def handleMmapEnter (c : MmapCall) (slot : MmapScratch) : MmapScratch :=
  if !c.tracked then slot
  else if c.anonymous then slot
  else c.scratch

def emitMmapEvent (env : MmapEnv) (pid tid : UInt32) (ret : Int64) (s : MmapScratch) : MmapEvent where
  pid
  tid
  fd := s.fd
  addr := ret.toUInt64
  length := s.length
  offset := s.offset
  prot := s.prot
  flags := s.flags
  timestampNs := env.now
  comm := env.comm

/-- `handle_mmap_exit`: the events submitted. -/
def handleMmapExit (env : MmapEnv) (c : MmapCall) (ret : Int64) (slot : MmapScratch) :
    List MmapEvent :=
  if !c.tracked then []
  else if slot.flags &&& mapAnonymous != 0 then []
  else [emitMmapEvent env c.pid c.tid ret slot]

/-! ## Calls on the CPUs -/

/-- A call that has returned, with the events its exit submitted. -/
structure MmapReturn where
  call : MmapCall
  ret : Int64
  env : MmapEnv
  events : List MmapEvent

/-- The slot of every CPU and the call in flight on it. -/
structure MmapState where
  slot : Nat → MmapScratch
  inFlight : Nat → Option MmapCall
  returned : List MmapReturn

def MmapState.start : MmapState where
  slot _ := .zero
  inFlight _ := none
  returned := []

inductive MmapAct where
  | enter (cpu : Nat) (call : MmapCall)
  | exit (cpu : Nat) (env : MmapEnv) (ret : Int64)

/-- A call enters and leaves on one CPU, with no other call between. -/
def MmapState.step (s : MmapState) : MmapAct → Option MmapState
  | .enter cpu call =>
      if (s.inFlight cpu).isNone then
        some { s with
          slot := Function.update s.slot cpu (handleMmapEnter call (s.slot cpu))
          inFlight := Function.update s.inFlight cpu (some call) }
      else none
  | .exit cpu env ret => do
      let call ← s.inFlight cpu
      some { s with
        inFlight := Function.update s.inFlight cpu none
        returned := s.returned ++
          [{ call, ret, env, events := handleMmapExit env call ret (s.slot cpu) }] }

/-- What the collector owes a call: one event with the call's own data if it
is file-backed and its process tracked, and nothing else. -/
def MmapReturn.owed (r : MmapReturn) : List MmapEvent :=
  if r.call.tracked && !r.call.anonymous then
    [emitMmapEvent r.env r.call.pid r.call.tid r.ret r.call.scratch]
  else []

/-! ## The slots -/

/-- No slot ever holds the flags of an anonymous mapping, a tracked
file-backed call in flight finds its own arguments in its slot, and an
anonymous call that has returned has left exactly one event. -/
structure MmapState.Inv (s : MmapState) : Prop where
  fileBacked : ∀ cpu, (s.slot cpu).flags &&& mapAnonymous = 0
  own : ∀ cpu call, s.inFlight cpu = some call → call.tracked = true →
    call.anonymous = false → s.slot cpu = call.scratch
  exact : ∀ r ∈ s.returned, (r.call.tracked = true → r.call.anonymous = false) →
    r.events = r.owed
  stale : ∀ r ∈ s.returned, r.call.tracked = true → r.call.anonymous = true →
    r.events.length = 1

theorem MmapState.Inv.start : MmapState.start.Inv where
  fileBacked _ := UInt32.zero_and
  own _ _ h := nomatch h
  exact _ h := nomatch h
  stale _ h := nomatch h

theorem handleMmapEnter_fileBacked {c : MmapCall} {slot : MmapScratch}
    (h : slot.flags &&& mapAnonymous = 0) :
    (handleMmapEnter c slot).flags &&& mapAnonymous = 0 := by
  unfold handleMmapEnter
  split
  · exact h
  split
  · exact h
  · rename_i _ hanon
    unfold MmapCall.anonymous at hanon
    simpa [MmapCall.scratch] using hanon

theorem MmapState.Inv.enter {s : MmapState} (h : s.Inv) (cpu : Nat) (call : MmapCall) :
    MmapState.Inv { s with
      slot := Function.update s.slot cpu (handleMmapEnter call (s.slot cpu))
      inFlight := Function.update s.inFlight cpu (some call) } := by
  refine ⟨fun k => ?_, fun k c hc ht ha => ?_, h.exact, h.stale⟩
  · by_cases hk : k = cpu
    · subst hk
      simp only [Function.update_self]
      exact handleMmapEnter_fileBacked (h.fileBacked k)
    · simp only [Function.update_of_ne hk]
      exact h.fileBacked k
  · by_cases hk : k = cpu
    · subst hk
      simp only [Function.update_self, Option.some.injEq] at hc ⊢
      subst hc
      simp [handleMmapEnter, ht, ha]
    · simp only [Function.update_of_ne hk] at hc ⊢
      exact h.own k c hc ht ha

/-- The exit of a call makes one event of the slot, if the process is
tracked: the test of the flags never fires. -/
theorem MmapState.Inv.handleMmapExit_eq {s : MmapState} (h : s.Inv) (cpu : Nat) (env : MmapEnv)
    (call : MmapCall) (ret : Int64) :
    handleMmapExit env call ret (s.slot cpu) =
      if call.tracked then [emitMmapEvent env call.pid call.tid ret (s.slot cpu)] else [] := by
  unfold handleMmapExit
  cases call.tracked <;> simp [h.fileBacked cpu]

theorem MmapState.Inv.exit {s : MmapState} (h : s.Inv) {cpu : Nat} {call : MmapCall}
    (hcall : s.inFlight cpu = some call) (env : MmapEnv) (ret : Int64) :
    MmapState.Inv { s with
      inFlight := Function.update s.inFlight cpu none
      returned := s.returned ++
        [{ call, ret, env, events := handleMmapExit env call ret (s.slot cpu) }] } := by
  refine ⟨h.fileBacked, fun k c hc ht ha => ?_, fun r hr hcond => ?_, fun r hr ht ha => ?_⟩
  · by_cases hk : k = cpu
    · subst hk
      simp at hc
    · simp only [Function.update_of_ne hk] at hc
      exact h.own k c hc ht ha
  · rcases List.mem_append.mp hr with hr | hr
    · exact h.exact r hr hcond
    · cases List.mem_singleton.mp hr
      simp only at hcond ⊢
      rw [h.handleMmapExit_eq]
      cases ht : call.tracked with
      | false => simp [MmapReturn.owed, ht]
      | true =>
        have hslot := h.own cpu call hcall ht (hcond ht)
        simp [MmapReturn.owed, ht, hcond ht, hslot]
  · rcases List.mem_append.mp hr with hr | hr
    · exact h.stale r hr ht ha
    · cases List.mem_singleton.mp hr
      simp only at ht ⊢
      rw [h.handleMmapExit_eq, ht]
      rfl

theorem MmapState.Inv.step {s s' : MmapState} {a : MmapAct} (h : s.Inv)
    (hstep : s.step a = some s') : s'.Inv := by
  cases a with
  | enter cpu call =>
    unfold MmapState.step at hstep
    dsimp only at hstep
    split at hstep
    · cases hstep
      exact h.enter cpu call
    · cases hstep
  | exit cpu env ret =>
    obtain ⟨call, hcall, hs⟩ := Option.bind_eq_some_iff.mp hstep
    cases hs
    exact h.exit hcall env ret

theorem MmapState.Inv.run {s : MmapState} {as : List MmapAct}
    (h : Machine.run MmapState.step .start as = some s) : s.Inv :=
  run_invariant (fun _ _ _ hI hstep => MmapState.Inv.step hI hstep) h .start

/-! ## Exact events -/

/-- In every run the collector receives what it owes each returned call, if
and only if no tracked process made an anonymous mapping. -/
theorem mmap_events_exact_iff {s : MmapState} {as : List MmapAct}
    (h : run MmapState.step .start as = some s) :
    (∀ r ∈ s.returned, r.events = r.owed) ↔
      ∀ r ∈ s.returned, r.call.tracked = true → r.call.anonymous = false := by
  have hinv := MmapState.Inv.run h
  constructor
  · intro hall r hr ht
    cases ha : r.call.anonymous with
    | false => rfl
    | true =>
      have hlen := hinv.stale r hr ht ha
      rw [hall r hr, MmapReturn.owed, ha] at hlen
      simp at hlen
  · intro hcond r hr
    exact hinv.exact r hr (hcond r hr)

/-- One call on CPU 0, by process 7 on descriptor 3. -/
def mmapOnce (flags : UInt64) : List MmapAct :=
  [.enter 0
    { pid := 7, tid := 7, tracked := true, addr := 0, length := 4096, prot := 1, flags, fd := 3,
      offset := 0 },
    .exit 0 { now := 1, comm := [] } 0x1000]

/-- Process 7 maps descriptor 3 on CPU 0 while process 9, which is not tracked,
makes an anonymous mapping on CPU 1, where process 7 then maps descriptor 4. -/
def mmapsAround : List MmapAct :=
  [.enter 1
    { pid := 9, tid := 9, tracked := false, addr := 0, length := 8192, prot := 3, flags := 0x22,
      fd := 0xffffffffffffffff, offset := 0 }] ++
    mmapOnce 2 ++
    [.exit 1 { now := 2, comm := [] } 0x8000,
      .enter 1
        { pid := 7, tid := 8, tracked := true, addr := 0, length := 100, prot := 5, flags := 1, fd := 4,
          offset := 4096 },
      .exit 1 { now := 3, comm := [] } 0x2000]

theorem mmap_events_exact_file :
    ∃ s, run MmapState.step .start mmapsAround = some s ∧
      ((∀ r ∈ s.returned, r.events = r.owed) ↔
        ∀ r ∈ s.returned, r.call.tracked = true → r.call.anonymous = false) :=
  ⟨_, rfl, @mmap_events_exact_iff _ mmapsAround rfl⟩

/-- An anonymous call behind a file-backed one repeats its event. -/
theorem mmap_events_anonymous :
    ¬ ∀ (s : MmapState) (as : List MmapAct), run MmapState.step .start as = some s →
      ∀ r ∈ s.returned, r.events = r.owed := by
  intro h
  have hrun : ∃ s, run MmapState.step .start (mmapOnce 2 ++ mmapOnce 0x22) = some s ∧
      (s.returned.map fun r => (r.events.length, r.owed.length)) = [(1, 1), (1, 0)] :=
    ⟨_, rfl, by decide⟩
  obtain ⟨s, hs, hlens⟩ := hrun
  have hsame : ∀ p ∈ s.returned.map fun r => (r.events.length, r.owed.length), p.1 = p.2 := by
    intro p hp
    obtain ⟨r, hr, rfl⟩ := List.mem_map.mp hp
    exact congrArg List.length (h s _ hs r hr)
  rw [hlens] at hsame
  exact absurd (hsame (1, 0) (by simp)) (by decide)

end Montauk.Trace
