import Montauk.Machine.KeyMap
import Montauk.Machine.Run
import Mathlib.Data.UInt
import Mathlib.Logic.Function.Basic

/-!
# Heap events

The probes of `malloc`, `calloc` and `realloc` pair the operands of a call with
its result through an entry of `heap_inflight`, and `free` is recorded at its
entry. The free probe can be delivered twice for one call, so a free is passed
over when its thread has just freed the same pointer and no allocation of that
thread has returned since.

Pointers travel: another thread may have been given the pointer in between and
handed it on. Then a free of an allocated pointer is passed over
(`not_accounts_handed`). A call is accounted for exactly if its free does not
look like an echo, its entry found room in `heap_inflight` and the product of a
`calloc` does not wrap (`heapEvents_iff`).
-/

namespace Montauk.Trace

open Machine

/-! ## The maps and the probes -/

/-- `enum heap_op`. -/
inductive HeapOp where
  | malloc
  | free
  | realloc
  | calloc
deriving DecidableEq

/-- `struct heap_scratch`. -/
structure HeapScratch where
  size : UInt64
  oldAddr : UInt64
  op : HeapOp

/-- `struct free_echo`. -/
structure FreeEcho where
  ptr : UInt64
  ts : UInt64

/-- `struct montauk_heap_event`. -/
structure HeapEvent where
  pid : UInt32
  tid : UInt32
  op : HeapOp
  addr : UInt64
  size : UInt64
  newAddr : UInt64
  timestampNs : UInt64
  comm : List UInt8

def freeEchoWindowNs : UInt64 := 10000

/-- The room in `heap_inflight`. -/
def heapInflightMax : Nat := 4096

/-- `heap_inflight` and `free_echo_guard`. -/
structure HeapMaps where
  inflight : KeyMap UInt32 HeapScratch
  guard : UInt32 → Option FreeEcho

/-- The clock when a probe runs and when its record is written, and the name of
the running thread. -/
structure ProbeEnv where
  now : UInt64
  written : UInt64
  comm : List UInt8

/-- `emit_heap`, in a tracked process with room in the ring. -/
def emitHeap (env : ProbeEnv) (pid tid : UInt32) (op : HeapOp) (addr size newAddr : UInt64) : HeapEvent where
  pid
  tid
  op
  addr
  size
  newAddr
  timestampNs := env.written
  comm := env.comm

/-- The entry probes leave the operands. -/
def HeapMaps.enter (m : HeapMaps) (tid : UInt32) (s : HeapScratch) : HeapMaps :=
  { m with inflight := m.inflight.update heapInflightMax tid s }

def uprobeMalloc (m : HeapMaps) (tid : UInt32) (size : UInt64) : HeapMaps :=
  m.enter tid { size, oldAddr := 0, op := .malloc }

def uprobeRealloc (m : HeapMaps) (tid : UInt32) (oldPtr size : UInt64) : HeapMaps :=
  m.enter tid { size, oldAddr := oldPtr, op := .realloc }

def uprobeCalloc (m : HeapMaps) (tid : UInt32) (nmemb size : UInt64) : HeapMaps :=
  m.enter tid { size := nmemb * size, oldAddr := 0, op := .calloc }

/-- The return probes take the operands, record the call and clear the guard. -/
def HeapMaps.leave (m : HeapMaps) (tid : UInt32) (record : HeapScratch → HeapEvent) : List HeapEvent × HeapMaps :=
  match m.inflight.lookup tid with
  | none => ([], m)
  | some s => ([record s], { inflight := m.inflight.erase tid, guard := Function.update m.guard tid none })

def uretprobeMalloc (m : HeapMaps) (env : ProbeEnv) (pid tid : UInt32) (ret : UInt64) : List HeapEvent × HeapMaps :=
  m.leave tid fun s => emitHeap env pid tid .malloc ret s.size 0

def uretprobeRealloc (m : HeapMaps) (env : ProbeEnv) (pid tid : UInt32) (ret : UInt64) : List HeapEvent × HeapMaps :=
  m.leave tid fun s => emitHeap env pid tid .realloc s.oldAddr s.size ret

def uretprobeCalloc (m : HeapMaps) (env : ProbeEnv) (pid tid : UInt32) (ret : UInt64) : List HeapEvent × HeapMaps :=
  m.leave tid fun s => emitHeap env pid tid .calloc ret s.size 0

/-- The free looks like the one its thread has just recorded. -/
def HeapMaps.echoes (m : HeapMaps) (tid : UInt32) (ptr now : UInt64) : Bool :=
  (m.guard tid).any fun last => last.ptr == ptr && decide (now - last.ts ≤ freeEchoWindowNs)

def uprobeFree (m : HeapMaps) (env : ProbeEnv) (pid tid : UInt32) (ptr : UInt64) : List HeapEvent × HeapMaps :=
  if m.echoes tid ptr env.now then ([], m)
  else
    ([emitHeap env pid tid .free ptr 0 0],
      { m with guard := Function.update m.guard tid (some { ptr, ts := env.now }) })

/-! ## Threads that share a heap -/

/-- A call that allocates. -/
inductive HeapCall where
  | malloc (size : UInt64)
  | calloc (nmemb size : UInt64)
  | realloc (old size : UInt64)
deriving DecidableEq

abbrev Allocated := UInt64 → Bool

/-- A reallocation is of a pointer that is allocated, or of none. -/
def HeapCall.legal (a : Allocated) : HeapCall → Bool
  | .realloc old _ => old == 0 || a old
  | _ => true

/-- The heap while the call is under way: the old block is the call's. -/
def HeapCall.take (a : Allocated) : HeapCall → Allocated
  | .realloc old _ => Function.update a old false
  | _ => a

/-- A result is a pointer that nobody has, or none. A reallocation without a
result leaves the old block as it was, except of size zero. -/
def HeapCall.returns (a : Allocated) (ret : UInt64) (c : HeapCall) : Bool :=
  if ret ≠ 0 then !a ret
  else
    match c with
    | .realloc old _ => !a old
    | _ => true

def HeapCall.give (a : Allocated) (ret : UInt64) (c : HeapCall) : Allocated :=
  if ret ≠ 0 then Function.update a ret true
  else
    match c with
    | .realloc old size => if old ≠ 0 ∧ size ≠ 0 then Function.update a old true else a
    | _ => a

def HeapCall.enter (m : HeapMaps) (tid : UInt32) : HeapCall → HeapMaps
  | .malloc size => uprobeMalloc m tid size
  | .calloc nmemb size => uprobeCalloc m tid nmemb size
  | .realloc old size => uprobeRealloc m tid old size

def HeapCall.leave (m : HeapMaps) (env : ProbeEnv) (pid tid : UInt32) (ret : UInt64) :
    HeapCall → List HeapEvent × HeapMaps
  | .malloc _ => uretprobeMalloc m env pid tid ret
  | .calloc _ _ => uretprobeCalloc m env pid tid ret
  | .realloc _ _ => uretprobeRealloc m env pid tid ret

/-- What an event says of a call. -/
structure HeapFacts where
  pid : UInt32
  tid : UInt32
  op : HeapOp
  addr : UInt64
  size : Nat
  newAddr : UInt64
deriving DecidableEq

def HeapEvent.facts (e : HeapEvent) : HeapFacts := ⟨e.pid, e.tid, e.op, e.addr, e.size.toNat, e.newAddr⟩

/-- The operands and the result of a call. -/
def HeapCall.facts (pid tid : UInt32) (ret : UInt64) : HeapCall → HeapFacts
  | .malloc size => ⟨pid, tid, .malloc, ret, size.toNat, 0⟩
  | .calloc nmemb size => ⟨pid, tid, .calloc, ret, nmemb.toNat * size.toNat, 0⟩
  | .realloc old size => ⟨pid, tid, .realloc, old, size.toNat, ret⟩

def freeFacts (pid tid : UInt32) (ptr : UInt64) : HeapFacts := ⟨pid, tid, .free, ptr, 0, 0⟩

/-- A call that is over, with the events its probes submitted. -/
structure HeapReturn where
  facts : HeapFacts
  events : List HeapEvent

structure HeapState where
  maps : HeapMaps
  inCall : UInt32 → Option HeapCall
  allocated : Allocated
  returned : List HeapReturn

def HeapState.start : HeapState where
  maps := { inflight := .empty, guard := fun _ => none }
  inCall _ := none
  allocated _ := false
  returned := []

/-- A thread calls and returns, or frees; and the kernel drops a guard. -/
inductive HeapAct where
  | call (tid : UInt32) (c : HeapCall)
  | ret (tid : UInt32) (env : ProbeEnv) (ret : UInt64)
  | free (tid : UInt32) (env : ProbeEnv) (ptr : UInt64)
  | evict (tid : UInt32)

/-- The threads of the process `pid`. A pointer is freed only while it is
allocated, or is none, and a thread is in one call at a time. -/
def HeapState.step (pid : UInt32) (s : HeapState) : HeapAct → Option HeapState
  | .call tid c =>
      if (s.inCall tid).isNone && c.legal s.allocated then
        some { s with
          maps := c.enter s.maps tid
          inCall := Function.update s.inCall tid (some c)
          allocated := c.take s.allocated }
      else none
  | .ret tid env ret => do
      let c ← s.inCall tid
      if c.returns s.allocated ret then
        some
          { maps := (c.leave s.maps env pid tid ret).2
            inCall := Function.update s.inCall tid none
            allocated := c.give s.allocated ret
            returned := s.returned ++ [⟨c.facts pid tid ret, (c.leave s.maps env pid tid ret).1⟩] }
      else none
  | .free tid env ptr =>
      if (s.inCall tid).isNone && (ptr == 0 || s.allocated ptr) then
        some { s with
          maps := (uprobeFree s.maps env pid tid ptr).2
          allocated := Function.update s.allocated ptr false
          returned := s.returned ++ [⟨freeFacts pid tid ptr, (uprobeFree s.maps env pid tid ptr).1⟩] }
      else none
  | .evict tid => some { s with maps := { s.maps with guard := Function.update s.maps.guard tid none } }

/-- Exactly one event for each call, with its operands and its result. -/
def HeapState.Accounts (s : HeapState) : Prop := ∀ r ∈ s.returned, r.events.map HeapEvent.facts = [r.facts]

/-- The product of a `calloc` is one of 64 bits. -/
def HeapCall.fits : HeapCall → Prop
  | .calloc nmemb size => nmemb.toNat * size.toNat < 2 ^ 64
  | _ => True

/-- A call that returns has its entry in `heap_inflight` and fits, and a free
does not look like an echo. -/
def HeapState.Plain (s : HeapState) : HeapAct → Prop
  | .ret tid _ _ => (s.maps.inflight.lookup tid).isSome ∧ ∀ c, s.inCall tid = some c → c.fits
  | .free tid env ptr => s.maps.echoes tid ptr env.now = false
  | _ => True

/-! ## The entries -/

/-- What the entry probe leaves of a call. -/
def HeapCall.scratch : HeapCall → HeapScratch
  | .malloc size => { size, oldAddr := 0, op := .malloc }
  | .calloc nmemb size => { size := nmemb * size, oldAddr := 0, op := .calloc }
  | .realloc old size => { size, oldAddr := old, op := .realloc }

theorem HeapCall.enter_eq (m : HeapMaps) (tid : UInt32) (c : HeapCall) : c.enter m tid = m.enter tid c.scratch := by
  cases c <;> rfl

/-- An entry is of the call its thread is in. -/
def HeapState.Inv (s : HeapState) : Prop :=
  ∀ tid scratch, s.maps.inflight.lookup tid = some scratch → ∃ c, s.inCall tid = some c ∧ scratch = c.scratch

theorem HeapState.Inv.start : HeapState.start.Inv := fun _ _ h => absurd h nofun

theorem HeapState.Inv.lookup_none {s : HeapState} (h : s.Inv) {tid : UInt32} (hidle : s.inCall tid = none) :
    s.maps.inflight.lookup tid = none := by
  cases hlookup : s.maps.inflight.lookup tid with
  | none => rfl
  | some scratch =>
      obtain ⟨c, hc, -⟩ := h tid scratch hlookup
      rw [hidle] at hc
      exact absurd hc nofun

theorem HeapState.Inv.lookup_enter {s : HeapState} (h : s.Inv) {tid : UInt32} (hidle : s.inCall tid = none)
    (c : HeapCall) : (c.enter s.maps tid).inflight.lookup tid
      = if s.maps.inflight.entries.length < heapInflightMax then some c.scratch else none := by
  rw [HeapCall.enter_eq]
  exact lookup_update_new (h.lookup_none hidle)

theorem HeapCall.leave_inflight (m : HeapMaps) (env : ProbeEnv) (pid tid : UInt32) (ret : UInt64) (c : HeapCall) :
    (c.leave m env pid tid ret).2.inflight = if (m.inflight.lookup tid).isSome then m.inflight.erase tid
      else m.inflight := by
  have hleave : ∀ record, (m.leave tid record).2.inflight
      = if (m.inflight.lookup tid).isSome then m.inflight.erase tid else m.inflight := by
    intro record
    rw [HeapMaps.leave]
    cases m.inflight.lookup tid <;> rfl
  cases c <;> exact hleave _

theorem uprobeFree_inflight (m : HeapMaps) (env : ProbeEnv) (pid tid : UInt32) (ptr : UInt64) :
    (uprobeFree m env pid tid ptr).2.inflight = m.inflight := by
  rw [uprobeFree]
  split <;> rfl

theorem HeapState.Inv.step {pid : UInt32} {s s' : HeapState} {a : HeapAct} (h : s.Inv)
    (hstep : s.step pid a = some s') : s'.Inv := by
  cases a with
  | call tid c =>
      rw [HeapState.step] at hstep
      split at hstep
      · rename_i hlegal
        cases hstep
        have hidle : s.inCall tid = none := by simpa using (Bool.and_eq_true_iff.mp hlegal).1
        intro t scratch ht
        by_cases htid : t = tid
        · subst htid
          have hroom := h.lookup_enter hidle c
          refine ⟨c, Function.update_self .., ?_⟩
          rw [hroom] at ht
          split at ht
          · exact (Option.some.inj ht).symm
          · exact absurd ht nofun
        · have hsame : (c.enter s.maps tid).inflight.lookup t = s.maps.inflight.lookup t := by
            rw [HeapCall.enter_eq]
            exact lookup_update_of_ne htid
          obtain ⟨d, hd, hscratch⟩ := h t scratch (hsame ▸ ht)
          exact ⟨d, by rw [← hd]; exact Function.update_of_ne htid .., hscratch⟩
      · exact absurd hstep nofun
  | ret tid env ret =>
      obtain ⟨c, hc, hstep⟩ := Option.bind_eq_some_iff.mp hstep
      split at hstep
      · cases hstep
        intro t scratch ht
        have hinflight := c.leave_inflight s.maps env pid tid ret
        dsimp only at ht
        rw [hinflight] at ht
        by_cases htid : t = tid
        · subst htid
          split at ht
          · rw [lookup_erase_self] at ht
            exact absurd ht nofun
          · rename_i hnone
            rw [Option.not_isSome_iff_eq_none.mp hnone] at ht
            exact absurd ht nofun
        · have hsame : s.maps.inflight.lookup t = some scratch := by
            split at ht
            · rwa [lookup_erase_of_ne htid] at ht
            · exact ht
          obtain ⟨d, hd, hscratch⟩ := h t scratch hsame
          exact ⟨d, by rw [← hd]; exact Function.update_of_ne htid .., hscratch⟩
      · exact absurd hstep nofun
  | free tid env ptr =>
      rw [HeapState.step] at hstep
      split at hstep
      · cases hstep
        intro t scratch ht
        dsimp only at ht
        rw [uprobeFree_inflight] at ht
        exact h t scratch ht
      · exact absurd hstep nofun
  | evict tid =>
      cases hstep
      exact h

/-! ## One event for each call -/

theorem HeapMaps.leave_none {m : HeapMaps} {tid : UInt32} (h : m.inflight.lookup tid = none)
    (record : HeapScratch → HeapEvent) : m.leave tid record = ([], m) := by
  rw [HeapMaps.leave, h]

theorem HeapMaps.leave_some {m : HeapMaps} {tid : UInt32} {scratch : HeapScratch}
    (h : m.inflight.lookup tid = some scratch) (record : HeapScratch → HeapEvent) :
    (m.leave tid record).1 = [record scratch] := by
  rw [HeapMaps.leave, h]

theorem toNat_mul_eq_iff {a b : UInt64} : (a * b).toNat = a.toNat * b.toNat ↔ a.toNat * b.toNat < 2 ^ 64 := by
  rw [UInt64.toNat_mul]
  exact Nat.mod_eq_iff_lt (by decide)

/-- A call that returns is accounted for exactly if it has its entry and fits. -/
theorem HeapState.Inv.leave_facts {s : HeapState} (h : s.Inv) {tid : UInt32} {c : HeapCall}
    (hc : s.inCall tid = some c) (env : ProbeEnv) (pid : UInt32) (ret : UInt64) :
    (c.leave s.maps env pid tid ret).1.map HeapEvent.facts = [c.facts pid tid ret]
      ↔ (s.maps.inflight.lookup tid).isSome ∧ c.fits := by
  cases hlookup : s.maps.inflight.lookup tid with
  | none =>
      have hleave : (c.leave s.maps env pid tid ret).1 = [] := by
        cases c <;> rw [HeapCall.leave] <;> exact congrArg Prod.fst (HeapMaps.leave_none hlookup _)
      rw [hleave]
      exact ⟨fun hfacts => absurd hfacts nofun, fun hin => absurd hin.1 nofun⟩
  | some scratch =>
      obtain ⟨d, hd, rfl⟩ := h tid scratch hlookup
      obtain rfl : c = d := Option.some.inj (hc.symm.trans hd)
      have hsome : ∀ record : HeapScratch → HeapEvent,
          (s.maps.leave tid record).1.map HeapEvent.facts = [(record c.scratch).facts] :=
        fun record => by rw [HeapMaps.leave_some hlookup, List.map_singleton]
      rw [Option.isSome_some, eq_self, true_and]
      cases c with
      | malloc size => exact ⟨fun _ => trivial, fun _ => hsome _⟩
      | realloc old size => exact ⟨fun _ => trivial, fun _ => hsome _⟩
      | calloc nmemb size =>
          have hfacts : (HeapCall.leave s.maps env pid tid ret (.calloc nmemb size)).1.map HeapEvent.facts
              = [⟨pid, tid, .calloc, ret, (nmemb * size).toNat, 0⟩] := hsome _
          rw [hfacts, HeapCall.fits, ← toNat_mul_eq_iff]
          simp [HeapCall.facts]

theorem uprobeFree_facts (m : HeapMaps) (env : ProbeEnv) (pid tid : UInt32) (ptr : UInt64) :
    (uprobeFree m env pid tid ptr).1.map HeapEvent.facts = [freeFacts pid tid ptr]
      ↔ m.echoes tid ptr env.now = false := by
  rw [uprobeFree]
  cases m.echoes tid ptr env.now with
  | true => simp
  | false => exact ⟨fun _ => rfl, fun _ => rfl⟩

theorem HeapState.accounts_append {s s' : HeapState} {r : HeapReturn} (h : s'.returned = s.returned ++ [r]) :
    s'.Accounts ↔ s.Accounts ∧ r.events.map HeapEvent.facts = [r.facts] := by
  rw [HeapState.Accounts, h, List.forall_mem_append, List.forall_mem_singleton]
  rfl

/-- A step keeps the account exactly if it is a plain one. -/
theorem HeapState.Inv.accounts_step {pid : UInt32} {s s' : HeapState} {a : HeapAct} (h : s.Inv)
    (hstep : s.step pid a = some s') : s'.Accounts ↔ s.Accounts ∧ s.Plain a := by
  cases a with
  | call tid c =>
      rw [HeapState.step] at hstep
      split at hstep
      · cases hstep
        exact (and_iff_left trivial).symm
      · exact absurd hstep nofun
  | ret tid env ret =>
      obtain ⟨c, hc, hstep⟩ := Option.bind_eq_some_iff.mp hstep
      split at hstep
      · cases hstep
        rw [HeapState.accounts_append rfl, h.leave_facts hc]
        refine and_congr_right' (and_congr_right' ⟨fun hfits d hd => ?_, fun hall => hall c hc⟩)
        rw [hc] at hd
        cases hd
        exact hfits
      · exact absurd hstep nofun
  | free tid env ptr =>
      rw [HeapState.step] at hstep
      split at hstep
      · cases hstep
        rw [HeapState.accounts_append rfl, uprobeFree_facts]
        rfl
      · exact absurd hstep nofun
  | evict tid =>
      cases hstep
      exact (and_iff_left trivial).symm

theorem HeapState.Inv.accounts_run {pid : UInt32} {s s' : HeapState} {as : List HeapAct} (h : s.Inv)
    (hrun : run (HeapState.step pid) s as = some s') :
    s'.Accounts ↔ s.Accounts ∧ Meets (HeapState.step pid) HeapState.Plain s as := by
  induction as generalizing s with
  | nil =>
      cases run_nil hrun
      exact (and_iff_left meets_nil).symm
  | cons a as ih =>
      obtain ⟨t, ht, hrest⟩ := run_cons hrun
      rw [ih (h.step ht) hrest, h.accounts_step ht, and_assoc]
      refine and_congr_right' ⟨fun hmeets => meets_cons hmeets.1 ht hmeets.2, fun hmeets => ?_⟩
      exact ⟨hmeets.1, hmeets.2 t ht⟩

/-- In every run of the threads that share the heap, there is exactly one event
for each call that is over, with its operands and its result, if and only if
every step of the run is a plain one. -/
theorem heapEvents_iff {pid : UInt32} {s : HeapState} {as : List HeapAct}
    (h : run (HeapState.step pid) .start as = some s) :
    s.Accounts ↔ Meets (HeapState.step pid) HeapState.Plain .start as := by
  rw [HeapState.Inv.start.accounts_run h]
  exact and_iff_right nofun

def probedAt (now : UInt64) : ProbeEnv := { now, written := now, comm := [] }

/-- Thread 1 is given the pointer `p` and frees it, and thread 2, which is given
it next, frees it as well while thread 1 is given `q`. -/
def allocatedTwice (p q : UInt64) : List HeapAct :=
  [.call 1 (.malloc 8), .ret 1 (probedAt 100) p, .free 1 (probedAt 1000) p,
    .call 2 (.malloc 8), .ret 2 (probedAt 1500) p, .call 1 (.realloc 0 16), .free 2 (probedAt 2000) p,
    .ret 1 (probedAt 2100) q]

theorem heapEvents_twice : ∃ s, run (HeapState.step 1) .start (allocatedTwice 64 96) = some s ∧
    (s.Accounts ↔ Meets (HeapState.step 1) HeapState.Plain .start (allocatedTwice 64 96)) :=
  ⟨_, rfl, heapEvents_iff rfl⟩

/-- Thread 1 allocates a block and frees it, thread 2 is given the pointer
next, and thread 1 frees that block as well. -/
def blockPassedOn : List HeapAct :=
  [.call 1 (.malloc 8), .ret 1 (probedAt 100) 64, .free 1 (probedAt 1000) 64,
    .call 2 (.malloc 8), .ret 2 (probedAt 1500) 64, .free 1 (probedAt 2000) 64]

/-- The second free of the pointer is passed over, though it is allocated. -/
theorem not_accounts_handed : ¬ ∀ (pid : UInt32) (as : List HeapAct) (s : HeapState),
    run (HeapState.step pid) .start as = some s → s.Accounts := by
  intro h
  have hrun : ∃ s, run (HeapState.step 1) .start blockPassedOn = some s ∧
      s.returned.map (fun r => r.events.length) = [1, 1, 1, 0] := ⟨_, rfl, by decide⟩
  obtain ⟨s, hs, hlengths⟩ := hrun
  have hone : ∀ n ∈ s.returned.map (fun r => r.events.length), n = 1 := by
    intro n hn
    obtain ⟨r, hr, rfl⟩ := List.mem_map.mp hn
    rw [← List.length_map, h 1 blockPassedOn s hs r hr, List.length_singleton]
  rw [hlengths] at hone
  exact absurd (hone 0 (by simp)) (by decide)

end Montauk.Trace
