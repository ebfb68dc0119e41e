import Montauk.Emit.Sink
import Montauk.Machine.Numerals
import Montauk.Sort.Buffer

/-!
# The output sink, in memory

`montauk_sink` as it lies in memory: the small store inside of it, the heap
block it moves to once, and what `malloc` and `realloc` answer. Every load and
store has its bounds checked, those in the twenty bytes of the decimal formatter
too. A run of appends stays in bounds whatever the allocator answers
(`appends_exact`), and as long as it answers with blocks the bytes appended stand
in the sink one behind the other; a number adds its canonical text. An append is
the `Sink.append` of the reports (`append_spec`).
-/

namespace Montauk.SinkMemory

open Montauk.Sort Numerals
open Emit (Sink)
open Json (utf8)

/-! ## Memory -/

/-- No object has `2 ^ 63` bytes or more (`PTRDIFF_MAX`). -/
def objectLimit : Nat := 2 ^ 63

/-- What a run finds in memory: at each time the answer to an allocation of `n`
bytes, a block with some bytes in it or nothing, and what an array on the stack
begins with. -/
structure Memory where
  alloc : Nat → Nat → Option (List UInt8)
  stack : Nat → Vector UInt8 20
  length_alloc : ∀ {t n block}, alloc t n = some block → block.length = n
  alloc_lt : ∀ {t n block}, alloc t n = some block → n < objectLimit

structure Object where
  bytes : List UInt8
  length_lt : bytes.length < objectLimit

/-- `montauk_sink`; `data` points at `sbo` as long as there is no block. -/
structure RawSink where
  sbo : List UInt8
  heap : Option (List UInt8)
  len : Nat
  cap : Nat

def RawSink.data (s : RawSink) : List UInt8 := s.heap.getD s.sbo

/-- What `drain` would write. -/
def RawSink.contents (s : RawSink) : List UInt8 := s.data.take s.len

def RawSink.setData (s : RawSink) (d : List UInt8) : RawSink :=
  if s.heap.isNone then { s with sbo := d } else { s with heap := some d }

/-- `montauk_sink_init`. -/
def RawSink.init (sbo : Vector UInt8 512) : RawSink :=
  { sbo := sbo.toList, heap := none, len := 0, cap := 512 }

/-- The store behind a block of the size asked for: `malloc` and a copy of what
is there, or `realloc`. -/
def RawSink.moved (s : RawSink) (block : List UInt8) : Option (List UInt8) :=
  match s.heap with
  | none => do storeN block 0 (← loadN s.sbo 0 s.len)
  | some old => some (old.take block.length ++ block.drop old.length)

/-- A sink in a run; `failed` once an allocation has failed. -/
structure Run where
  sink : RawSink
  clock : Nat
  failed : Bool

def Run.start (sbo : Vector UInt8 512) : Run := { sink := .init sbo, clock := 0, failed := false }

/-! ## The functions, as they go through memory -/

section

variable (mem : Memory)

/-- `montauk_sink_reserve`, in the arithmetic of `size_t`. -/
def reserve (need : Nat) (w : Run) : Option Run :=
  let s := w.sink
  if (s.len + need) % 2 ^ 64 ≤ s.cap then some w
  else
    let ncap := (s.cap + s.cap / 2) % 2 ^ 64
    let ncap := if ncap < (s.len + need) % 2 ^ 64 then (s.len + need) % 2 ^ 64 else ncap
    match mem.alloc w.clock ncap with
    | none => some { w with clock := w.clock + 1, failed := true }
    | some block => do
        let nd ← s.moved block
        some { w with sink := { s with heap := some nd, cap := ncap }, clock := w.clock + 1 }

/-- `montauk_sink_append`. -/
def append (p : List UInt8) (w : Run) : Option Run := do
  let w ← reserve mem p.length w
  let s := w.sink
  if (s.len + p.length) % 2 ^ 64 ≤ s.cap then do
    let d ← storeN s.data s.len p
    some { w with sink := { s.setData d with len := (s.len + p.length) % 2 ^ 64 } }
  else some w

/-- `montauk_sink_appendc`. -/
def appendc (c : UInt8) (w : Run) : Option Run := append mem [c] w

/-- `*--p = D[idx + 1]` and `*--p = D[idx]`. -/
def storePair (tmp : List UInt8) (p idx : Nat) : Option (List UInt8) := do
  let tmp ← storeBelow tmp p (← load Sink.digitPairs (idx + 1))
  storeBelow tmp (p - 1) (← load Sink.digitPairs idx)

/-- The digits of `montauk_sink_append_u64`, from `p` downwards. -/
def digitLoop (v : UInt64) (tmp : List UInt8) (p : Nat) : Option (List UInt8 × Nat) :=
  if 100 ≤ v then do
    let tmp ← storePair tmp p ((v % 100).toNat * 2)
    digitLoop (v / 100) tmp (p - 2)
  else if 10 ≤ v then do
    let tmp ← storePair tmp p (v.toNat * 2)
    some (tmp, p - 2)
  else do
    let tmp ← storeBelow tmp p (UInt8.ofNat (48 + v.toNat))
    some (tmp, p - 1)
termination_by v.toNat
decreasing_by
  rename_i h
  have h100 : 100 ≤ v.toNat := UInt64.le_iff_toNat_le.mp h
  rw [UInt64.toNat_div]
  exact Nat.div_lt_self (by omega) (by decide)

/-- `montauk_sink_append_u64`. -/
def append_u64 (v : UInt64) (w : Run) : Option Run := do
  let (tmp, p) ← digitLoop v (mem.stack w.clock).toList 20
  append mem (← loadN tmp p (20 - p)) { w with clock := w.clock + 1 }

/-- `montauk_sink_append_i64`. -/
def append_i64 (v : Int64) (w : Run) : Option Run :=
  if v < 0 then do
    let w ← appendc mem 0x2d w
    append_u64 mem ((-(v + 1)).toUInt64 + 1) w
  else append_u64 mem v.toUInt64 w

end

/-! ## Runs -/

inductive Call where
  | append (p : Object)
  | appendc (c : UInt8)
  | append_u64 (v : UInt64)
  | append_i64 (v : Int64)

/-- The bytes a call is there to append. -/
def Call.Text : Call → List UInt8 → Prop
  | .append p, t => t = p.bytes
  | .appendc c, t => t = [c]
  | .append_u64 v, t => Canonical v.toNat t
  | .append_i64 v, t => Canonical v.toInt t

def Call.exec (mem : Memory) (w : Run) : Call → Option Run
  | .append p => SinkMemory.append mem p.bytes w
  | .appendc c => SinkMemory.appendc mem c w
  | .append_u64 v => SinkMemory.append_u64 mem v w
  | .append_i64 v => SinkMemory.append_i64 mem v w

def appends (mem : Memory) (calls : List Call) (w : Run) : Option Run := calls.foldlM (Call.exec mem) w

/-! ## Digits -/

theorem utf8_toDigits (n : Nat) : utf8 (Nat.toDigits 10 n) = ofNat n := by
  have hascii : ∀ cs : List Char, (∀ c ∈ cs, c.isDigit = true) →
      utf8 cs = cs.map fun c => UInt8.ofNat c.toNat := by
    intro cs
    induction cs with
    | nil => exact fun _ => rfl
    | cons c cs ih =>
        intro h
        obtain ⟨hc, hcs⟩ := List.forall_mem_cons.mp h
        have hlt : c.toNat < 0x80 := Nat.lt_of_le_of_lt (toNat_digit hc).2.2 (by decide)
        rw [Sink.utf8_ascii hlt, ih hcs, List.map_cons]
  exact hascii _ fun c hc => Nat.isDigit_of_mem_toDigits (by decide) (by decide) hc

/-- The two digits of a number below a hundred. -/
def pair (k : Nat) : List UInt8 := [Sink.digitPairs.getD (k * 2) 0, Sink.digitPairs.getD (k * 2 + 1) 0]

theorem load_digitPairs {i : Nat} (h : i < 200) : load Sink.digitPairs i = some (Sink.digitPairs.getD i 0) := by
  have hlen : Sink.digitPairs.length = 200 := by decide +kernel
  rw [load, List.getD_eq_getElem?_getD, List.getElem?_eq_getElem (by omega)]
  rfl

theorem storeBelow_concat (xs ys : List UInt8) (x c : UInt8) :
    storeBelow (xs ++ x :: ys) (xs.length + 1) c = some (xs ++ c :: ys) := by
  rw [storeBelow, if_neg (by omega)]
  exact store_append rfl

theorem storePair_concat {k : Nat} (hk : k < 100) (xs ys : List UInt8) (x y : UInt8) :
    storePair (xs ++ x :: y :: ys) (xs.length + 2) (k * 2) = some (xs ++ (pair k ++ ys)) := by
  have hlow : storeBelow (xs ++ x :: y :: ys) (xs.length + 2) (Sink.digitPairs.getD (k * 2 + 1) 0)
      = some (xs ++ x :: Sink.digitPairs.getD (k * 2 + 1) 0 :: ys) := by
    have hlast := storeBelow_concat (xs ++ [x]) ys y (Sink.digitPairs.getD (k * 2 + 1) 0)
    rwa [List.append_assoc, List.append_assoc, List.length_append] at hlast
  rw [storePair, load_digitPairs (by omega), load_digitPairs (by omega)]
  simp only [Option.bind_eq_bind, Option.bind_some]
  rw [hlow, Option.bind_some]
  exact storeBelow_concat xs _ x _

theorem exists_concat_two {xs : List UInt8} (h : 2 ≤ xs.length) : ∃ ys x y, xs = ys ++ [x, y] := by
  obtain ⟨zs, y, rfl⟩ := exists_concat (Nat.lt_of_lt_of_le Nat.zero_lt_two h)
  rw [List.length_append, List.length_singleton] at h
  obtain ⟨ys, x, rfl⟩ := exists_concat (Nat.le_of_succ_le_succ h)
  exact ⟨ys, x, y, by rw [List.append_assoc]; rfl⟩

theorem ofNat_pair {n : Nat} (h10 : 10 ≤ n) (h100 : n < 100) : ofNat n = pair n := by
  rw [← utf8_toDigits, Sink.utf8_toDigits_pair h10 h100]
  rfl

theorem ofNat_step {n : Nat} (h : 100 ≤ n) : ofNat n = ofNat (n / 100) ++ pair (n % 100) := by
  rw [← utf8_toDigits, Sink.utf8_toDigits_step h, utf8_toDigits]
  rfl

/-- A number with more digits than one has no room in a row of one. -/
theorem lt_length_of_pow_le {n k m : Nat} (hroom : n < 10 ^ k) (h : 10 ^ m ≤ n) : m < k :=
  (Nat.pow_lt_pow_iff_right (by decide)).mp (Nat.lt_of_le_of_lt h hroom)

/-- The digits are stored in front of the pointer, which has room for them. The
induction is on the number, two digits a step. -/
theorem digitLoop_eq (v : UInt64) (front back : List UInt8) (hpos : 0 < front.length)
    (hroom : v.toNat < 10 ^ front.length) :
    ∃ front', digitLoop v (front ++ back) front.length = some (front' ++ (ofNat v.toNat ++ back), front'.length)
      ∧ front'.length + (ofNat v.toNat).length = front.length := by
  induction hn : v.toNat using Nat.strongRecOn generalizing v front back with
  | ind n ih =>
      rw [digitLoop]
      by_cases h100 : (100 : UInt64) ≤ v
      · have hge : 100 ≤ n := hn ▸ UInt64.le_iff_toNat_le.mp h100
        have hdiv : (v / 100).toNat = n / 100 := hn ▸ UInt64.toNat_div v 100
        have hmod : (v % 100).toNat = n % 100 := hn ▸ UInt64.toNat_mod v 100
        have hlen : 2 < front.length := lt_length_of_pow_le hroom (hn ▸ hge)
        obtain ⟨xs, x, y, rfl⟩ := exists_concat_two (Nat.le_of_lt hlen)
        have hxs : (xs ++ [x, y]).length = xs.length + 2 := List.length_append
        have hstored := storePair_concat (Nat.mod_lt n (by decide : 100 > 0)) xs back x y
        obtain ⟨front', hrest, hused⟩ := ih (n / 100) (Nat.div_lt_self (by omega) (by decide)) (v / 100) xs
          (pair (n % 100) ++ back) (by omega) (by
            rw [hxs, Nat.pow_succ, Nat.pow_succ, hn] at hroom
            rw [hdiv]
            omega) hdiv
        refine ⟨front', ?_, ?_⟩
        · rw [if_pos h100, hmod, hxs, List.append_assoc]
          show (storePair (xs ++ x :: y :: back) (xs.length + 2) (n % 100 * 2)).bind _ = _
          rw [hstored, Option.bind_some, Nat.add_sub_cancel, hrest, ofNat_step hge, List.append_assoc]
        · rw [ofNat_step hge, List.length_append, ← Nat.add_assoc, hused, hxs]
          rfl
      · have hlt : n < 100 := by
          have := UInt64.le_iff_toNat_le.not.mp h100
          exact Nat.not_le.mp (hn ▸ this)
        rw [if_neg h100]
        by_cases h10 : (10 : UInt64) ≤ v
        · have hge : 10 ≤ n := hn ▸ UInt64.le_iff_toNat_le.mp h10
          obtain ⟨xs, x, y, rfl⟩ := exists_concat_two (lt_length_of_pow_le hroom (hn ▸ hge))
          have hxs : (xs ++ [x, y]).length = xs.length + 2 := List.length_append
          refine ⟨xs, ?_, ?_⟩
          · rw [if_pos h10, hn, hxs, List.append_assoc]
            show (storePair (xs ++ x :: y :: back) (xs.length + 2) (n * 2)).bind _ = _
            rw [storePair_concat hlt, Option.bind_some, Nat.add_sub_cancel, ofNat_pair hge hlt]
          · rw [ofNat_pair hge hlt, hxs]
            rfl
        · have hlt' : n < 10 := by
            have := UInt64.le_iff_toNat_le.not.mp h10
            exact Nat.not_le.mp (hn ▸ this)
          obtain ⟨xs, x, rfl⟩ := exists_concat hpos
          have hxs : (xs ++ [x]).length = xs.length + 1 := List.length_append
          refine ⟨xs, ?_, ?_⟩
          · rw [if_neg h10, hn, hxs, List.append_assoc]
            show (storeBelow (xs ++ x :: back) (xs.length + 1) (UInt8.ofNat (48 + n))).bind _ = _
            rw [storeBelow_concat, Option.bind_some, Nat.add_sub_cancel, ofNat_digit hlt']
            rfl
          · rw [ofNat_digit hlt', hxs]
            rfl

/-! ## The store -/

/-- What holds between two calls. -/
structure RawSink.Wf (s : RawSink) : Prop where
  cap_eq : s.cap = s.data.length
  len_le : s.len ≤ s.cap
  cap_lt : s.cap < objectLimit

theorem RawSink.wf_init (sbo : Vector UInt8 512) : (RawSink.init sbo).Wf where
  cap_eq := sbo.length_toList.symm
  len_le := Nat.zero_le _
  cap_lt := (by decide : 512 < objectLimit)

/-- The sink of the reports: what was appended, and the room. -/
def RawSink.view (s : RawSink) : Sink := { data := s.contents, cap := s.cap }

section

variable {s : RawSink} {w : Run} {mem : Memory}

theorem RawSink.Wf.length_contents (h : s.Wf) : s.contents.length = s.len := by
  rw [RawSink.contents, List.length_take, ← h.cap_eq, Nat.min_eq_left h.len_le]

theorem RawSink.Wf.moved (h : s.Wf) {block : List UInt8} (hroom : s.cap ≤ block.length) :
    ∃ nd, s.moved block = some nd ∧ nd.length = block.length ∧ nd.take s.len = s.contents := by
  obtain ⟨hcap, hlen, -⟩ := h
  cases hheap : s.heap with
  | none =>
      have hdata : s.data = s.sbo := by rw [RawSink.data, hheap]; rfl
      rw [hdata] at hcap
      have hfront : (s.sbo.take s.len).length = s.len := by rw [List.length_take]; omega
      have hload : loadN s.sbo 0 s.len = some (s.sbo.take s.len) := by
        rw [loadN, if_pos (by omega), List.drop_zero]
      refine ⟨s.sbo.take s.len ++ block.drop s.len, ?_, ?_, ?_⟩
      · have hstore : storeN block 0 (s.sbo.take s.len) = some (s.sbo.take s.len ++ block.drop (s.sbo.take s.len).length) :=
          @storeN_append_drop _ [] block _ _ rfl (by omega)
        rw [hfront] at hstore
        simp only [RawSink.moved, hheap, hload, Option.bind_eq_bind, Option.bind_some]
        exact hstore
      · rw [List.length_append, hfront, List.length_drop]
        omega
      · rw [RawSink.contents, hdata, List.take_left' hfront]
  | some old =>
      have hdata : s.data = old := by rw [RawSink.data, hheap]; rfl
      rw [hdata] at hcap
      have hall : old.take block.length = old := List.take_of_length_le (by omega)
      refine ⟨old ++ block.drop old.length, ?_, ?_, ?_⟩
      · simp only [RawSink.moved, hheap, hall]
      · rw [List.length_append, List.length_drop]
        omega
      · rw [RawSink.contents, hdata, List.take_append_of_le_length (by omega)]

theorem RawSink.data_setData (s : RawSink) (d : List UInt8) (n : Nat) :
    RawSink.data { s.setData d with len := n } = d := by
  cases hheap : s.heap <;> simp [RawSink.data, RawSink.setData, hheap]

theorem RawSink.cap_setData (s : RawSink) (d : List UInt8) : (s.setData d).cap = s.cap := by
  rw [RawSink.setData]
  split_ifs <;> rfl

theorem RawSink.Wf.stored (h : s.Wf) {p : List UInt8} (hfit : s.len + p.length ≤ s.cap) :
    ∃ d, storeN s.data s.len p = some d ∧ RawSink.Wf { s.setData d with len := s.len + p.length }
      ∧ RawSink.view { s.setData d with len := s.len + p.length } = { data := s.contents ++ p, cap := s.cap } := by
  have hcap := s.cap_setData (s.contents ++ p ++ s.data.drop (s.len + p.length))
  have hdata := s.data_setData (s.contents ++ p ++ s.data.drop (s.len + p.length)) (s.len + p.length)
  refine ⟨s.contents ++ p ++ s.data.drop (s.len + p.length), ?_, ⟨?_, ?_, ?_⟩, ?_⟩
  · rw [storeN, if_pos (h.cap_eq ▸ hfit)]
    rfl
  · have hcapacity := h.cap_eq
    rw [hdata, List.length_append, List.length_append, h.length_contents, List.length_drop]
    dsimp only
    omega
  · exact hcap.symm ▸ hfit
  · exact hcap.symm ▸ h.cap_lt
  · have hfront : (s.contents ++ p).length = s.len + p.length := by rw [List.length_append, h.length_contents]
    rw [RawSink.view, RawSink.contents, hdata, List.take_left' hfront]
    exact congrArg (Sink.mk _) hcap

/-- Which allocations are answered with a block. -/
def Memory.answers (mem : Memory) (t n : Nat) : Bool := (mem.alloc t n).isSome

variable (mem)

theorem reserve_spec (hw : w.sink.Wf) {need : Nat} (hneed : need < objectLimit) :
    ∃ w', reserve mem need w = some w' ∧ w'.sink.Wf
      ∧ w'.sink.view = w.sink.view.reserve (mem.answers w.clock) need
      ∧ (w'.failed = false → w.failed = false ∧ w.sink.len + need ≤ w'.sink.cap) := by
  have hlen : w.sink.len ≤ w.sink.cap := hw.len_le
  have hcap : w.sink.cap < 2 ^ 63 := hw.cap_lt
  have hneed' : need < 2 ^ 63 := hneed
  have hsum : (w.sink.len + need) % 2 ^ 64 = w.sink.len + need := Nat.mod_eq_of_lt (by omega)
  have hhalf : (w.sink.cap + w.sink.cap / 2) % 2 ^ 64 = w.sink.cap + w.sink.cap / 2 := Nat.mod_eq_of_lt (by omega)
  have hview : w.sink.view.data.length = w.sink.len := hw.length_contents
  have hroom : w.sink.view.cap = w.sink.cap := rfl
  simp only [reserve, Sink.reserve, hsum, hhalf, hview, hroom]
  by_cases hfit : w.sink.len + need ≤ w.sink.cap
  · simp only [if_pos hfit]
    exact ⟨w, rfl, hw, rfl, fun hf => ⟨hf, hfit⟩⟩
  · simp only [if_neg hfit]
    generalize hncap : (if w.sink.cap + w.sink.cap / 2 < w.sink.len + need then w.sink.len + need
      else w.sink.cap + w.sink.cap / 2) = ncap
    have hbig : w.sink.len + need ≤ ncap := by
      rw [← hncap]
      split_ifs <;> omega
    cases hblock : mem.alloc w.clock ncap with
    | none =>
        have hno : mem.answers w.clock ncap = false := by rw [Memory.answers, hblock]; rfl
        refine ⟨{ w with clock := w.clock + 1, failed := true }, rfl, hw, ?_, fun hf => Bool.noConfusion hf⟩
        rw [hno]
        rfl
    | some block =>
        have hyes : mem.answers w.clock ncap = true := by rw [Memory.answers, hblock]; rfl
        have hsize : block.length = ncap := mem.length_alloc hblock
        have hgrown : w.sink.cap ≤ block.length := by omega
        obtain ⟨nd, hmoved, hnd, hkept⟩ := hw.moved hgrown
        refine ⟨{ w with sink := { w.sink with heap := some nd, cap := ncap }, clock := w.clock + 1 }, ?_, ?_, ?_, ?_⟩
        · simp only [hmoved, Option.bind_eq_bind, Option.bind_some]
        · exact ⟨(hnd.trans hsize).symm, (by omega : w.sink.len ≤ ncap), mem.alloc_lt hblock⟩
        · rw [if_pos hyes]
          exact congrArg (fun d => ({ data := d, cap := ncap } : Sink)) hkept
        · exact fun hf => ⟨hf, hbig⟩

theorem reserve_data (ok : Nat → Bool) (s : Sink) (need : Nat) : (s.reserve ok need).data = s.data := by
  unfold Sink.reserve
  split_ifs
  · rfl
  · dsimp only
    split_ifs <;> rfl

/-- An append stays inside the store and is the one of the reports' sink. -/
theorem append_spec (hw : w.sink.Wf) {p : List UInt8} (hp : p.length < objectLimit) :
    ∃ w', append mem p w = some w' ∧ w'.sink.Wf
      ∧ w'.sink.view = w.sink.view.append (mem.answers w.clock) p
      ∧ (w'.failed = false → w.failed = false ∧ w'.sink.contents = w.sink.contents ++ p) := by
  obtain ⟨v, hv, hwf, hview, hroom⟩ := reserve_spec mem hw hp
  have hkept : v.sink.contents = w.sink.contents := (congrArg Sink.data hview).trans (reserve_data _ _ _)
  have hlen : v.sink.len = w.sink.len := by rw [← hwf.length_contents, hkept, hw.length_contents]
  have hle : v.sink.len ≤ v.sink.cap := hwf.len_le
  have hcap : v.sink.cap < 2 ^ 63 := hwf.cap_lt
  have hp' : p.length < 2 ^ 63 := hp
  have hsum : (v.sink.len + p.length) % 2 ^ 64 = v.sink.len + p.length := Nat.mod_eq_of_lt (by omega)
  have hdata : v.sink.view.data.length = v.sink.len := hwf.length_contents
  have hcapv : v.sink.view.cap = v.sink.cap := rfl
  simp only [append, hv, Option.bind_eq_bind, Option.bind_some, hsum, Sink.append, ← hview, hdata, hcapv]
  by_cases hfit : v.sink.len + p.length ≤ v.sink.cap
  · obtain ⟨d, hstore, hwf', hview'⟩ := hwf.stored hfit
    simp only [if_pos hfit, hstore, Option.bind_some]
    refine ⟨_, rfl, hwf', hview', fun hf => ⟨(hroom hf).1, ?_⟩⟩
    exact (congrArg Sink.data hview').trans (congrArg (· ++ p) hkept)
  · simp only [if_neg hfit]
    exact ⟨v, rfl, hwf, rfl, fun hf => absurd (hlen ▸ (hroom hf).2) hfit⟩

/-! ## Calls -/

/-- What a call leaves: unless an allocation has failed, the bytes `t` behind
those of `w`. -/
structure Appended (w w' : Run) (t : List UInt8) : Prop where
  wf : w'.sink.Wf
  exact : w'.failed = false → w.failed = false ∧ w'.sink.contents = w.sink.contents ++ t

theorem Appended.trans {w w' w'' : Run} {t u : List UInt8} (h : Appended w w' t) (h' : Appended w' w'' u) :
    Appended w w'' (t ++ u) := by
  refine ⟨h'.wf, fun hf => ?_⟩
  obtain ⟨hf', hu⟩ := h'.exact hf
  obtain ⟨hf'', ht⟩ := h.exact hf'
  exact ⟨hf'', by rw [hu, ht, List.append_assoc]⟩

theorem append_appended (hw : w.sink.Wf) {p : List UInt8} (hp : p.length < objectLimit) :
    ∃ w', append mem p w = some w' ∧ Appended w w' p := by
  obtain ⟨w', happ, hwf, -, hexact⟩ := append_spec mem hw hp
  exact ⟨w', happ, hwf, hexact⟩

theorem append_u64_appended (hw : w.sink.Wf) (v : UInt64) :
    ∃ w', append_u64 mem v w = some w' ∧ Appended w w' (ofNat v.toNat) := by
  have hlen : (mem.stack w.clock).toList.length = 20 := Vector.length_toList
  have hroom : v.toNat < 10 ^ (mem.stack w.clock).toList.length := by
    rw [hlen]
    exact Nat.lt_of_lt_of_le v.toNat_lt (by decide)
  obtain ⟨front, hloop, hused⟩ := digitLoop_eq v (mem.stack w.clock).toList [] (by omega) hroom
  rw [List.append_nil, List.append_nil, hlen] at hloop
  have hload : loadN (front ++ ofNat v.toNat) front.length (20 - front.length) = some (ofNat v.toNat) :=
    loadN_suffix rfl (by omega)
  have hshort : (ofNat v.toNat).length < objectLimit := by
    have : (20 : Nat) < objectLimit := by decide
    omega
  obtain ⟨w', happ, hwf, hexact⟩ :=
    @append_appended { w with clock := w.clock + 1 } mem hw _ hshort
  refine ⟨w', ?_, hwf, hexact⟩
  simp only [append_u64, hloop, hload, Option.bind_eq_bind, Option.bind_some]
  exact happ

theorem append_i64_appended (hw : w.sink.Wf) (v : Int64) :
    ∃ w', append_i64 mem v w = some w' ∧ Appended w w' (ofInt v.toInt) := by
  rw [append_i64, ofInt]
  by_cases hneg : v < 0
  · have hlt : v.toInt < 0 := by simpa using Int64.lt_iff_toInt_lt.mp hneg
    obtain ⟨w', hsign, hminus⟩ := append_appended mem hw (by decide : [minus].length < objectLimit)
    obtain ⟨w'', hdigits, hnumber⟩ := append_u64_appended mem hminus.wf ((-(v + 1)).toUInt64 + 1)
    rw [Sink.natAbs_of_neg hneg] at hnumber
    refine ⟨w'', ?_, ?_⟩
    · rw [if_pos hneg]
      show (append mem [minus] w).bind _ = _
      rw [hsign]
      exact hdigits
    · rw [if_pos hlt]
      exact hminus.trans hnumber
  · have habs : v.toUInt64.toNat = v.toInt.natAbs := by rw [Sink.toNat_of_nonneg hneg, Int.natAbs_natCast]
    have hge : ¬ v.toInt < 0 := by
      rw [Sink.toNat_of_nonneg hneg]
      omega
    obtain ⟨w', hdigits, hnumber⟩ := append_u64_appended mem hw v.toUInt64
    rw [habs] at hnumber
    refine ⟨w', ?_, ?_⟩
    · rw [if_neg hneg]
      exact hdigits
    · rw [if_neg hge]
      exact hnumber

theorem exec_appended (hw : w.sink.Wf) (c : Call) :
    ∃ w' t, c.exec mem w = some w' ∧ c.Text t ∧ Appended w w' t := by
  cases c with
  | append p =>
      obtain ⟨w', hexec, h⟩ := append_appended mem hw p.length_lt
      exact ⟨w', p.bytes, hexec, rfl, h⟩
  | appendc c =>
      have hone : [c].length < objectLimit := (by decide : 1 < objectLimit)
      obtain ⟨w', hexec, h⟩ := append_appended mem hw hone
      exact ⟨w', [c], hexec, rfl, h⟩
  | append_u64 v =>
      obtain ⟨w', hexec, h⟩ := append_u64_appended mem hw v
      exact ⟨w', ofNat v.toNat, hexec, canonical_iff.mpr rfl, h⟩
  | append_i64 v =>
      obtain ⟨w', hexec, h⟩ := append_i64_appended mem hw v
      exact ⟨w', ofInt v.toInt, hexec, canonical_iff.mpr rfl, h⟩

theorem appends_appended (hw : w.sink.Wf) (calls : List Call) :
    ∃ w' texts, appends mem calls w = some w' ∧ List.Forall₂ Call.Text calls texts ∧ Appended w w' texts.flatten := by
  induction calls generalizing w with
  | nil => exact ⟨w, [], rfl, List.Forall₂.nil, hw, fun hf => ⟨hf, (List.append_nil _).symm⟩⟩
  | cons c calls ih =>
      obtain ⟨v, t, hexec, htext, h⟩ := exec_appended mem hw c
      obtain ⟨w', texts, hrun, htexts, h'⟩ := ih h.wf
      refine ⟨w', t :: texts, ?_, List.Forall₂.cons htext htexts, h.trans h'⟩
      rw [appends, List.foldlM_cons, hexec]
      exact hrun

end

theorem text_rightUnique : Relator.RightUnique Call.Text := by
  intro c t u ht hu
  cases c with
  | append p => exact ht.trans hu.symm
  | appendc c => exact ht.trans hu.symm
  | append_u64 v => exact (canonical_iff.mp ht).trans (canonical_iff.mp hu).symm
  | append_i64 v => exact (canonical_iff.mp ht).trans (canonical_iff.mp hu).symm

/-- No call leaves the store or the twenty bytes, for any answers of the
allocator. If it never failed, the sink holds the texts of the calls, one behind
the other; no other texts are those of the calls. -/
theorem appends_exact (mem : Memory) (sbo : Vector UInt8 512) (calls : List Call) :
    ∃ w texts, appends mem calls (.start sbo) = some w
      ∧ (∀ ts, List.Forall₂ Call.Text calls ts ↔ ts = texts)
      ∧ (w.failed = false → w.sink.contents = texts.flatten) := by
  obtain ⟨w, texts, hrun, htexts, happ⟩ := @appends_appended (.start sbo) mem (RawSink.wf_init sbo) calls
  refine ⟨w, texts, hrun, fun ts => ⟨fun hts => ?_, fun hts => hts ▸ htexts⟩, fun hf => ?_⟩
  · exact text_rightUnique.forall₂ hts htexts
  · exact (happ.exact hf).2

def Memory.zeros : Memory where
  alloc _ n := if n < objectLimit then some (List.replicate n 0) else none
  stack _ := Vector.replicate 20 0
  length_alloc := by
    intro t n block h
    split_ifs at h
    cases h
    exact List.length_replicate
  alloc_lt := by
    intro t n block h
    split_ifs at h with hn
    exact hn

/-- Six hundred bytes do not fit into the small store. -/
example : ((appends .zeros [.append ⟨List.replicate 600 0x41, by rw [List.length_replicate]; decide⟩]
    (.start (Vector.replicate 512 0))).map
    fun w => (w.failed, w.sink.heap.map List.length)) = some (false, some 768) := by
  decide +kernel

end Montauk.SinkMemory
