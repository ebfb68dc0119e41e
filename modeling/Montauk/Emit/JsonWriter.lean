import Montauk.Emit.Sink

/-!
# The JSON writer

`montauk_json`: a state machine over the sink that places the commas and
escapes the strings. It remembers for each open container whether a member
has been written, in an array of `MONTAUK_JSON_MAX_DEPTH` flags; a container
deeper than that gets no comma bookkeeping, and so no commas.

The tree that is written is walked in order (`Tree.calls`), and what a walk
leaves in the sink is the text of the tree's value with the separators that
the depth allows (`run_calls`). The invariant is the state of the flags below
the current depth (`Wrote`): a value leaves them alone, a member sets its
container's flag.
-/

namespace Montauk.Emit

open Json

def jsonMaxDepth : Nat := 32

/-- `montauk_json`; of `hasMember` only the first `jsonMaxDepth` flags are
ever touched, and none is set up by `montauk_json_init`. -/
structure JsonWriter where
  sink : Sink
  depth : Nat
  afterKey : Bool
  hasMember : Nat → Bool

/-- `montauk_json_init` over what was in memory. -/
def JsonWriter.init (s : Sink) (hasMember : Nat → Bool) : JsonWriter :=
  { sink := s, depth := 0, afterKey := false, hasMember }

namespace JsonWriter

variable (mem : Nat → Bool)

/-- `if (j->has_member[lvl]) appendc(','); j->has_member[lvl] = 1`. -/
def member (w : JsonWriter) (lvl : Nat) : JsonWriter :=
  { w with
    sink := if w.hasMember lvl then w.sink.appendc mem ',' else w.sink
    hasMember := fun l => if l = lvl then true else w.hasMember l }

/-- `mj_pre_`. -/
def pre (w : JsonWriter) : JsonWriter :=
  if w.afterKey then { w with afterKey := false }
  else if w.depth = 0 then w
  else if jsonMaxDepth ≤ w.depth - 1 then w
  else w.member mem (w.depth - 1)

def escapeByte (c : UInt8) : List UInt8 :=
  if c = 0x22 then [0x5c, 0x22]
  else if c = 0x5c then [0x5c, 0x5c]
  else if c = 0x0a then [0x5c, 0x6e]
  else if c = 0x09 then [0x5c, 0x74]
  else if c = 0x0d then [0x5c, 0x72]
  else if c = 0x08 then [0x5c, 0x62]
  else if c = 0x0c then [0x5c, 0x66]
  else if c < 0x20 then
    let hex := fun n : UInt8 => UInt8.ofNat (Nat.digitChar n.toNat).toNat
    [0x5c, 0x75, 0x30, 0x30, hex ((c >>> 4) &&& 0xf), hex (c &&& 0xf)]
  else [c]

/-- The loop of `mj_rawstr_`, up to the terminating NUL. -/
def rawstrLoop : List UInt8 → Sink → Sink
  | [], s => s
  | c :: p, s => if c = 0 then s else rawstrLoop p (s.append mem (escapeByte c))

/-- `mj_rawstr_`. -/
def rawstr (w : JsonWriter) (p : List UInt8) : JsonWriter :=
  { w with sink := (rawstrLoop mem p (w.sink.appendc mem '"')).appendc mem '"' }

def emit (w : JsonWriter) (c : Char) : JsonWriter := { w with sink := w.sink.appendc mem c }

def literal (w : JsonWriter) (s : List Char) : JsonWriter :=
  { w with sink := w.sink.append mem (s.map fun c => UInt8.ofNat c.toNat) }

/-- `montauk_json_obj_begin` and `montauk_json_arr_begin`. -/
def begin (w : JsonWriter) (c : Char) : JsonWriter :=
  let w := (w.pre mem).emit mem c
  { w with
    hasMember := if w.depth < jsonMaxDepth then
      fun l => if l = w.depth then false else w.hasMember l
      else w.hasMember
    depth := w.depth + 1 }

/-- `montauk_json_obj_end` and `montauk_json_arr_end`. -/
def finish (w : JsonWriter) (c : Char) : JsonWriter :=
  let w := if 0 < w.depth then { w with depth := w.depth - 1 } else w
  w.emit mem c

/-- `montauk_json_key`. -/
def key (w : JsonWriter) (k : List UInt8) : JsonWriter :=
  let w := if 1 ≤ w.depth ∧ w.depth - 1 < jsonMaxDepth then w.member mem (w.depth - 1) else w
  { (w.rawstr mem k).emit mem ':' with afterKey := true }

end JsonWriter

/-! ## Calls -/

inductive Call where
  | objBegin
  | objEnd
  | arrBegin
  | arrEnd
  | key (k : List UInt8)
  | str (s : List UInt8)
  | u64 (v : UInt64)
  | i64 (v : Int64)
  | bool (b : Bool)
  | null

def JsonWriter.step (mem : Nat → Bool) (w : JsonWriter) : Call → JsonWriter
  | .objBegin => w.begin mem '\x7b'
  | .objEnd => w.finish mem '\x7d'
  | .arrBegin => w.begin mem '['
  | .arrEnd => w.finish mem ']'
  | .key k => w.key mem k
  | .str s => (w.pre mem).rawstr mem s
  | .u64 v => { w.pre mem with sink := (w.pre mem).sink.append_u64 mem v }
  | .i64 v => { w.pre mem with sink := (w.pre mem).sink.append_i64 mem v }
  | .bool b =>
      (w.pre mem).literal mem (if b then ['t', 'r', 'u', 'e'] else ['f', 'a', 'l', 's', 'e'])
  | .null => (w.pre mem).literal mem ['n', 'u', 'l', 'l']

def JsonWriter.run (mem : Nat → Bool) (w : JsonWriter) (cs : List Call) : JsonWriter :=
  cs.foldl (fun w c => w.step mem c) w

theorem JsonWriter.run_append (mem : Nat → Bool) (w : JsonWriter) (cs ds : List Call) :
    w.run mem (cs ++ ds) = (w.run mem cs).run mem ds := by
  simp [JsonWriter.run, List.foldl_append]

/-- A string the C interface can take: it holds no NUL. -/
structure CStr where
  chars : List Char
  noNul : '\x00' ∉ chars

/-- The bytes a `const char*` to it points at. -/
def CStr.bytes (s : CStr) : List UInt8 := utf8 s.chars ++ [0]

/-- What can be written: the kind of each integer chooses the call. -/
inductive Tree where
  | null
  | bool (b : Bool)
  | u64 (v : UInt64)
  | i64 (v : Int64)
  | str (s : CStr)
  | arr (ts : List Tree)
  | obj (ms : List (CStr × Tree))

mutual

def Tree.value : Tree → Value
  | .null => .null
  | .bool b => .bool b
  | .u64 v => .int v.toNat
  | .i64 v => .int v.toInt
  | .str s => .str s.chars
  | .arr ts => .arr (Tree.values ts)
  | .obj ms => .obj (Tree.memberValues ms)

def Tree.values : List Tree → List Value
  | [] => []
  | t :: ts => t.value :: Tree.values ts

def Tree.memberValues : List (CStr × Tree) → List (List Char × Value)
  | [] => []
  | (k, t) :: ms => (k.chars, t.value) :: Tree.memberValues ms

end

mutual

/-- The calls that write a tree, properly nested. -/
def Tree.calls : Tree → List Call
  | .null => [.null]
  | .bool b => [.bool b]
  | .u64 v => [.u64 v]
  | .i64 v => [.i64 v]
  | .str s => [.str s.bytes]
  | .arr ts => .arrBegin :: (Tree.elemCalls ts ++ [.arrEnd])
  | .obj ms => .objBegin :: (Tree.memberCalls ms ++ [.objEnd])

def Tree.elemCalls : List Tree → List Call
  | [] => []
  | t :: ts => t.calls ++ Tree.elemCalls ts

def Tree.memberCalls : List (CStr × Tree) → List Call
  | [] => []
  | (k, t) :: ms => .key k.bytes :: (t.calls ++ Tree.memberCalls ms)

end

/-! ## What a walk writes -/

/-- From `w` to `w'` the text `out` was written, at the same depth, and the
flags of the levels below `k` are as they were. -/
structure Wrote (k : Nat) (w w' : JsonWriter) (out : List Char) : Prop where
  data : w'.sink.data = w.sink.data ++ utf8 out
  depth : w'.depth = w.depth
  afterKey : w'.afterKey = false
  flags : ∀ l < k, w'.hasMember l = w.hasMember l

theorem Wrote.trans {k : Nat} {w w' w'' : JsonWriter} {a b : List Char} (h : Wrote k w w' a)
    (h' : Wrote k w' w'' b) : Wrote k w w'' (a ++ b) where
  data := by rw [h'.data, h.data, utf8_append, List.append_assoc]
  depth := h'.depth.trans h.depth
  afterKey := h'.afterKey
  flags l hl := (h'.flags l hl).trans (h.flags l hl)

theorem Wrote.mono {k j : Nat} {w w' : JsonWriter} {a : List Char} (h : Wrote k w w' a)
    (hj : j ≤ k) : Wrote j w w' a :=
  { h with flags := fun l hl => h.flags l (by omega) }

/-- The separator the writer puts between the members of a container at
depth `d`. -/
def trackedComma (d : Nat) : List Char := if d < jsonMaxDepth then [','] else []

section

variable {mem : Nat → Bool} (hmem : ∀ n, mem n = true)
include hmem

/-- The comma point of a container at depth `d`: its flag says whether a
separator is due, and it is set behind it. -/
theorem member_spec (w : JsonWriter) {d : Nat} (hd : d < jsonMaxDepth) :
    (w.member mem d).sink.data
        = w.sink.data ++ utf8 (if w.hasMember d then trackedComma d else []) ∧
      (w.member mem d).depth = w.depth ∧ (w.member mem d).afterKey = w.afterKey ∧
      (∀ l < d, (w.member mem d).hasMember l = w.hasMember l) ∧
      (w.member mem d).hasMember d = true := by
  refine ⟨?_, rfl, rfl, ?_, ?_⟩
  · unfold JsonWriter.member trackedComma
    cases h : w.hasMember d
    · simp
    · simp only [if_true, hd]
      exact Sink.appendc_data hmem _ (by decide)
  · intro l hl
    simp only [JsonWriter.member]
    rw [if_neg (by omega)]
  · simp [JsonWriter.member]

theorem pre_elem (w : JsonWriter) {d : Nat} (hd : w.depth = d + 1) (hk : w.afterKey = false) :
    Wrote d w (w.pre mem) (if w.hasMember d then trackedComma d else []) ∧
      (d < jsonMaxDepth → (w.pre mem).hasMember d = true) := by
  unfold JsonWriter.pre
  simp only [hk, hd, Nat.add_sub_cancel, Bool.false_eq_true, if_false, Nat.succ_ne_zero]
  by_cases h : jsonMaxDepth ≤ d
  · have hs : (if w.hasMember d then trackedComma d else []) = [] := by
      unfold trackedComma
      rw [if_neg (Nat.not_lt.mpr h)]
      simp
    rw [if_pos h, hs]
    exact ⟨⟨by simp, rfl, hk, fun _ _ => rfl⟩, fun hlt => by omega⟩
  · obtain ⟨hdata, hdep, hkey, hfl, hset⟩ := member_spec hmem w (Nat.lt_of_not_le h)
    rw [if_neg h]
    exact ⟨⟨hdata, hdep, hkey.trans hk, hfl⟩, fun _ => hset⟩

omit hmem in
theorem pre_key (w : JsonWriter) (hk : w.afterKey = true) :
    w.pre mem = { w with afterKey := false } := by
  unfold JsonWriter.pre
  rw [if_pos hk]

omit hmem in
theorem pre_afterKey (w : JsonWriter) : (w.pre mem).afterKey = false := by
  unfold JsonWriter.pre
  cases h : w.afterKey <;> simp only [Bool.false_eq_true, if_false, if_true]
  split_ifs <;> exact h

omit hmem in
theorem pre_depth (w : JsonWriter) : (w.pre mem).depth = w.depth := by
  unfold JsonWriter.pre JsonWriter.member
  split_ifs <;> rfl

omit hmem in
theorem wrote_sink (w : JsonWriter) {s : Sink} {out : List Char} (hk : w.afterKey = false)
    (h : s.data = w.sink.data ++ utf8 out) : Wrote w.depth w { w with sink := s } out :=
  ⟨h, rfl, hk, fun _ _ => rfl⟩

omit hmem in
theorem utf8_map_ascii {s : List Char} (h : ∀ c ∈ s, c.toNat < 0x80) :
    s.map (fun c => UInt8.ofNat c.toNat) = utf8 s := by
  induction s with
  | nil => rfl
  | cons c s ih =>
    rw [Sink.utf8_ascii (h c (by simp)), ← ih fun x hx => h x (by simp [hx])]
    rfl

theorem wrote_literal (w : JsonWriter) {s : List Char} (hk : w.afterKey = false)
    (h : ∀ c ∈ s, c.toNat < 0x80) : Wrote w.depth w (w.literal mem s) s :=
  wrote_sink w hk (by rw [Sink.append_data hmem, utf8_map_ascii h])

/-! ### Strings -/

omit hmem in
theorem utf8EncodeChar_high {c : Char} (h : 0x80 ≤ c.toNat) :
    ∀ b ∈ String.utf8EncodeChar c, 0x80 ≤ b.toNat := by
  have hv : ¬ c.val.toNat ≤ 0x7f := by
    have : c.toNat = c.val.toNat := rfl
    omega
  have hs : c.val.toNat < 0x110000 := by
    have := c.valid
    unfold UInt32.isValidChar Nat.isValidChar at this
    omega
  intro b hb
  unfold String.utf8EncodeChar at hb
  simp only [hv, if_false] at hb
  split_ifs at hb <;> simp at hb
  · rcases hb with rfl | rfl <;> simp <;> omega
  · rcases hb with rfl | rfl | rfl <;> simp <;> omega
  · rcases hb with rfl | rfl | rfl | rfl <;> simp <;> omega

omit hmem in
theorem escapeByte_ascii {c : Char} (h : c.toNat < 0x80) :
    JsonWriter.escapeByte (UInt8.ofNat c.toNat) = utf8 (escapeChar c) := by
  have : ∀ n < 0x80, JsonWriter.escapeByte (UInt8.ofNat n) = utf8 (escapeChar (Char.ofNat n)) := by
    decide +kernel
  have hc := this c.toNat h
  rwa [Char.ofNat_toNat] at hc

omit hmem in
theorem escapeByte_high {b : UInt8} (h : 0x80 ≤ b.toNat) : JsonWriter.escapeByte b = [b] := by
  have : ∀ n < 0x100, 0x80 ≤ n → JsonWriter.escapeByte (UInt8.ofNat n) = [UInt8.ofNat n] := by
    decide +kernel
  have hb := this b.toNat b.toNat_lt h
  rwa [UInt8.ofNat_toNat] at hb

omit hmem in
theorem escapeChar_high {c : Char} (h : 0x80 ≤ c.toNat) : escapeChar c = [c] := by
  have hne : ∀ x : Char, x.toNat < 0x80 → c ≠ x := by
    rintro x hx rfl
    omega
  unfold escapeChar
  simp only [hne '"' (by decide), hne '\\' (by decide), hne '\n' (by decide), hne '\t' (by decide),
    hne '\r' (by decide), hne '\x08' (by decide), hne '\x0c' (by decide), if_false]
  rw [if_neg (by omega)]

/-- A run of bytes without a NUL, escaped one at a time. -/
theorem rawstrLoop_append (p q : List UInt8) (h : ∀ b ∈ p, b ≠ 0) (s : Sink) :
    ∃ s', JsonWriter.rawstrLoop mem (p ++ q) s = JsonWriter.rawstrLoop mem q s' ∧
      s'.data = s.data ++ p.flatMap JsonWriter.escapeByte := by
  induction p generalizing s with
  | nil => exact ⟨s, rfl, by simp⟩
  | cons b p ih =>
    obtain ⟨s', hs, hd⟩ := ih (fun x hx => h x (by simp [hx]))
      (s.append mem (JsonWriter.escapeByte b))
    refine ⟨s', ?_, ?_⟩
    · simp only [List.cons_append, JsonWriter.rawstrLoop, h b (by simp), if_false]
      exact hs
    · rw [hd, Sink.append_data hmem]
      simp

omit hmem in
theorem escapeByte_utf8EncodeChar (c : Char) :
    (String.utf8EncodeChar c).flatMap JsonWriter.escapeByte = utf8 (escapeChar c) := by
  by_cases h : c.toNat < 0x80
  · have hu : String.utf8EncodeChar c = [UInt8.ofNat c.toNat] := by
      have := Sink.utf8_ascii h []
      rwa [utf8_cons, utf8_nil, List.append_nil] at this
    rw [hu, ← escapeByte_ascii h]
    simp
  · have hhigh := utf8EncodeChar_high (Nat.le_of_not_lt h)
    rw [escapeChar_high (Nat.le_of_not_lt h), utf8_cons, utf8_nil, List.append_nil]
    have : ∀ l : List UInt8, (∀ b ∈ l, 0x80 ≤ b.toNat) → l.flatMap JsonWriter.escapeByte = l := by
      intro l hl
      induction l with
      | nil => rfl
      | cons b l ih =>
        rw [List.flatMap_cons, escapeByte_high (hl b (by simp)),
          ih fun x hx => hl x (by simp [hx])]
        rfl
    exact this _ hhigh

omit hmem in
theorem utf8_ne_zero {cs : List Char} (h : '\x00' ∉ cs) : ∀ b ∈ utf8 cs, b ≠ 0 := by
  intro b hb
  obtain ⟨c, hc, hbc⟩ := List.mem_flatMap.mp hb
  by_cases hlt : c.toNat < 0x80
  · have hu := Sink.utf8_ascii hlt []
    rw [utf8_cons, utf8_nil, List.append_nil] at hu
    rw [hu, List.mem_singleton] at hbc
    subst hbc
    intro h0
    have h0' := congrArg UInt8.toNat h0
    have hn : c.toNat = 0 := by
      simp only [UInt8.toNat_ofNat', UInt8.toNat_zero] at h0'
      omega
    have hc0 : c = '\x00' := by
      rw [← Char.ofNat_toNat c, hn]
    exact h (hc0 ▸ hc)
  · have := utf8EncodeChar_high (Nat.le_of_not_lt hlt) b hbc
    rintro rfl
    simp at this

theorem wrote_rawstr (w : JsonWriter) (s : CStr) (hk : w.afterKey = false) :
    Wrote w.depth w (w.rawstr mem s.bytes) (quoted s.chars) := by
  refine wrote_sink w hk ?_
  obtain ⟨s', hs, hd⟩ := rawstrLoop_append hmem (utf8 s.chars) [0] (utf8_ne_zero s.noNul)
    (w.sink.appendc mem '"')
  have hesc : (utf8 s.chars).flatMap JsonWriter.escapeByte
      = utf8 (s.chars.flatMap escapeChar) := by
    unfold utf8
    rw [List.flatMap_assoc, List.flatMap_assoc]
    congr 1
    funext c
    exact escapeByte_utf8EncodeChar c
  have hz : JsonWriter.rawstrLoop mem [0] s' = s' := rfl
  rw [CStr.bytes, hs, hz, Sink.appendc_data hmem _ (by decide), hd, hesc,
    Sink.appendc_data hmem _ (by decide)]
  have hq : quoted s.chars = ['"'] ++ (s.chars.flatMap escapeChar ++ ['"']) := rfl
  rw [hq, utf8_append, utf8_append]
  simp

/-! ### Trees -/

theorem wrote_container (w : JsonWriter) {a b : Char} (ha : a.toNat < 0x80) (hb : b.toNat < 0x80)
    {cs : List Call} {out : List Char}
    (inner : ∀ w' : JsonWriter, w'.depth = w.depth + 1 → w'.afterKey = false →
      (if w'.hasMember w.depth then trackedComma w.depth else []) = [] →
      Wrote w.depth w' (w'.run mem cs) out) :
    Wrote w.depth (w.pre mem) (((w.begin mem a).run mem cs).finish mem b) (a :: (out ++ [b])) := by
  have hdep : (w.pre mem).depth = w.depth := pre_depth w
  have hlead : (if (w.begin mem a).hasMember w.depth then trackedComma w.depth else []) = [] := by
    unfold trackedComma
    by_cases h : w.depth < jsonMaxDepth
    · simp [JsonWriter.begin, JsonWriter.emit, hdep, h]
    · simp [h]
  have hopen : Wrote w.depth (w.pre mem) { w.begin mem a with depth := w.depth } [a] := by
    refine ⟨Sink.appendc_data hmem _ ha, hdep.symm, pre_afterKey w, fun l hl => ?_⟩
    simp only [JsonWriter.begin, JsonWriter.emit, hdep]
    split_ifs
    · exact if_neg (by omega)
    · rfl
  have hin := inner (w.begin mem a) (by simp [JsonWriter.begin, JsonWriter.emit, hdep])
    (pre_afterKey w) hlead
  have hd : ((w.begin mem a).run mem cs).depth = w.depth + 1 := by
    rw [hin.depth]
    simp [JsonWriter.begin, JsonWriter.emit, hdep]
  have hf : ((w.begin mem a).run mem cs).finish mem b = { (w.begin mem a).run mem cs with
      depth := w.depth
      sink := ((w.begin mem a).run mem cs).sink.appendc mem b } := by
    simp [JsonWriter.finish, JsonWriter.emit, hd]
  rw [hf]
  refine ⟨?_, hdep.symm, hin.afterKey, fun l hl => (hin.flags l hl).trans (hopen.flags l hl)⟩
  have hout : a :: (out ++ [b]) = [a] ++ (out ++ [b]) := rfl
  simp only [Sink.appendc_data hmem _ hb, hin.data]
  rw [hout, utf8_append, utf8_append, ← List.append_assoc, ← List.append_assoc]
  exact congrArg (· ++ utf8 out ++ utf8 [b]) hopen.data

theorem wrote_key (w : JsonWriter) {d : Nat} (hd : w.depth = d + 1) (hk : w.afterKey = false)
    (k : CStr) :
    Wrote d w ((w.key mem k.bytes).pre mem)
        ((if w.hasMember d then trackedComma d else []) ++ (quoted k.chars ++ [':'])) ∧
      (d < jsonMaxDepth → ((w.key mem k.bytes).pre mem).hasMember d = true) := by
  have hw : (w.key mem k.bytes).pre mem
      = { ((w.pre mem).rawstr mem k.bytes).emit mem ':' with afterKey := false } := by
    rw [pre_key _ rfl]
    unfold JsonWriter.key JsonWriter.pre
    simp only [hk, hd, Nat.add_sub_cancel, Bool.false_eq_true, if_false, Nat.succ_ne_zero]
    by_cases h : jsonMaxDepth ≤ d
    · rw [if_pos h, if_neg (by omega)]
    · rw [if_neg h, if_pos ⟨by omega, Nat.lt_of_not_le h⟩]
  obtain ⟨hpre, hset⟩ := pre_elem hmem w hd hk
  have hstr := wrote_rawstr hmem (w.pre mem) k (pre_afterKey w)
  rw [pre_depth, hd] at hstr
  have hcolon := wrote_sink (s := ((w.pre mem).rawstr mem k.bytes).sink.appendc mem ':')
    ((w.pre mem).rawstr mem k.bytes) hstr.afterKey (Sink.appendc_data hmem _ (by decide))
  have hall := hpre.trans ((hstr.mono (Nat.le_succ d)).trans
    (hcolon.mono (by rw [hstr.depth, pre_depth, hd]; exact Nat.le_succ d)))
  rw [hw]
  exact ⟨⟨hall.data, hall.depth, rfl, hall.flags⟩, hset⟩

omit hmem in
theorem lead_of_set {w : JsonWriter} {d : Nat} (h : d < jsonMaxDepth → w.hasMember d = true) :
    (if w.hasMember d then trackedComma d else []) = trackedComma d := by
  unfold trackedComma
  by_cases hd : d < jsonMaxDepth
  · simp [h hd]
  · simp [hd]

mutual

theorem run_calls : (t : Tree) → (w : JsonWriter) →
    Wrote w.depth (w.pre mem) (w.run mem t.calls) (textAt trackedComma w.depth t.value)
  | .null, w => by
      simp only [Tree.value, textAt]
      exact pre_depth w ▸ wrote_literal hmem (w.pre mem) (pre_afterKey w) (by simp)
  | .bool true, w => by
      simp only [Tree.value, textAt]
      exact pre_depth w ▸ wrote_literal hmem (w.pre mem) (pre_afterKey w) (by simp)
  | .bool false, w => by
      simp only [Tree.value, textAt]
      exact pre_depth w ▸ wrote_literal hmem (w.pre mem) (pre_afterKey w) (by simp)
  | .u64 v, w => by
      simp only [Tree.value, textAt]
      exact pre_depth w ▸ wrote_sink (w.pre mem) (pre_afterKey w) (Sink.append_u64_data hmem _ v)
  | .i64 v, w => by
      simp only [Tree.value, textAt]
      exact pre_depth w ▸ wrote_sink (w.pre mem) (pre_afterKey w) (Sink.append_i64_data hmem _ v)
  | .str s, w => by
      simp only [Tree.value, textAt]
      exact pre_depth w ▸ wrote_rawstr hmem (w.pre mem) s (pre_afterKey w)
  | .arr ts, w => by
      simp only [Tree.value, textAt]
      have hc : w.run mem (Tree.calls (.arr ts))
          = ((w.begin mem '[').run mem (Tree.elemCalls ts)).finish mem ']' := by
        simp [Tree.calls, JsonWriter.run, JsonWriter.step]
      rw [hc]
      refine wrote_container hmem w (by decide) (by decide) fun w' hd hk hl => ?_
      exact hl ▸ run_elemCalls ts w' w.depth hd hk
  | .obj ms, w => by
      simp only [Tree.value, textAt]
      have hc : w.run mem (Tree.calls (.obj ms))
          = ((w.begin mem '\x7b').run mem (Tree.memberCalls ms)).finish mem '\x7d' := by
        simp [Tree.calls, JsonWriter.run, JsonWriter.step]
      rw [hc]
      refine wrote_container hmem w (by decide) (by decide) fun w' hd hk hl => ?_
      exact hl ▸ run_memberCalls ms w' w.depth hd hk

theorem run_elemCalls : (ts : List Tree) → (w : JsonWriter) → (d : Nat) → w.depth = d + 1 →
    w.afterKey = false →
    Wrote d w (w.run mem (Tree.elemCalls ts))
      (elemsAt trackedComma d (if w.hasMember d then trackedComma d else []) (Tree.values ts))
  | [], w, d, _, hk => by
      simp only [Tree.values, elemsAt]
      exact ⟨by simp [Tree.elemCalls, JsonWriter.run], rfl, hk, fun _ _ => rfl⟩
  | t :: ts, w, d, hd, hk => by
      have hv := run_calls t w
      rw [hd] at hv
      obtain ⟨hpre, hset⟩ := pre_elem hmem w hd hk
      have hdep : (w.run mem t.calls).depth = d + 1 := by rw [hv.depth, pre_depth, hd]
      have hrest := run_elemCalls ts (w.run mem t.calls) d hdep hv.afterKey
      have hflag : d < jsonMaxDepth → (w.run mem t.calls).hasMember d = true := fun h =>
        (hv.flags d (Nat.lt_succ_self d)).trans (hset h)
      rw [lead_of_set hflag] at hrest
      simp only [Tree.elemCalls, JsonWriter.run_append, Tree.values, elemsAt]
      exact hpre.trans ((hv.mono (Nat.le_succ d)).trans hrest)

theorem run_memberCalls : (ms : List (CStr × Tree)) → (w : JsonWriter) → (d : Nat) →
    w.depth = d + 1 → w.afterKey = false →
    Wrote d w (w.run mem (Tree.memberCalls ms))
      (membersAt trackedComma d (if w.hasMember d then trackedComma d else [])
        (Tree.memberValues ms))
  | [], w, d, _, hk => by
      simp only [Tree.memberValues, membersAt]
      exact ⟨by simp [Tree.memberCalls, JsonWriter.run], rfl, hk, fun _ _ => rfl⟩
  | (k, t) :: ms, w, d, hd, hk => by
      obtain ⟨hkey, hset⟩ := wrote_key hmem w hd hk k
      have hkd : (w.key mem k.bytes).depth = d + 1 :=
        (pre_depth (w.key mem k.bytes)).symm.trans (hkey.depth.trans hd)
      have hv := run_calls t (w.key mem k.bytes)
      rw [hkd] at hv
      have hdep : ((w.key mem k.bytes).run mem t.calls).depth = d + 1 := by
        rw [hv.depth, pre_depth, hkd]
      have hrest := run_memberCalls ms ((w.key mem k.bytes).run mem t.calls) d hdep hv.afterKey
      have hflag : d < jsonMaxDepth →
          ((w.key mem k.bytes).run mem t.calls).hasMember d = true := fun h =>
        (hv.flags d (Nat.lt_succ_self d)).trans (hset h)
      rw [lead_of_set hflag] at hrest
      have hc : w.run mem (Tree.memberCalls ((k, t) :: ms))
          = ((w.key mem k.bytes).run mem t.calls).run mem (Tree.memberCalls ms) := by
        simp [Tree.memberCalls, JsonWriter.run, JsonWriter.step]
      have hall := hkey.trans ((hv.mono (Nat.le_succ d)).trans hrest)
      rw [hc]
      simp only [Tree.memberValues, membersAt]
      simpa using hall

end

end

/-! ## Trees the writer keeps track of -/

mutual

/-- Every container that is opened below the tracked levels has at most one
member. -/
def Tree.tracked (d : Nat) : Tree → Bool
  | .null => true
  | .bool _ => true
  | .u64 _ => true
  | .i64 _ => true
  | .str _ => true
  | .arr ts => (decide (d < jsonMaxDepth) || decide (ts.length ≤ 1)) && Tree.allTracked (d + 1) ts
  | .obj ms =>
      (decide (d < jsonMaxDepth) || decide (ms.length ≤ 1)) && Tree.membersTracked (d + 1) ms

def Tree.allTracked (d : Nat) : List Tree → Bool
  | [] => true
  | t :: ts => t.tracked d && Tree.allTracked d ts

def Tree.membersTracked (d : Nat) : List (CStr × Tree) → Bool
  | [] => true
  | (_, t) :: ms => t.tracked d && Tree.membersTracked d ms

end

mutual

theorem textAt_tracked (d : Nat) : (t : Tree) → t.tracked d = true →
    textAt trackedComma d t.value = textAt comma d t.value
  | .null, _ => by simp only [Tree.value, textAt]
  | .bool true, _ => by simp only [Tree.value, textAt]
  | .bool false, _ => by simp only [Tree.value, textAt]
  | .u64 _, _ => by simp only [Tree.value, textAt]
  | .i64 _, _ => by simp only [Tree.value, textAt]
  | .str _, _ => by simp only [Tree.value, textAt]
  | .arr ts, h => by
      simp only [Tree.tracked, Bool.and_eq_true, Bool.or_eq_true, decide_eq_true_eq] at h
      simp only [Tree.value, textAt]
      rw [elemsAt_tracked d ts [] h.1 h.2]
  | .obj ms, h => by
      simp only [Tree.tracked, Bool.and_eq_true, Bool.or_eq_true, decide_eq_true_eq] at h
      simp only [Tree.value, textAt]
      rw [membersAt_tracked d ms [] h.1 h.2]

theorem elemsAt_tracked (d : Nat) : (ts : List Tree) → (lead : List Char) →
    d < jsonMaxDepth ∨ ts.length ≤ 1 → Tree.allTracked (d + 1) ts = true →
    elemsAt trackedComma d lead (Tree.values ts) = elemsAt comma d lead (Tree.values ts)
  | [], _, _, _ => by simp only [Tree.values, elemsAt]
  | [t], lead, _, h => by
      simp only [Tree.allTracked, Bool.and_true] at h
      simp only [Tree.values, elemsAt]
      rw [textAt_tracked (d + 1) t h]
  | t :: u :: ts, lead, hd, h => by
      rw [Tree.allTracked, Bool.and_eq_true] at h
      have hlt : d < jsonMaxDepth := by
        rcases hd with hd | hd
        · exact hd
        · simp at hd
      have hsep : trackedComma d = comma d := if_pos hlt
      have ih := elemsAt_tracked d (u :: ts) (comma d) (Or.inl hlt) h.2
      rw [Tree.values, elemsAt, elemsAt, textAt_tracked (d + 1) t h.1, hsep, ih]

theorem membersAt_tracked (d : Nat) : (ms : List (CStr × Tree)) → (lead : List Char) →
    d < jsonMaxDepth ∨ ms.length ≤ 1 → Tree.membersTracked (d + 1) ms = true →
    membersAt trackedComma d lead (Tree.memberValues ms)
      = membersAt comma d lead (Tree.memberValues ms)
  | [], _, _, _ => by simp only [Tree.memberValues, membersAt]
  | [(k, t)], lead, _, h => by
      simp only [Tree.membersTracked, Bool.and_true] at h
      simp only [Tree.memberValues, membersAt]
      rw [textAt_tracked (d + 1) t h]
  | (k, t) :: m :: ms, lead, hd, h => by
      rw [Tree.membersTracked, Bool.and_eq_true] at h
      have hlt : d < jsonMaxDepth := by
        rcases hd with hd | hd
        · exact hd
        · simp at hd
      have hsep : trackedComma d = comma d := if_pos hlt
      have ih := membersAt_tracked d (m :: ms) (comma d) (Or.inl hlt) h.2
      rw [Tree.memberValues, membersAt, membersAt, textAt_tracked (d + 1) t h.1, hsep, ih]

end

/-! ## The whole text -/

/-- What the writer adds to a sink when it is driven over a tree, whatever
was in its uninitialised flags. -/
theorem run_init_calls {mem : Nat → Bool} (hmem : ∀ n, mem n = true) (s : Sink)
    (flags : Nat → Bool) (t : Tree) :
    ((JsonWriter.init s flags).run mem t.calls).sink.data
      = s.data ++ utf8 (textAt trackedComma 0 t.value) :=
  (run_calls hmem t (JsonWriter.init s flags)).data

/-- On a sink that does not fail, the text of a tree has a comma between
siblings in the containers whose level is tracked and none in the deeper
ones; a tree that does not miss them is read back from the text. -/
theorem parse_run_calls (mem : Nat → Bool) (hmem : ∀ n, mem n = true) (s : Sink)
    (flags : Nat → Bool) (t : Tree) :
    ∃ out, ((JsonWriter.init s flags).run mem t.calls).sink.data = s.data ++ out ∧
      out = utf8 (textAt trackedComma 0 t.value) ∧
      (t.tracked 0 = true → parse out = some t.value) := by
  refine ⟨_, run_init_calls hmem s flags t, rfl, fun ht => ?_⟩
  rw [textAt_tracked 0 t ht]
  exact parse_text t.value

theorem parse_run_calls_pair :
    ∃ out, ((JsonWriter.init Sink.init fun _ => true).run (fun _ => true)
        (Tree.arr [.null, .i64 (-7)]).calls).sink.data = [] ++ out ∧
      out = utf8 (textAt trackedComma 0 (Tree.arr [.null, .i64 (-7)]).value) ∧
      ((Tree.arr [.null, .i64 (-7)]).tracked 0 = true →
        parse out = some (Tree.arr [.null, .i64 (-7)]).value) :=
  parse_run_calls (fun _ => true) (fun _ => rfl) Sink.init (fun _ => true)
    (.arr [.null, .i64 (-7)])

/-- Two elements inside `n` arrays of one element. -/
def nestedPair : Nat → Tree
  | 0 => .arr [.null, .null]
  | n + 1 => .arr [nestedPair n]

/-- Thirty-two levels down the comma is lost, and the text is no JSON. -/
theorem parse_run_calls_nestedPair :
    ¬ ∀ (mem : Nat → Bool) (s : Sink) (flags : Nat → Bool) (t : Tree), (∀ n, mem n = true) →
      ∃ out, ((JsonWriter.init s flags).run mem t.calls).sink.data = s.data ++ out ∧
        parse out = some t.value := by
  intro h
  obtain ⟨out, hout, hparse⟩ :=
    h (fun _ => true) Sink.init (fun _ => false) (nestedPair 32) fun _ => rfl
  rw [run_init_calls (fun _ => rfl)] at hout
  rw [← List.append_cancel_left hout, parse_utf8] at hparse
  have hnone : (whole (textAt trackedComma 0 (nestedPair 32).value)).isNone = true := by
    decide +kernel
  rw [hparse] at hnone
  exact absurd hnone (by decide)

end Montauk.Emit
