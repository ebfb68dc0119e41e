import Montauk.Trace.Log

/-!
# Reading any log body

`TraceReader::for_each` takes a file apart from the front, so on any bytes at
all it visits the records of the longest framed prefix (`forEach_longest`).
The status tells what stopped it, with one exception. A read of the length
prefix that comes up short counts as the end of the file, however many of its
four bytes were there: a log torn one to three bytes behind a record ends with
`Ok` (`forEach_short`). On every other body the status is the one the framing
calls for (`inverts_iff`).
-/

namespace Montauk.Trace

/-! ## Frames are a prefix code -/

theorem le32_le32Val {bs : List UInt8} (h : bs.length = 4) : le32 (le32Val bs) = bs := by
  obtain ⟨a, b, c, d, rfl⟩ : ∃ a b c d, bs = [a, b, c, d] := by
    match bs, h with
    | [a, b, c, d], _ => exact ⟨a, b, c, d, rfl⟩
  have ha := a.toNat_lt
  have hb := b.toNat_lt
  have hc := c.toNat_lt
  have hd := d.toNat_lt
  simp only [le32, le32Val, List.cons.injEq, and_true, ← UInt8.toNat_inj, UInt8.toNat_ofNat']
  omega

/-- Bytes that start with a length in range, and hold that many more, start
with a frame. -/
theorem frame_of_length {p : List UInt8} (hlong : 4 ≤ p.length)
    (hlen : 4 ≤ le32Val (p.take 4) ∧ le32Val (p.take 4) ≤ kTraceMaxRecordLen)
    (hroom : le32Val (p.take 4) ≤ (p.drop 4).length) :
    ValidRec ((p.drop 4).take (le32Val (p.take 4))) ∧
      p = frame ((p.drop 4).take (le32Val (p.take 4))) ++ (p.drop 4).drop (le32Val (p.take 4)) := by
  have hlength : ((p.drop 4).take (le32Val (p.take 4))).length = le32Val (p.take 4) := by
    rw [List.length_take, Nat.min_eq_left hroom]
  have hvalid : ValidRec ((p.drop 4).take (le32Val (p.take 4))) :=
    ⟨by rw [hlength]; exact hlen.1, by rw [hlength]; exact hlen.2⟩
  have hprefix : (p.take 4).length = 4 := by rw [List.length_take, Nat.min_eq_left hlong]
  refine ⟨hvalid, ?_⟩
  rw [frame, hvalid.len_mod, hlength, le32_le32Val hprefix, List.append_assoc, List.take_append_drop,
    List.take_append_drop]

theorem frame_append_inj {r s : Rec} (hr : ValidRec r) (hs : ValidRec s) {p q : List UInt8}
    (h : frame r ++ p = frame s ++ q) : r = s ∧ p = q := by
  rw [frame, frame, List.append_assoc, List.append_assoc] at h
  obtain ⟨hlen, hrest⟩ := List.append_inj h rfl
  have hsame : r.length = s.length := by
    rw [← hr.le32Val, ← hs.le32Val, hlen]
  exact List.append_inj hrest hsame

/-! ## What stops the walk -/

/-- The walk visits nothing at `p` and returns `status`. -/
inductive Stops (p : List UInt8) : TraceReadStatus → Prop where
  | short (hshort : p.length < 4) : Stops p .ok
  | corrupt (hlong : 4 ≤ p.length)
      (hlen : le32Val (p.take 4) < 4 ∨ kTraceMaxRecordLen < le32Val (p.take 4)) :
      Stops p (.corruptLength (le32Val (p.take 4)))
  | truncated (hlong : 4 ≤ p.length)
      (hlen : 4 ≤ le32Val (p.take 4) ∧ le32Val (p.take 4) ≤ kTraceMaxRecordLen)
      (hroom : (p.drop 4).length < le32Val (p.take 4)) : Stops p .truncatedRecord

theorem Stops.forEachLoop {p : List UInt8} {status : TraceReadStatus} (h : Stops p status) (n : Nat) :
    forEachLoop (n + 1) p = ([], status) := by
  rw [Trace.forEachLoop]
  cases h with
  | short hshort => rw [if_pos hshort]
  | corrupt hlong hlen =>
      rw [if_neg (Nat.not_lt.mpr hlong)]
      exact if_pos hlen
  | truncated hlong hlen hroom =>
      have hok : ¬(le32Val (p.take 4) < 4 ∨ kTraceMaxRecordLen < le32Val (p.take 4)) := by omega
      rw [if_neg (Nat.not_lt.mpr hlong)]
      dsimp only
      rw [if_neg hok, if_pos hroom]

theorem stops_or_frame (p : List UInt8) :
    (∃ status, Stops p status) ∨ ∃ r rest, ValidRec r ∧ p = frame r ++ rest := by
  by_cases hshort : p.length < 4
  · exact .inl ⟨_, .short hshort⟩
  have hlong : 4 ≤ p.length := Nat.not_lt.mp hshort
  by_cases hlen : le32Val (p.take 4) < 4 ∨ kTraceMaxRecordLen < le32Val (p.take 4)
  · exact .inl ⟨_, .corrupt hlong hlen⟩
  have hok : 4 ≤ le32Val (p.take 4) ∧ le32Val (p.take 4) ≤ kTraceMaxRecordLen := by omega
  by_cases hroom : (p.drop 4).length < le32Val (p.take 4)
  · exact .inl ⟨_, .truncated hlong hok hroom⟩
  · obtain ⟨hvalid, hsplit⟩ := frame_of_length hlong hok (Nat.not_lt.mp hroom)
    exact .inr ⟨_, _, hvalid, hsplit⟩

theorem Stops.not_frame {p : List UInt8} {status : TraceReadStatus} (h : Stops p status) {r : Rec}
    (hr : ValidRec r) {rest : List UInt8} : p ≠ frame r ++ rest := by
  intro hp
  have hvisit := forEachLoop_frame hr 0 rest
  rw [← hp, h.forEachLoop] at hvisit
  exact List.cons_ne_nil _ _ (congrArg Prod.fst hvisit).symm

/-! ## The longest framed prefix -/

/-- The body as the walk takes it apart: whole records, and what stops it. -/
structure Walk (body : List UInt8) (rs : List Rec) (rest : List UInt8) (status : TraceReadStatus) : Prop where
  valid : ∀ r ∈ rs, ValidRec r
  split : body = framed rs ++ rest
  stops : Stops rest status

theorem exists_walk (body : List UInt8) : ∃ rs rest status, Walk body rs rest status := by
  induction hn : body.length using Nat.strong_induction_on generalizing body with
  | h n ih =>
      rcases stops_or_frame body with ⟨status, hstops⟩ | ⟨r, rest, hr, rfl⟩
      · exact ⟨[], body, status, fun _ h => absurd h List.not_mem_nil, rfl, hstops⟩
      · have hlt : rest.length < n := by
          rw [← hn, List.length_append, length_frame]
          omega
        obtain ⟨rs, rest', status, hwalk⟩ := ih _ hlt rest rfl
        refine ⟨r :: rs, rest', status, List.forall_mem_cons.mpr ⟨hr, hwalk.valid⟩, ?_, hwalk.stops⟩
        rw [framed_cons, List.append_assoc, ← hwalk.split]

theorem Walk.forEachLoop {rs : List Rec} {rest : List UInt8} {status : TraceReadStatus}
    (hvalid : ∀ r ∈ rs, ValidRec r) (hstops : Stops rest status) (n : Nat) (hn : rs.length < n) :
    forEachLoop n (framed rs ++ rest) = (rs.map visitOf, status) := by
  induction rs generalizing n with
  | nil =>
      obtain ⟨m, rfl⟩ := Nat.exists_eq_succ_of_ne_zero (Nat.ne_of_gt hn)
      exact hstops.forEachLoop m
  | cons r rs ih =>
      obtain ⟨m, rfl⟩ := Nat.exists_eq_succ_of_ne_zero (Nat.ne_of_gt (Nat.zero_lt_of_lt hn))
      obtain ⟨hr, hrs⟩ := List.forall_mem_cons.mp hvalid
      rw [framed_cons, List.append_assoc, forEachLoop_frame hr, ih hrs m (Nat.lt_of_succ_lt_succ hn),
        List.map_cons]

theorem length_le_framed (rs : List Rec) : rs.length ≤ (framed rs).length := by
  induction rs with
  | nil => exact Nat.le_refl _
  | cons r rs ih =>
      rw [framed_cons, List.length_append, length_frame, List.length_cons]
      omega

theorem Walk.forEach {body : List UInt8} {rs : List Rec} {rest : List UInt8} {status : TraceReadStatus}
    (h : Walk body rs rest status) : forEach body = (rs.map visitOf, status) := by
  have hlen := length_le_framed rs
  have hn : rs.length < (framed rs ++ rest).length + 1 := by
    rw [List.length_append]
    omega
  rw [Trace.forEach, h.split]
  exact Walk.forEachLoop h.valid h.stops _ hn

theorem Walk.longest {body : List UInt8} {rs : List Rec} {rest : List UInt8} {status : TraceReadStatus}
    (h : Walk body rs rest status) {ss : List Rec} {rest' : List UInt8} (hss : ∀ s ∈ ss, ValidRec s)
    (hsplit : body = framed ss ++ rest') : ss <+: rs := by
  induction ss generalizing body rs with
  | nil => exact List.nil_prefix
  | cons s ss ih =>
      obtain ⟨hs, htail⟩ := List.forall_mem_cons.mp hss
      rw [framed_cons, List.append_assoc] at hsplit
      cases rs with
      | nil => exact absurd (h.split.symm.trans hsplit) (h.stops.not_frame hs)
      | cons r rs =>
          obtain ⟨hr, hrs⟩ := List.forall_mem_cons.mp h.valid
          have hsame := h.split.symm.trans hsplit
          rw [framed_cons, List.append_assoc] at hsame
          obtain ⟨rfl, hrest⟩ := frame_append_inj hr hs hsame
          exact List.cons_prefix_cons.mpr ⟨rfl, ih ⟨hrs, rfl, h.stops⟩ htail hrest⟩

/-! ## The reader and the framing -/

def IsFramed (body : List UInt8) : Prop := ∃ rs, (∀ r ∈ rs, ValidRec r) ∧ body = framed rs

/-- `rs` are the records of the longest framed prefix. -/
structure LongestFramed (body : List UInt8) (rs : List Rec) : Prop where
  valid : ∀ r ∈ rs, ValidRec r
  front : framed rs <+: body
  longest : ∀ ss, (∀ s ∈ ss, ValidRec s) → framed ss <+: body → ss <+: rs

/-- What a caller takes the reader for, on one body. -/
structure Inverts (body : List UInt8) : Prop where
  framed : ∀ rs, (∀ r ∈ rs, ValidRec r) → body = framed rs → forEach body = (rs.map visitOf, .ok)
  ok_iff : (forEach body).2 = .ok ↔ IsFramed body
  otherwise : ¬ IsFramed body →
    (forEach body).2 = .truncatedRecord ∨ ∃ len, (forEach body).2 = .corruptLength len
  visited : ∃ rs, LongestFramed body rs ∧ (forEach body).1 = rs.map visitOf

/-- The body goes on for one to three bytes behind its last whole record. -/
def EndsInLength (body : List UInt8) : Prop :=
  ∃ rs rest, (∀ r ∈ rs, ValidRec r) ∧ body = framed rs ++ rest ∧ 0 < rest.length ∧ rest.length < 4

theorem Walk.longestFramed {body : List UInt8} {rs : List Rec} {rest : List UInt8}
    {status : TraceReadStatus} (h : Walk body rs rest status) : LongestFramed body rs where
  valid := h.valid
  front := ⟨rest, h.split.symm⟩
  longest := fun _ hss ⟨_, hsplit⟩ => h.longest hss hsplit.symm

/-- **The reader visits the longest framed prefix**, of any bytes. -/
theorem forEach_longest (body : List UInt8) :
    ∃ rs, LongestFramed body rs ∧ (forEach body).1 = rs.map visitOf := by
  obtain ⟨rs, rest, status, hwalk⟩ := exists_walk body
  exact ⟨rs, hwalk.longestFramed, congrArg Prod.fst hwalk.forEach⟩

theorem walk_framed {rs : List Rec} (hrs : ∀ r ∈ rs, ValidRec r) : Walk (framed rs) rs [] .ok :=
  ⟨hrs, (List.append_nil _).symm, .short (by decide)⟩

/-- A body that ends in a length prefix is not framed, yet the walk over it is
`Ok`. -/
theorem forEach_short {body : List UInt8} (h : EndsInLength body) :
    (forEach body).2 = .ok ∧ ¬ IsFramed body := by
  obtain ⟨rs, rest, hrs, hbody, hpos, hshort⟩ := h
  have hwalk : Walk body rs rest .ok := ⟨hrs, hbody, .short hshort⟩
  refine ⟨congrArg Prod.snd hwalk.forEach, ?_⟩
  rintro ⟨ss, hss, hframed⟩
  have hback : rs <+: ss := (walk_framed hss).longest hrs (hframed.symm.trans hbody)
  have hforth : ss <+: rs := hwalk.longest hss (hframed.trans (List.append_nil _).symm)
  have hlen := congrArg List.length (hbody.symm.trans hframed)
  rw [hforth.eq_of_length_le hback.length_le, List.length_append] at hlen
  omega

theorem inverts_of_not_endsInLength {body : List UInt8} (h : ¬ EndsInLength body) : Inverts body := by
  obtain ⟨rs, rest, status, hwalk⟩ := exists_walk body
  have hread := hwalk.forEach
  have hframed : ∀ {ss}, (∀ s ∈ ss, ValidRec s) → body = framed ss → forEach body = (ss.map visitOf, .ok) := by
    intro ss hss hbody
    rw [hbody]
    exact (walk_framed hss).forEach
  have hok : ∀ {ss}, (∀ s ∈ ss, ValidRec s) → body = framed ss → (forEach body).2 = .ok := fun hss hbody =>
    congrArg Prod.snd (hframed hss hbody)
  have hnil : status = .ok → IsFramed body := by
    intro hstatus
    cases hwalk.stops with
    | corrupt => exact absurd hstatus nofun
    | truncated => exact absurd hstatus nofun
    | short hshort =>
        have hempty : rest.length = 0 := by
          by_contra hne
          exact h ⟨rs, rest, hwalk.valid, hwalk.split, Nat.pos_of_ne_zero hne, hshort⟩
        refine ⟨rs, hwalk.valid, ?_⟩
        rw [hwalk.split, List.eq_nil_of_length_eq_zero hempty, List.append_nil]
  have hstatus : (forEach body).2 = status := congrArg Prod.snd hread
  refine ⟨fun ss hss hbody => hframed hss hbody, ⟨fun h => hnil (hstatus.symm.trans h), ?_⟩, ?_,
    ⟨rs, hwalk.longestFramed, congrArg Prod.fst hread⟩⟩
  · rintro ⟨ss, hss, hbody⟩
    exact hok hss hbody
  · intro hnot
    rw [hstatus]
    cases hwalk.stops with
    | short => exact absurd (hnil rfl) hnot
    | corrupt => exact .inr ⟨_, rfl⟩
    | truncated => exact .inl rfl

/-- **The reader inverts the framing** on exactly the bodies that do not end
inside a length prefix. -/
theorem inverts_iff (body : List UInt8) : Inverts body ↔ ¬ EndsInLength body := by
  refine ⟨fun h hends => ?_, inverts_of_not_endsInLength⟩
  obtain ⟨hok, hnot⟩ := forEach_short hends
  exact hnot (h.ok_iff.mp hok)

/-- One byte and nothing else: the walk is `Ok`, and it is no record. -/
theorem not_inverts_byte : ¬ ∀ body, Inverts body := by
  intro h
  have hends : EndsInLength [0x08] :=
    ⟨[], [0x08], fun r hr => absurd hr List.not_mem_nil, rfl, by decide, by decide⟩
  obtain ⟨hok, hnot⟩ := forEach_short hends
  exact hnot ((h _).ok_iff.mp hok)

end Montauk.Trace
