import Montauk.Kernel.Netlink
import Montauk.Machine.AttributeReads

/-!
# What the collector reads of a message

`resolve_family` and `recv_snapshot` once more, with every read held against the
bytes that were received. Both walk the attributes of a message by the lengths
found in it.

`recv_snapshot` checks each length before it moves on, so its walk ends and stays
in the message, but it takes a number or a string from a payload without asking
how long the payload is. `resolve_family` checks no length: a length of zero
holds it where it is. `walksInside_iff` says which messages are read well.
-/

namespace Montauk.Kernel

open Attributes

/-! ## The walks -/

/-- `NLMSG_OK` and the test for an error message, then `attr_len`; the outer
`none` is a read behind the end. -/
def openMessage (m : List UInt8) : Option (Option Int) :=
  if m.length < nlmsgHdrlen then some none
  else do
    let len ← read 4 m 0
    if len < nlmsgHdrlen ∨ m.length < len then some none
    else do
      let type ← read 2 m 4
      if type = nlmsgError then some none else some (some (len - nlmsgHdrlen - genlHdrlen : Int))

def ctrlAttrFamilyId : Nat := 1

/-- The attribute loop of `resolve_family`: the number it finds, if it ends. -/
def familyWalk (m : List UInt8) : Nat → Nat → Int → Option (Option Nat)
  | 0, _, _ => none
  | fuel + 1, off, attrLen =>
      if attrLen < 4 then some none
      else do
        let len ← read 2 m off
        let type ← read 2 m (off + 2)
        if type = ctrlAttrFamilyId then (read 2 m (off + 4)).map some
        else familyWalk m fuel (off + align4 len) (attrLen - align4 len)

/-- `resolve_family` on the answer, which goes into 4096 bytes. -/
def resolveFamily (fuel : Nat) (datagram : List UInt8) : Option (Option Nat) :=
  let m := datagram.take 4096
  (openMessage m).bind fun opened => opened.elim (some none) (familyWalk m fuel (nlmsgHdrlen + genlHdrlen))

section

variable (host : Host) (m : List UInt8)

/-- The switch over the attributes of an entry, `data` being where the payload
starts. -/
def innerRead (s : ProcSample × UInt64 × UInt64) (a : Seen) : Option (ProcSample × UInt64 × UInt64) :=
  let (ps, ut, st) := s
  let u32 := (read 4 m a.data).map UInt32.ofNat
  let u64 := (read 8 m a.data).map UInt64.ofNat
  let string := readString (m.drop a.data)
  match Collector.MontaukAttr.ofCode a.type with
  | some .pid => u32.map fun v => ({ ps with pid := v.toInt32 }, ut, st)
  | some .comm => string.map fun v => ({ ps with cmd := v }, ut, st)
  | some .utime => u64.map fun v => (ps, v, st)
  | some .stime => u64.map fun v => (ps, ut, v)
  | some .rssPages => u64.map fun v => ({ ps with rssKb := v * (host.pageSize / 1024) }, ut, st)
  | some .uid => u32.map fun v => ({ ps with userName := (host.getpwuid v).getD (toStringBytes v.toNat) }, ut, st)
  | some .threads => u32.map fun v => ({ ps with threadCount := v.toInt32 }, ut, st)
  | some .exePath => string.map fun v => ({ ps with exePath := v }, ut, st)
  | some .cmdline => string.map fun v => ({ ps with cmd := v }, ut, st)
  | _ => some s

def entryRead (a : Seen) : Option ProcSample :=
  (walkReads (innerRead host m) m (a.payload + 1) a.data a.payload ({}, 0, 0)).map fun (ps, ut, st) =>
    { ps with totalTime := ut + st }

/-- The body of the loop over the attributes of the message. -/
def outerRead (out : ProcessSnapshot) (a : Seen) : Option ProcessSnapshot :=
  let attrType := Collector.MontaukAttr.ofCode (a.type &&& nlaTypeMask)
  if attrType = some .procEntry ∧ 0 < a.payload then (entryRead host m a).map out.push
  else if attrType = some .procCount then (read 4 m a.data).map fun v => { out with totalProcesses := v }
  else some out

end

/-- `recv_snapshot` up to the end of its attribute loop, on a message that goes
into a megabyte. A negative `attr_len` ends the loop as zero does. -/
def recvReads (host : Host) (datagram : List UInt8) : Option (Option ProcessSnapshot) :=
  let m := datagram.take (1024 * 1024)
  (openMessage m).bind fun opened => opened.elim (some none) fun attrLen =>
    (walkReads (outerRead host m) m (attrLen.toNat + 1) (nlmsgHdrlen + genlHdrlen) attrLen.toNat {}).map some

/-- Both walks end, and all they read was received. -/
def WalksInside (host : Host) (answer snapshot : List UInt8) : Prop :=
  (∃ fuel r, resolveFamily fuel answer = some r) ∧ ∃ r, recvReads host snapshot = some r

/-! ## The messages that are read well -/

/-- The bytes of attributes a message has, if its header is accepted. -/
def attrBytes (m : List UInt8) : Option Nat :=
  if m.length < nlmsgHdrlen ∨ readLe 4 m < nlmsgHdrlen ∨ m.length < readLe 4 m
      ∨ readLe 2 (m.drop 4) = nlmsgError then none
  else some (readLe 4 m - nlmsgHdrlen - genlHdrlen)

/-- The header of an attribute. -/
structure Header where
  off : Nat
  len : Nat
  type : Nat

/-- The headers of a row of attributes, up to one of length zero. -/
def headers (m : List UInt8) : Nat → Nat → Nat → List Header
  | 0, _, _ => []
  | fuel + 1, off, left =>
      let len := readLe 2 (m.drop off)
      if left < 4 then []
      else ⟨off, len, readLe 2 (m.drop (off + 2))⟩
        :: if len = 0 then [] else headers m fuel (off + align4 len) (left - align4 len)

/-- A header at which `resolve_family` goes no further. -/
def Header.stops (h : Header) : Bool := h.type = ctrlAttrFamilyId || h.len = 0

/-- The first header that stops is the family's, and its number is in the message. -/
def FamilyCovered (answer : List UInt8) : Prop :=
  let m := answer.take 4096
  ∀ left ∈ attrBytes m, ∀ h ∈ (headers m (left + 1) (nlmsgHdrlen + genlHdrlen) left).find? Header.stops,
    h.type = ctrlAttrFamilyId ∧ h.off + 6 ≤ m.length

/-- What is taken from an attribute of an entry is in the message. -/
def InnerCovered (m : List UInt8) (a : Seen) : Prop :=
  match Collector.MontaukAttr.ofCode a.type with
  | some .pid | some .uid | some .threads => a.data + 4 ≤ m.length
  | some .utime | some .stime | some .rssPages => a.data + 8 ≤ m.length
  | some .comm | some .exePath | some .cmdline => 0 ∈ m.drop a.data
  | _ => True

/-- The same for an attribute of the message. -/
def OuterCovered (m : List UInt8) (a : Seen) : Prop :=
  let attrType := Collector.MontaukAttr.ofCode (a.type &&& nlaTypeMask)
  if attrType = some .procEntry ∧ 0 < a.payload then ∀ b ∈ seen m (a.payload + 1) a.data a.payload, InnerCovered m b
  else if attrType = some .procCount then a.data + 4 ≤ m.length
  else True

def SnapshotCovered (snapshot : List UInt8) : Prop :=
  let m := snapshot.take (1024 * 1024)
  ∀ left ∈ attrBytes m, ∀ a ∈ seen m (left + 1) (nlmsgHdrlen + genlHdrlen) left, OuterCovered m a

/-! ## Opening a message -/

theorem openMessage_cases (m : List UInt8) :
    openMessage m = some none ∧ attrBytes m = none
      ∨ ∃ attrLen : Int, openMessage m = some (some attrLen) ∧ attrBytes m = some attrLen.toNat
          ∧ (4 ≤ attrLen.toNat → nlmsgHdrlen + genlHdrlen + attrLen.toNat ≤ m.length) := by
  have hhdr : nlmsgHdrlen = 16 := rfl
  have hgenl : genlHdrlen = 4 := rfl
  rw [openMessage, attrBytes]
  by_cases hlong : m.length < nlmsgHdrlen
  · exact .inl ⟨if_pos hlong, if_pos (.inl hlong)⟩
  · rw [if_neg hlong, read_eq (by omega), Option.bind_eq_bind, Option.bind_some, List.drop_zero]
    by_cases hlen : readLe 4 m < nlmsgHdrlen ∨ m.length < readLe 4 m
    · exact .inl ⟨if_pos hlen, if_pos (by omega)⟩
    · rw [if_neg hlen, read_eq (by omega), Option.bind_some]
      by_cases htype : readLe 2 (m.drop 4) = nlmsgError
      · exact .inl ⟨if_pos htype, if_pos (.inr (.inr (.inr htype)))⟩
      · refine .inr ⟨_, if_neg htype, (if_neg (by omega)).trans (congrArg some ?_), fun hfour => ?_⟩ <;> omega

/-! ## The family's walk -/

section

variable {m : List UInt8} {off : Nat} {attrLen : Int}

theorem familyWalk_end (h : attrLen < 4) (fuel : Nat) : familyWalk m (fuel + 1) off attrLen = some none := if_pos h

theorem familyWalk_step (h : ¬ attrLen < 4) (hin : off + 4 ≤ m.length) (fuel : Nat) :
    familyWalk m (fuel + 1) off attrLen
      = if readLe 2 (m.drop (off + 2)) = ctrlAttrFamilyId then (read 2 m (off + 4)).map some
        else familyWalk m fuel (off + align4 (readLe 2 (m.drop off))) (attrLen - align4 (readLe 2 (m.drop off))) := by
  rw [familyWalk, if_neg h, read_eq (by omega), Option.bind_eq_bind, Option.bind_some, read_eq (by omega),
    Option.bind_some]

theorem familyWalk_stays (h : ¬ attrLen < 4) (hin : off + 4 ≤ m.length) (hlen : readLe 2 (m.drop off) = 0)
    (htype : readLe 2 (m.drop (off + 2)) ≠ ctrlAttrFamilyId) (fuel : Nat) : familyWalk m fuel off attrLen = none := by
  induction fuel with
  | zero => rfl
  | succ fuel ih =>
      have hzero : align4 (readLe 2 (m.drop off)) = 0 := by rw [hlen]; rfl
      rw [familyWalk_step h hin, if_neg htype, hzero, Nat.add_zero, Nat.cast_zero, Int.sub_zero, ih]

theorem familyWalk_ends_succ :
    (∃ fuel r, familyWalk m fuel off attrLen = some r) ↔ ∃ fuel r, familyWalk m (fuel + 1) off attrLen = some r := by
  constructor
  · rintro ⟨fuel, r, h⟩
    cases fuel with
    | zero => cases h
    | succ fuel => exact ⟨fuel, r, h⟩
  · rintro ⟨fuel, r, h⟩
    exact ⟨fuel + 1, r, h⟩

/-- The walk ends well if the first header that stops it is the family's. The
induction is on the headers before that one. -/
theorem familyWalk_ends_iff {n : Nat} (hn : attrLen.toNat < n) (hin : 4 ≤ attrLen.toNat → off + attrLen.toNat ≤ m.length) :
    (∃ fuel r, familyWalk m fuel off attrLen = some r)
      ↔ ∀ h ∈ (headers m n off attrLen.toNat).find? Header.stops, h.type = ctrlAttrFamilyId ∧ h.off + 6 ≤ m.length := by
  induction n generalizing off attrLen with
  | zero => exact absurd hn (Nat.not_lt_zero _)
  | succ n ih =>
      rw [headers]
      by_cases hend : attrLen < 4
      · rw [if_pos (by omega)]
        exact ⟨fun _ h hh => absurd hh (by simp), fun _ => ⟨1, none, familyWalk_end hend 0⟩⟩
      · have hin' : off + 4 ≤ m.length := by
          have hle := hin (by omega)
          omega
        have hstep := familyWalk_step hend hin'
        rw [if_neg (by omega), familyWalk_ends_succ]
        by_cases htype : readLe 2 (m.drop (off + 2)) = ctrlAttrFamilyId
        · -- the family's number
          rw [List.find?_cons_of_pos (by simp [Header.stops, htype])]
          have hfound (fuel : Nat) : familyWalk m (fuel + 1) off attrLen = (read 2 m (off + 4)).map some :=
            (hstep fuel).trans (if_pos htype)
          simp only [hfound, Option.mem_some_iff, forall_eq', htype, true_and]
          constructor
          · rintro ⟨_, r, h⟩
            have hsome : (read 2 m (off + 4)).isSome = true := by
              rw [← Option.isSome_map (f := some), h]
              rfl
            have hle : off + 4 + 2 ≤ m.length := isSome_read.mp hsome
            exact hle
          · intro hle
            have hread : read 2 m (off + 4) = some (readLe 2 (m.drop (off + 4))) := read_eq hle
            exact ⟨0, some (readLe 2 (m.drop (off + 4))), by rw [hread]; rfl⟩
        · by_cases hlen : readLe 2 (m.drop off) = 0
          · -- no step is taken
            rw [List.find?_cons_of_pos (by simp [Header.stops, hlen])]
            refine ⟨fun ⟨fuel, r, h⟩ => ?_, fun h => absurd (h _ rfl).1 htype⟩
            rw [familyWalk_stays hend hin' hlen htype] at h
            cases h
          · have hpos := le_align4 (readLe 2 (m.drop off))
            have hnext : (attrLen - align4 (readLe 2 (m.drop off))).toNat
                = attrLen.toNat - align4 (readLe 2 (m.drop off)) := by omega
            rw [List.find?_cons_of_neg (by simp [Header.stops, hlen, htype]), if_neg hlen]
            simp only [hstep, if_neg htype]
            rw [← hnext]
            exact ih (by omega) fun hfour => by
              have hle := hin (by omega)
              omega

end

theorem resolveFamily_iff (answer : List UInt8) :
    (∃ fuel r, resolveFamily fuel answer = some r) ↔ FamilyCovered answer := by
  rcases openMessage_cases (answer.take 4096) with ⟨hopen, hbytes⟩ | ⟨attrLen, hopen, hbytes, hin⟩
  · refine ⟨fun _ left hleft => ?_, fun _ => ⟨0, none, ?_⟩⟩
    · rw [hbytes] at hleft
      cases hleft
    · rw [resolveFamily, hopen]
      rfl
  · have hrun (fuel : Nat) : resolveFamily fuel answer
        = familyWalk (answer.take 4096) fuel (nlmsgHdrlen + genlHdrlen) attrLen := by
      rw [resolveFamily, hopen]
      rfl
    simp only [hrun, FamilyCovered, hbytes, Option.mem_some_iff, forall_eq']
    exact familyWalk_ends_iff (Nat.lt_succ_self _) hin

/-! ## The snapshot's walk -/

section

variable {host : Host} {m : List UInt8}

theorem isSome_innerRead (s : ProcSample × UInt64 × UInt64) (a : Seen) :
    (innerRead host m s a).isSome = true ↔ InnerCovered m a := by
  obtain ⟨ps, ut, st⟩ := s
  rw [innerRead, InnerCovered]
  cases Collector.MontaukAttr.ofCode a.type with
  | none => exact ⟨fun _ => trivial, fun _ => rfl⟩
  | some attr =>
      cases attr
      case pid | uid | threads => simp only [Option.isSome_map, isSome_read]
      case utime | stime | rssPages => simp only [Option.isSome_map, isSome_read]
      case comm | exePath | cmdline => simp only [Option.isSome_map, isSome_readString]
      all_goals exact ⟨fun _ => trivial, fun _ => rfl⟩

/-- An entry that is in the message is read well if its attributes are. -/
theorem isSome_entryRead {a : Seen} (h : a.data + a.payload ≤ m.length) :
    (entryRead host m a).isSome = true ↔ ∀ b ∈ seen m (a.payload + 1) a.data a.payload, InnerCovered m b := by
  rw [entryRead, Option.isSome_map]
  exact walkReads_isSome (fun s b _ => isSome_innerRead s b) _ (fun _ => h) (Nat.lt_succ_self _)

theorem isSome_outerRead (out : ProcessSnapshot) {a : Seen} (h : a.data + a.payload ≤ m.length) :
    (outerRead host m out a).isSome = true ↔ OuterCovered m a := by
  rw [outerRead, OuterCovered]
  by_cases hentry : Collector.MontaukAttr.ofCode (a.type &&& nlaTypeMask) = some .procEntry ∧ 0 < a.payload
  · rw [if_pos hentry, if_pos hentry, Option.isSome_map, isSome_entryRead h]
  · rw [if_neg hentry, if_neg hentry]
    by_cases hcount : Collector.MontaukAttr.ofCode (a.type &&& nlaTypeMask) = some .procCount
    · rw [if_pos hcount, if_pos hcount, Option.isSome_map, isSome_read]
    · rw [if_neg hcount, if_neg hcount]
      exact ⟨fun _ => trivial, fun _ => rfl⟩

end

theorem recvReads_iff (host : Host) (snapshot : List UInt8) :
    (∃ r, recvReads host snapshot = some r) ↔ SnapshotCovered snapshot := by
  rcases openMessage_cases (snapshot.take (1024 * 1024)) with ⟨hopen, hbytes⟩ | ⟨attrLen, hopen, hbytes, hin⟩
  · refine ⟨fun _ left hleft => ?_, fun _ => ⟨none, ?_⟩⟩
    · rw [hbytes] at hleft
      cases hleft
    · rw [recvReads, hopen]
      rfl
  · have hrun : recvReads host snapshot = (walkReads (outerRead host (snapshot.take (1024 * 1024)))
        (snapshot.take (1024 * 1024)) (attrLen.toNat + 1) (nlmsgHdrlen + genlHdrlen) attrLen.toNat {}).map some := by
      rw [recvReads, hopen]
      rfl
    rw [← Option.isSome_iff_exists, hrun, Option.isSome_map, SnapshotCovered, hbytes]
    simp only [Option.mem_some_iff, forall_eq']
    refine walkReads_isSome (fun out a ha => ?_) _ hin (Nat.lt_succ_self _)
    obtain ⟨hfour, hend⟩ := seen_bounds ha
    exact isSome_outerRead out (hend.trans (hin hfour))

/-- Which messages are read well: in the answer no length of zero comes before
the family's number, and this is received as a whole; in the snapshot every
number and every string with its NUL that is taken was received. -/
theorem walksInside_iff (host : Host) (answer snapshot : List UInt8) :
    WalksInside host answer snapshot ↔ FamilyCovered answer ∧ SnapshotCovered snapshot :=
  and_congr (resolveFamily_iff answer) (recvReads_iff host snapshot)

/-- A message with one attribute, which has no payload. -/
def bareMessage (len type : Nat) : List UInt8 :=
  le 4 24 ++ le 2 16 ++ le 2 0 ++ le 4 1 ++ le 4 0 ++ [1, 2, 0, 0] ++ le 2 len ++ le 2 type

/-- A length of zero does not end, and a number of entries that is not there is
read behind the end. -/
theorem not_walksInside : (∀ snapshot, ¬ WalksInside ⟨4096, fun _ => none⟩ (bareMessage 0 2) snapshot)
    ∧ ∀ answer, ¬ WalksInside ⟨4096, fun _ => none⟩ answer (bareMessage 4 14) := by
  constructor
  · intro snapshot h
    have hcovered : FamilyCovered (bareMessage 0 2) := (resolveFamily_iff _).mp h.1
    exact absurd (hcovered 4 rfl ⟨20, 0, 2⟩ rfl).1 (by decide)
  · intro answer h
    have hcovered : SnapshotCovered (bareMessage 4 14) := (recvReads_iff _ _).mp h.2
    have hcount : 24 + 4 ≤ ((bareMessage 4 14).take (1024 * 1024)).length :=
      hcovered 4 rfl ⟨14, 0, 24⟩ (List.mem_singleton.mpr rfl)
    exact absurd hcount (by decide)

end Montauk.Kernel
