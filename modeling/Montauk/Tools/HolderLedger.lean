import Montauk.Tools.IdleLedger
import Montauk.Tools.ServiceReplay

/-!
# Who held a CPU

`CpuHolderLedger` takes a task to hold its CPU from its pick to the next, so the
time it adds up for a task is the time at which the last pick was of it
(`heldFor_eq`). It folds no idle boundary, and of picks at one time it takes the
highest thread for the last. So `dominant` tells who ran most and for how long,
in every window, if and only if the CPU is never idle after a pick and the last
of simultaneous picks is the highest (`dominant_iff`).
-/

namespace Montauk.Tools

open Intervals Timeline Trace

/-! ## Who runs -/

def SchedEvent.isPick (e : SchedEvent) : Prop := e.op = .switchIn ∨ e.op = .pick

instance (e : SchedEvent) : Decidable e.isPick := inferInstanceAs (Decidable (_ ∨ _))

/-- The thread that a pick brings on the CPU. -/
def SchedEvent.tid (e : SchedEvent) : UInt32 := e.pid.toUInt32

/-- The picks and the idle boundaries of a CPU. -/
def cpuEvents (cpu : UInt32) (trace : List TraceRecord) : List SchedEvent :=
  (schedEvents trace).filter fun e => (e.isPick ∨ e.op = .cpuIdle) ∧ e.cpu = cpu

def lastPick (es : List SchedEvent) (t : UInt64) : Option SchedEvent :=
  (es.filter fun e => e.isPick ∧ e.timestampNs ≤ t).getLast?

/-- The last idle boundary up to an instant goes into idle. -/
def cpuIdleAt (es : List SchedEvent) (t : UInt64) : Bool :=
  (es.filter fun e => e.op = .cpuIdle ∧ e.timestampNs ≤ t).getLast?.any fun e => e.enters

/-- The thread that runs at an instant: the one picked last, unless the CPU is
idle. -/
def runningAt (es : List SchedEvent) (t : UInt64) : Option UInt32 :=
  if cpuIdleAt es t then none else (lastPick es t).map SchedEvent.tid

/-- How long a thread runs in `[a, b)`. -/
def ranIn (es : List SchedEvent) (tid : UInt32) (a b : UInt64) : Nat :=
  ((Finset.Ico a.toNat b.toNat).filter fun t => runningAt es (UInt64.ofNat t) = some tid).card

/-! ## What the ledger answers -/

/-- `acc` of `dominant`: the time that each thread holds of `[a, b)`. -/
def CpuHolderLedger.attributed (s : CpuHolderLedger) (cpu : UInt32) (a b : UInt64) : List (UInt32 × UInt64) :=
  (rowOf cpu s.own).elim [] fun tl =>
    heldIn a b (tl.drop (lowerBound (fun e : UInt64 × UInt32 => e.1 < a) tl - 1)) []

/-- The last loop of `dominant`. -/
def mostOf (windowNs : UInt64) (rows : List (UInt32 × UInt64)) : Holder :=
  rows.foldl (fun h r => if h.heldNs < r.2 then { h with tid := r.1, heldNs := r.2 } else h) { windowNs }

/-- What `dominant` may answer: the map it goes through has no order. -/
def CpuHolderLedger.Answers (s : CpuHolderLedger) (cpu : UInt32) (a b : UInt64) (h : Holder) : Prop :=
  if b ≤ a then h = {} else ∃ rows, rows.Perm (s.attributed cpu a b) ∧ h = mostOf (b - a) rows

theorem answers_dominant (s : CpuHolderLedger) (cpu : UInt32) (a b : UInt64) :
    s.Answers cpu a b (s.dominant cpu a b) := by
  rw [CpuHolderLedger.Answers, CpuHolderLedger.dominant]
  split
  · rfl
  · refine ⟨s.attributed cpu a b, .refl _, ?_⟩
    rw [CpuHolderLedger.attributed]
    cases rowOf cpu s.own <;> rfl

/-- What an answer is to say of a window: who ran most in it and how long; and
no more is attributed than the window has. -/
structure HolderExact (es : List SchedEvent) (s : CpuHolderLedger) (cpu : UInt32) (a b : UInt64) : Prop where
  held : ∀ h, s.Answers cpu a b h → h.heldNs.toNat = ranIn es h.tid a b
  most : ∀ h, s.Answers cpu a b h → ∀ tid, ranIn es tid a b ≤ h.heldNs.toNat
  total : ((s.attributed cpu a b).map fun r => r.2.toNat).sum ≤ b.toNat - a.toNat

/-- After its first pick the CPU is not idle, and of the picks made at one time
the last is of the highest thread. -/
def Steady (es : List SchedEvent) : Prop :=
  ∀ t b, t < b → ∀ p, lastPick es t = some p →
    cpuIdleAt es t = false ∧ ∀ q ∈ es, q.isPick → q.timestampNs = p.timestampNs → q.tid ≤ p.tid

/-! ## Segments -/

/-- From each entry to the next, from the last to the end of the window. -/
def segments (b : Nat) : List (UInt64 × UInt32) → List (UInt32 × (Nat × Nat))
  | [] => []
  | e :: rest => (e.2, (e.1.toNat, ((rest.head?.map Prod.fst).elim b UInt64.toNat))) :: segments b rest

/-- The thread of the last entry up to an instant. -/
def holderAt (tl : List (UInt64 × UInt32)) (t : UInt64) : Option UInt32 :=
  (tl.filter fun e => e.1 ≤ t).getLast?.map Prod.snd

theorem holderAt_cons {e : UInt64 × UInt32} {tl : List (UInt64 × UInt32)} {t : UInt64} :
    holderAt (e :: tl) t = (holderAt tl t).or (if e.1 ≤ t then some e.2 else none) := by
  rw [holderAt, holderAt]
  by_cases h : e.1 ≤ t
  · rw [List.filter_cons_of_pos (by simpa using h), if_pos h]
    cases tl.filter fun e => e.1 ≤ t with
    | nil => rfl
    | cons c rest => rw [List.getLast?_cons_cons, List.getLast?_cons]; rfl
  · rw [List.filter_cons_of_neg (by simpa using h), if_neg h, Option.or_none]

/-- Before the first entry nobody holds the CPU. -/
theorem holderAt_eq_none {tl : List (UInt64 × UInt32)} {t : UInt64} (h : ∀ e ∈ tl, t < e.1) : holderAt tl t = none := by
  have hnil : (tl.filter fun e => e.1 ≤ t) = [] := by
    refine List.filter_eq_nil_iff.mpr fun e he hle => ?_
    exact absurd (h e he) (UInt64.not_lt.mpr (of_decide_eq_true hle))
  rw [holderAt, hnil]
  rfl

theorem le_of_mem_segments {b : Nat} {tl : List (UInt64 × UInt32)} {s : UInt32 × (Nat × Nat)}
    (h : s ∈ segments b tl) : ∃ e ∈ tl, s.2.1 = e.1.toNat := by
  induction tl with
  | nil => exact absurd h List.not_mem_nil
  | cons e tl ih =>
    rcases List.mem_cons.mp h with rfl | h
    · exact ⟨e, List.mem_cons_self, rfl⟩
    · obtain ⟨e', he', hs⟩ := ih h
      exact ⟨e', List.mem_cons_of_mem _ he', hs⟩

/-- The segments of a thread hold the instants at which the last entry is of
it. -/
theorem holds_segments_iff {b : Nat} {tl : List (UInt64 × UInt32)} (htl : tl.Pairwise fun c d => c.1 ≤ d.1)
    {t : UInt64} (ht : t.toNat < b) (tid : UInt32) :
    (∃ s ∈ segments b tl, s.1 = tid ∧ Holds s.2 t.toNat) ↔ holderAt tl t = some tid := by
  induction tl with
  | nil => exact iff_of_false (fun ⟨_, hs, _⟩ => absurd hs List.not_mem_nil) (fun h => by cases h)
  | cons e tl ih =>
    obtain ⟨he, htl⟩ := List.pairwise_cons.mp htl
    rw [segments, holderAt_cons]
    simp only [List.mem_cons, exists_eq_or_imp, ih htl]
    cases tl with
    | nil =>
      rw [holderAt_eq_none (by simp)]
      by_cases hle : e.1 ≤ t
      · simp [Holds, hle, ht, ← UInt64.le_iff_toNat_le]
      · simp [Holds, hle, ← UInt64.le_iff_toNat_le]
    | cons c rest =>
      by_cases hc : c.1 ≤ t
      · -- the next entry is there already
        have hsome : ∃ x, holderAt (c :: rest) t = some x := by
          rw [holderAt_cons, if_pos hc]
          cases holderAt rest t <;> exact ⟨_, rfl⟩
        obtain ⟨x, hx⟩ := hsome
        have hno : ¬ t.toNat < c.1.toNat := Nat.not_lt.mpr (UInt64.le_iff_toNat_le.mp hc)
        simp [Holds, hno, hx]
      · have hlt : t < c.1 := UInt64.not_le.mp hc
        have hnone : holderAt (c :: rest) t = none := by
          refine holderAt_eq_none fun d hd => ?_
          rcases List.mem_cons.mp hd with rfl | hd
          · exact hlt
          · exact UInt64.lt_of_lt_of_le hlt ((List.pairwise_cons.mp htl).1 d hd)
        have hyes : t.toNat < c.1.toNat := UInt64.lt_iff_toNat_lt.mp hlt
        by_cases hle : e.1 ≤ t
        · simp [Holds, hyes, hnone, hle, ← UInt64.le_iff_toNat_le]
        · simp [Holds, hnone, hle, ← UInt64.le_iff_toNat_le]

theorem apart_segments {b : Nat} {tl : List (UInt64 × UInt32)} (htl : tl.Pairwise fun c d => c.1 ≤ d.1) :
    (segments b tl).Pairwise fun s s' => s.2.2 ≤ s'.2.1 := by
  induction tl with
  | nil => exact List.Pairwise.nil
  | cons e tl ih =>
    obtain ⟨-, htl⟩ := List.pairwise_cons.mp htl
    refine List.pairwise_cons.mpr ⟨fun s hs => ?_, ih htl⟩
    obtain ⟨d, hd, hlo⟩ := le_of_mem_segments hs
    rw [hlo]
    cases tl with
    | nil => exact absurd hd List.not_mem_nil
    | cons c rest =>
      rcases List.mem_cons.mp hd with rfl | hd
      · exact Nat.le_refl _
      · exact UInt64.le_iff_toNat_le.mp ((List.pairwise_cons.mp htl).1 d hd)

/-! ## What is attributed -/

/-- What each segment adds, with its thread. -/
def heldParts (t0 t1 : UInt64) : List (UInt64 × UInt32) → List (UInt32 × UInt64)
  | [] => []
  | seg :: rest =>
      if t1 ≤ seg.1 then []
      else
        let segHi := (rest.head?.map Prod.fst).getD t1
        let lo := if t0 < seg.1 then seg.1 else t0
        let hi := if segHi < t1 then segHi else t1
        if lo < hi then (seg.2, hi - lo) :: heldParts t0 t1 rest else heldParts t0 t1 rest

theorem heldIn_eq (t0 t1 : UInt64) (tl : List (UInt64 × UInt32)) (acc : List (UInt32 × UInt64)) :
    CpuHolderLedger.heldIn t0 t1 tl acc = (heldParts t0 t1 tl).foldl (fun t c => adjust c.1 0 (· + c.2) t) acc := by
  induction tl generalizing acc with
  | nil => rfl
  | cons seg rest ih =>
    rw [CpuHolderLedger.heldIn, heldParts]
    split
    · rfl
    · dsimp only
      rw [ih]
      generalize (if t0 < seg.1 then seg.1 else t0) = lo
      generalize (if (rest.head?.map Prod.fst).getD t1 < t1 then (rest.head?.map Prod.fst).getD t1 else t1) = hi
      split <;> rfl

/-- The parts of the threads in a set are as long as their segments are in the
window. -/
theorem sum_heldParts (t0 t1 : UInt64) {tl : List (UInt64 × UInt32)} (htl : tl.Pairwise fun c d => c.1 ≤ d.1)
    (p : UInt32 → Bool) :
    (((heldParts t0 t1 tl).filter fun c => p c.1).map fun c => c.2.toNat).sum =
      (((segments t1.toNat tl).filter fun s => p s.1).map fun s => clipLen t0.toNat t1.toNat s.2).sum := by
  induction tl with
  | nil => rfl
  | cons seg rest ih =>
    obtain ⟨hseg, hrest⟩ := List.pairwise_cons.mp htl
    have hhi : (rest.head?.map Prod.fst).elim t1.toNat UInt64.toNat = ((rest.head?.map Prod.fst).getD t1).toNat := by
      cases rest.head?.map Prod.fst <;> rfl
    rw [heldParts]
    split
    · -- nothing from here on lies in the window
      rename_i hend
      refine (List.sum_eq_zero_iff_forall_eq_nat.mpr fun n hn => ?_).symm
      obtain ⟨s, hs, rfl⟩ := List.mem_map.mp hn
      obtain ⟨e, he, hlo⟩ := le_of_mem_segments (List.mem_filter.mp hs).1
      refine clipLen_eq_zero_of_le (.inr ?_)
      rw [hlo]
      rcases List.mem_cons.mp he with rfl | he
      · exact UInt64.le_iff_toNat_le.mp hend
      · exact UInt64.le_iff_toNat_le.mp (UInt64.le_trans hend (hseg e he))
    · dsimp only
      rw [segments, hhi]
      have hclip := @toNat_clip t0 t1 _ _ seg.1 ((rest.head?.map Prod.fst).getD t1) rfl rfl
      generalize (if t0 < seg.1 then seg.1 else t0) = lo at hclip ⊢
      generalize (if (rest.head?.map Prod.fst).getD t1 < t1 then (rest.head?.map Prod.fst).getD t1 else t1) = hi
        at hclip ⊢
      cases hp : p seg.2 with
      | false =>
        rw [List.filter_cons_of_neg (by simpa using hp), ← ih hrest]
        split
        · rw [List.filter_cons_of_neg (by simpa using hp)]
        · rfl
      | true =>
        rw [List.filter_cons_of_pos (by simpa using hp), List.map_cons, List.sum_cons, ← ih hrest, hclip]
        split
        · rw [List.filter_cons_of_pos (by simpa using hp), List.map_cons, List.sum_cons]
        · exact (Nat.zero_add _).symm

theorem lowerBound_le {β : Type} (before : β → Bool) (l : List β) : lowerBound before l ≤ l.length := by
  have hloop : ∀ fuel first len, lowerBoundLoop before l fuel first len ≤ first + len := by
    intro fuel
    induction fuel with
    | zero => exact fun first len => Nat.le_add_right _ _
    | succ fuel ih =>
      intro first len
      rw [lowerBoundLoop]
      split
      · exact Nat.le_add_right _ _
      · split
        · exact Nat.le_trans (ih _ _) (by omega)
        · exact Nat.le_trans (ih _ _) (by omega)
  exact Nat.le_trans (hloop l.length 0 l.length) (by omega)

/-- What lies before the segment that covers the start has no part in the
window. -/
theorem sum_segments_drop {t0 t1 : UInt64} {tl : List (UInt64 × UInt32)} (htl : tl.Pairwise fun c d => c.1 ≤ d.1)
    (p : UInt32 → Bool) {n : Nat} (hlen : n ≤ tl.length) (hn : ∀ i (h : i < tl.length), i < n → tl[i].1 < t0) :
    (((segments t1.toNat (tl.drop (n - 1))).filter fun s => p s.1).map fun s => clipLen t0.toNat t1.toNat s.2).sum =
      (((segments t1.toNat tl).filter fun s => p s.1).map fun s => clipLen t0.toNat t1.toNat s.2).sum := by
  induction tl generalizing n with
  | nil => rw [List.drop_nil]
  | cons e rest ih =>
    obtain ⟨-, hrest⟩ := List.pairwise_cons.mp htl
    match n with
    | 0 | 1 => rfl
    | n + 2 =>
      have hdrop : (e :: rest).drop (n + 2 - 1) = rest.drop (n + 1 - 1) := rfl
      have hzero : clipLen t0.toNat t1.toNat (e.1.toNat, (rest.head?.map Prod.fst).elim t1.toNat UInt64.toNat) = 0 := by
        cases rest with
        | nil => exact absurd hlen (by simp)
        | cons c rest =>
          refine clipLen_eq_zero_of_le (.inl ?_)
          exact (UInt64.lt_iff_toNat_lt.mp (hn 1 (by simp) (by omega))).le
      rw [hdrop, ih hrest (by simpa using hlen) fun i h hi => hn (i + 1) (by simpa using h) (by omega), segments]
      cases hp : p e.2 with
      | false => rw [List.filter_cons_of_neg (by simpa using hp)]
      | true =>
        rw [List.filter_cons_of_pos (by simpa using hp), List.map_cons, List.sum_cons, hzero, Nat.zero_add]

/-- How long the last entry is of a thread in `[a, b)`. -/
def heldFor (tl : List (UInt64 × UInt32)) (tid : UInt32) (a b : UInt64) : Nat :=
  ((Finset.Ico a.toNat b.toNat).filter fun t => holderAt tl (UInt64.ofNat t) = some tid).card

/-- The segments of a thread are as long in the window as the last entry is of
it. -/
theorem heldFor_eq {tl : List (UInt64 × UInt32)} (htl : tl.Pairwise fun c d => c.1 ≤ d.1) (tid : UInt32)
    (a b : UInt64) :
    heldFor tl tid a b =
      (((segments b.toNat tl).filter fun s => s.1 = tid).map fun s => clipLen a.toNat b.toNat s.2).sum := by
  have hapart : Apart (((segments b.toNat tl).filter fun s => s.1 = tid).map Prod.snd) :=
    List.pairwise_map.mpr ((apart_segments htl).filter _)
  have hcovered : (Finset.Ico a.toNat b.toNat).filter (fun t => holderAt tl (UInt64.ofNat t) = some tid) =
      covered a.toNat b.toNat (((segments b.toNat tl).filter fun s => s.1 = tid).map Prod.snd) := by
    ext t
    rw [mem_covered, Finset.mem_filter, Finset.mem_Ico]
    refine and_congr_right fun hab => ?_
    have hfit : t < 2 ^ 64 := Nat.lt_trans hab.2 b.toNat_lt
    have ht : (UInt64.ofNat t).toNat = t := UInt64.toNat_ofNat_of_lt' hfit
    rw [← holds_segments_iff htl (ht.symm ▸ hab.2), ht]
    constructor
    · rintro ⟨s, hs, rfl, hold⟩
      exact ⟨s.2, List.mem_map_of_mem (List.mem_filter.mpr ⟨hs, decide_eq_true rfl⟩), hold⟩
    · rintro ⟨iv, hiv, hold⟩
      obtain ⟨s, hs, rfl⟩ := List.mem_map.mp hiv
      obtain ⟨hmem, htid⟩ := List.mem_filter.mp hs
      exact ⟨s, hmem, of_decide_eq_true htid, hold⟩
  rw [heldFor, hcovered, card_covered hapart, List.map_map]
  rfl

/-! ## The answer -/

/-- The parts from the segment that covers the start on. -/
def windowParts (a b : UInt64) (tl : List (UInt64 × UInt32)) : List (UInt32 × UInt64) :=
  heldParts a b (tl.drop (lowerBound (fun e : UInt64 × UInt32 => e.1 < a) tl - 1))

section

variable {s : CpuHolderLedger} {cpu : UInt32} {tl : List (UInt64 × UInt32)}

theorem attributed_eq (hrow : (rowOf cpu s.own).getD [] = tl) (a b : UInt64) :
    s.attributed cpu a b = (windowParts a b tl).foldl (fun t c => adjust c.1 0 (· + c.2) t) [] := by
  subst hrow
  rw [CpuHolderLedger.attributed]
  cases rowOf cpu s.own with
  | none => rfl
  | some tl => exact heldIn_eq a b _ []

theorem sum_windowParts (htl : tl.Pairwise fun c d => c.1 ≤ d.1) (a b : UInt64) (p : UInt32 → Bool) :
    (((windowParts a b tl).filter fun c => p c.1).map fun c => c.2.toNat).sum =
      (((segments b.toNat tl).filter fun s => p s.1).map fun s => clipLen a.toNat b.toNat s.2).sum := by
  have hsplit := @lowerBound_splits _ (fun e : UInt64 × UInt32 => e.1 < a) _
    (htl.imp fun hcd hd => decide_eq_true (UInt64.lt_of_le_of_lt hcd (of_decide_eq_true hd)))
  rw [windowParts, sum_heldParts a b (htl.sublist (List.drop_sublist _ _)), sum_segments_drop htl p (lowerBound_le _ _)]
  exact fun i h hi => of_decide_eq_true (hsplit.left i h hi)

theorem sum_segments_le (htl : tl.Pairwise fun c d => c.1 ≤ d.1) (a b : UInt64) (p : UInt32 → Bool) :
    (((segments b.toNat tl).filter fun s => p s.1).map fun s => clipLen a.toNat b.toNat s.2).sum ≤
      b.toNat - a.toNat := by
  have hapart : Apart (((segments b.toNat tl).filter fun s => p s.1).map Prod.snd) :=
    List.pairwise_map.mpr ((apart_segments htl).filter _)
  have hle := sum_clipLen_le hapart a.toNat b.toNat
  rwa [List.map_map] at hle

theorem toNat_foldl_parts (htl : tl.Pairwise fun c d => c.1 ≤ d.1) (a b : UInt64) (tid : UInt32) :
    (((windowParts a b tl).filter fun c => c.1 = tid).foldl (fun n c => n + c.2) (0 : UInt64)).toNat =
      heldFor tl tid a b := by
  have hsum := sum_windowParts htl a b fun x => x = tid
  have hle := sum_segments_le htl a b fun x => x = tid
  rw [← hsum] at hle
  have hfold : ∀ l : List (UInt32 × UInt64), l.foldl (fun n c => n + c.2) (0 : UInt64) = sumNs (l.map Prod.snd) :=
    fun l => List.foldl_map.symm
  have hfit : b.toNat < 2 ^ 64 := b.toNat_lt
  rw [heldFor_eq htl, ← hsum, hfold, toNat_sumNs, List.map_map]
  exact Nat.mod_eq_of_lt (Nat.lt_of_le_of_lt hle (by omega))

theorem mem_attributed (hrow : (rowOf cpu s.own).getD [] = tl) (htl : tl.Pairwise fun c d => c.1 ≤ d.1) {a b : UInt64}
    {r : UInt32 × UInt64} (hr : r ∈ s.attributed cpu a b) : r.2.toNat = heldFor tl r.1 a b := by
  rw [attributed_eq hrow] at hr
  obtain ⟨-, hval⟩ := mem_foldl_adjust.mp hr
  rw [hval]
  exact toNat_foldl_parts htl a b r.1

theorem exists_attributed (hrow : (rowOf cpu s.own).getD [] = tl) (htl : tl.Pairwise fun c d => c.1 ≤ d.1) {a b : UInt64}
    {tid : UInt32} (hpos : heldFor tl tid a b ≠ 0) : ∃ r ∈ s.attributed cpu a b, r.1 = tid := by
  by_contra hno
  refine hpos ?_
  rw [← toNat_foldl_parts htl]
  have hnil : ((windowParts a b tl).filter fun c => c.1 = tid) = [] := by
    refine List.filter_eq_nil_iff.mpr fun c hc hkey => hno ?_
    have hmem : tid ∈ (s.attributed cpu a b).map Prod.fst := by
      rw [attributed_eq hrow]
      exact mem_keys_foldl_adjust.mpr ⟨c, hc, of_decide_eq_true hkey⟩
    obtain ⟨r, hr, hr1⟩ := List.mem_map.mp hmem
    exact ⟨r, hr, hr1⟩
  rw [hnil]
  rfl

theorem sum_attributed_le (hrow : (rowOf cpu s.own).getD [] = tl) (htl : tl.Pairwise fun c d => c.1 ≤ d.1) (a b : UInt64) :
    ((s.attributed cpu a b).map fun r => r.2.toNat).sum ≤ b.toNat - a.toNat := by
  have hkeys : ((s.attributed cpu a b).map Prod.fst).Nodup := by
    rw [attributed_eq hrow]
    exact nodup_foldl_adjust _ _ _ _
  have hall : ∀ c ∈ windowParts a b tl,
      c.1 ∈ (s.attributed cpu a b).map Prod.fst := by
    intro c hc
    rw [attributed_eq hrow]
    exact mem_keys_foldl_adjust.mpr ⟨c, hc, rfl⟩
  have hvals : ((s.attributed cpu a b).map fun r => r.2.toNat) = ((s.attributed cpu a b).map Prod.fst).map fun tid =>
      (((windowParts a b tl).filter fun c => c.1 = tid).map fun c : UInt32 × UInt64 => c.2.toNat).sum := by
    rw [List.map_map]
    refine List.map_congr_left fun r hr => ?_
    rw [mem_attributed hrow htl hr, heldFor_eq htl]
    exact (sum_windowParts htl a b fun x => x = r.1).symm
  rw [hvals, sum_filters Prod.fst (fun c => c.2.toNat) _ hkeys hall]
  have hsum := sum_windowParts htl a b fun _ => true
  have hle := sum_segments_le htl a b fun _ => true
  rw [← hsum] at hle
  simpa using hle

end

theorem mostOf_spec (windowNs : UInt64) (rows : List (UInt32 × UInt64)) :
    ((mostOf windowNs rows).tid = 0 ∧ (mostOf windowNs rows).heldNs = 0 ∨
        ((mostOf windowNs rows).tid, (mostOf windowNs rows).heldNs) ∈ rows) ∧
      ∀ r ∈ rows, r.2 ≤ (mostOf windowNs rows).heldNs := by
  induction rows using List.reverseRecOn with
  | nil => exact ⟨.inl ⟨rfl, rfl⟩, fun r hr => absurd hr List.not_mem_nil⟩
  | append_singleton rows r ih =>
    obtain ⟨hfound, hmost⟩ := ih
    rw [mostOf, List.foldl_append, ← mostOf]
    generalize mostOf windowNs rows = h at hfound hmost
    rw [List.foldl_cons, List.foldl_nil]
    split
    · rename_i hlt
      refine ⟨.inr (List.mem_append_right _ List.mem_cons_self), fun r' hr' => ?_⟩
      rcases List.mem_append.mp hr' with hr' | hr'
      · exact UInt64.le_trans (hmost r' hr') (UInt64.le_of_lt hlt)
      · rw [List.mem_singleton.mp hr']
        exact UInt64.le_refl _
    · rename_i hlt
      refine ⟨hfound.imp_right (List.mem_append_left _), fun r' hr' => ?_⟩
      rcases List.mem_append.mp hr' with hr' | hr'
      · exact hmost r' hr'
      · rw [List.mem_singleton.mp hr']
        exact UInt64.not_lt.mp hlt

/-! ## The order of the picks -/

def PickLe (c d : UInt64 × UInt32) : Prop := c.1 < d.1 ∨ c.1 = d.1 ∧ c.2 ≤ d.2

theorem filter_orderBy {β : Type} (key : β → UInt64) (v : UInt64) (l : List β) :
    (orderBy key l).filter (fun c => key c = v) = l.filter fun c => key c = v := by
  have hsub : (l.filter fun c => key c = v).Sublist (orderBy key l) := by
    refine List.sublist_mergeSort (fun a b c hab hbc => ?_) (fun a b => ?_) ?_ List.filter_sublist
    · exact decide_eq_true (UInt64.le_trans (of_decide_eq_true hab) (of_decide_eq_true hbc))
    · rw [Bool.or_eq_true, decide_eq_true_eq, decide_eq_true_eq]
      exact UInt64.le_total _ _
    · refine List.pairwise_of_forall_mem_list fun c hc d hd => decide_eq_true ?_
      rw [of_decide_eq_true (List.mem_filter.mp hc).2, of_decide_eq_true (List.mem_filter.mp hd).2]
      exact UInt64.le_refl v
  have hself := hsub.filter fun c => key c = v
  rw [List.filter_filter] at hself
  simp only [Bool.and_self] at hself
  refine (hself.eq_of_length ?_).symm
  exact (((List.mergeSort_perm l _).filter _).length_eq).symm

theorem pairwise_pickLe (row : List (UInt64 × UInt32)) :
    (orderBy Prod.fst (orderBy (fun p : UInt64 × UInt32 => p.2.toUInt64) row)).Pairwise PickLe := by
  have htime := pairwise_orderBy Prod.fst (orderBy (fun p : UInt64 × UInt32 => p.2.toUInt64) row)
  have hthread := pairwise_orderBy (fun p : UInt64 × UInt32 => p.2.toUInt64) row
  have hsame := fun v => filter_orderBy Prod.fst v (orderBy (fun p : UInt64 × UInt32 => p.2.toUInt64) row)
  generalize orderBy Prod.fst (orderBy (fun p : UInt64 × UInt32 => p.2.toUInt64) row) = tl at htime hsame ⊢
  refine List.pairwise_iff_forall_sublist.mpr fun {c d} hcd => ?_
  have hle : c.1 ≤ d.1 := List.pairwise_iff_forall_sublist.mp htime hcd
  rcases UInt64.lt_or_eq_of_le hle with hlt | heq
  · exact .inl hlt
  · have hboth : [c, d].Sublist (tl.filter fun p => p.1 = d.1) := by
      have hkeep : [c, d].filter (fun p => p.1 = d.1) = [c, d] := by simp [heq]
      exact hkeep ▸ hcd.filter _
    rw [hsame] at hboth
    have htid : c.2.toUInt64 ≤ d.2.toUInt64 :=
      List.pairwise_iff_forall_sublist.mp hthread (hboth.trans List.filter_sublist)
    refine .inr ⟨heq, ?_⟩
    rw [UInt64.le_iff_toNat_le, UInt32.toNat_toUInt64, UInt32.toNat_toUInt64] at htid
    exact UInt32.le_iff_toNat_le.mpr htid

theorem rel_of_getLast? {α : Type} {r : α → α → Prop} (hrefl : ∀ a, r a a) {l : List α} (hl : l.Pairwise r) {a : α}
    (h : l.getLast? = some a) : a ∈ l ∧ ∀ c ∈ l, r c a := by
  obtain ⟨front, rfl⟩ := List.getLast?_eq_some_iff.mp h
  refine ⟨List.mem_append_right _ List.mem_cons_self, fun c hc => ?_⟩
  rcases List.mem_append.mp hc with hc | hc
  · exact (List.pairwise_append.mp hl).2.2 c hc a List.mem_cons_self
  · exact List.mem_singleton.mp hc ▸ hrefl a

/-- The picks of some events, as the ledger keeps them. -/
def pickRow (es : List SchedEvent) : List (UInt64 × UInt32) :=
  (es.filter fun e => e.isPick).map fun e => (e.timestampNs, e.tid)

/-- Who runs at an instant is the last entry of the sorted row if and only if
the CPU is not idle and of the picks of that time the last is the highest. -/
theorem runningAt_eq_holderAt_iff {es : List SchedEvent} (hes : es.Pairwise fun a b => a.timestampNs ≤ b.timestampNs)
    {tl : List (UInt64 × UInt32)} (hperm : tl.Perm (pickRow es)) (htl : tl.Pairwise PickLe) (t : UInt64) :
    runningAt es t = holderAt tl t ↔ ∀ p, lastPick es t = some p →
      cpuIdleAt es t = false ∧ ∀ q ∈ es, q.isPick → q.timestampNs = p.timestampNs → q.tid ≤ p.tid := by
  have hentry : ∀ q ∈ es, q.isPick → q.timestampNs ≤ t →
      (q.timestampNs, q.tid) ∈ tl.filter fun e => e.1 ≤ t := by
    intro q hq hpick hqt
    refine List.mem_filter.mpr ⟨hperm.mem_iff.mpr ?_, decide_eq_true hqt⟩
    exact List.mem_map.mpr ⟨q, List.mem_filter.mpr ⟨hq, decide_eq_true hpick⟩, rfl⟩
  have hpickOf : ∀ c ∈ tl.filter fun e => e.1 ≤ t, c.1 ≤ t ∧
      ∃ q ∈ es, q.isPick ∧ (q.timestampNs, q.tid) = c := by
    intro c hc
    obtain ⟨hmem, hle⟩ := List.mem_filter.mp hc
    obtain ⟨q, hq, hqc⟩ := List.mem_map.mp (hperm.mem_iff.mp hmem)
    obtain ⟨hqes, hpick⟩ := List.mem_filter.mp hq
    exact ⟨of_decide_eq_true hle, q, hqes, of_decide_eq_true hpick, hqc⟩
  cases hlast : lastPick es t with
  | none =>
    have hnone : ∀ q ∈ es, q.isPick → ¬ q.timestampNs ≤ t := by
      intro q hq hpick hqt
      have hnil := List.getLast?_eq_none_iff.mp hlast
      exact absurd (List.mem_filter.mpr ⟨hq, decide_eq_true ⟨hpick, hqt⟩⟩) (hnil ▸ List.not_mem_nil)
    have hempty : (tl.filter fun e => e.1 ≤ t) = [] := by
      refine List.eq_nil_iff_forall_not_mem.mpr fun c hc => ?_
      obtain ⟨hle, q, hq, hpick, rfl⟩ := hpickOf c hc
      exact hnone q hq hpick hle
    refine iff_of_true ?_ fun p hp => by cases hp
    rw [runningAt, hlast, holderAt, hempty]
    exact ite_self none
  | some p =>
    obtain ⟨hpmem, hpmax⟩ := rel_of_getLast? (fun a => UInt64.le_refl a.timestampNs) (hes.filter _) hlast
    obtain ⟨hpes, hpprop⟩ := List.mem_filter.mp hpmem
    obtain ⟨hppick, hpt⟩ := of_decide_eq_true hpprop
    -- the entry that stands last in the sorted row
    obtain ⟨c, hc⟩ : ∃ c, (tl.filter fun e => e.1 ≤ t).getLast? = some c :=
      Option.isSome_iff_exists.mp (List.getLast?_isSome.mpr (List.ne_nil_of_mem (hentry p hpes hppick hpt)))
    obtain ⟨hcmem, hcmax⟩ := rel_of_getLast? (fun a => .inr ⟨rfl, UInt32.le_refl _⟩) (htl.filter _) hc
    obtain ⟨hct, q, hq, hqpick, rfl⟩ := hpickOf c hcmem
    have hqp : q.timestampNs ≤ p.timestampNs := hpmax q (List.mem_filter.mpr ⟨hq, decide_eq_true ⟨hqpick, hct⟩⟩)
    have hsame : p.timestampNs = q.timestampNs ∧ p.tid ≤ q.tid := by
      rcases hcmax _ (hentry p hpes hppick hpt) with hlt | heq
      · exact absurd hqp (UInt64.not_le.mpr hlt)
      · exact heq
    have hholder : holderAt tl t = some q.tid := by
      rw [holderAt, hc]
      rfl
    rw [hholder, runningAt, hlast]
    constructor
    · intro heq p' hp'
      obtain rfl := Option.some_inj.mp hp'
      cases hidle : cpuIdleAt es t with
      | true =>
        rw [hidle] at heq
        cases heq
      | false =>
        rw [hidle] at heq
        have htid : p.tid = q.tid := Option.some_inj.mp heq
        refine ⟨rfl, fun q' hq' hpick' hts' => ?_⟩
        have hle' : q'.timestampNs ≤ t := hts'.symm ▸ hpt
        rcases hcmax _ (hentry q' hq' hpick' hle') with hlt | ⟨-, hle⟩
        · exact absurd (hts'.trans hsame.1) (UInt64.ne_of_lt hlt)
        · exact htid.symm ▸ hle
    · intro h
      obtain ⟨hidle, hmost⟩ := h p rfl
      have htid : q.tid = p.tid := UInt32.le_antisymm (hmost q hq hqpick hsame.1.symm) hsame.2
      rw [hidle, htid]
      rfl

/-! ## The ledger of a trace -/

section

variable {F : Type} (env : ReportEnv F)

theorem learn_own (s : CpuHolderLedger) (tid : UInt32) (comm : List UInt8) : (s.learn env tid comm).own = s.own := by
  rw [CpuHolderLedger.learn]
  split
  · rfl
  · split <;> rfl

theorem learnAuthoritative_own (s : CpuHolderLedger) (tid : UInt32) (comm : List UInt8) :
    (s.learnAuthoritative env tid comm).own = s.own := by
  rw [CpuHolderLedger.learnAuthoritative]
  split <;> rfl

theorem learnRing_own (s : CpuHolderLedger) (e : RingEvent) : (s.learnRing env e).own = s.own := by
  rw [CpuHolderLedger.learnRing]
  cases e.type with
  | exit => rfl
  | fork =>
    dsimp only
    split
    · rw [learn_own, learn_own]
    · rw [learn_own]
  | _ =>
    dsimp only
    split
    · rw [learnAuthoritative_own, learnAuthoritative_own]
    · rw [learnAuthoritative_own]

theorem analyze_own (trace : List TraceRecord) :
    (analyze env trace).sub.holder.own =
      ((schedEvents trace).filter fun e => e.isPick).foldl (fun t e => push e.cpu (e.timestampNs, e.tid) t) [] := by
  induction trace using List.reverseRecOn with
  | nil => rfl
  | append_singleton trace r ih =>
    have hstep : (analyze env (trace ++ [r])).sub.holder = (analyze env trace).sub.holder.fold env r := by
      rw [analyze_concat]
      cases r <;> rfl
    rw [hstep, schedEvents_concat, List.filter_append, List.foldl_append, ← ih]
    generalize (analyze env trace).sub.holder = s
    cases r with
    | sched e =>
      rw [TraceRecord.schedEvent?, Option.toList_some]
      by_cases hpick : e.isPick
      · rw [List.filter_cons_of_pos (by simpa using hpick)]
        exact congrArg CpuHolderLedger.own (if_pos hpick)
      · rw [List.filter_cons_of_neg (by simpa using hpick)]
        exact congrArg CpuHolderLedger.own (if_neg hpick)
    | kstrand e => exact learn_own env s _ _
    | waitstack tid comm => exact learn_own env s _ _
    | ring e => exact learnRing_own env s e
    | sync e => cases e <;> first | rfl | exact learn_own env s _ _
    | _ => rfl

theorem timeline_eq (trace : List TraceRecord) (cpu : UInt32) :
    (rowOf cpu (substrate env trace).holder.own).getD [] =
      orderBy Prod.fst (orderBy (fun p : UInt64 × UInt32 => p.2.toUInt64) (pickRow (cpuEvents cpu trace))) := by
  have hrow : (rowOf cpu (analyze env trace).sub.holder.own).getD [] = pickRow (cpuEvents cpu trace) := by
    rw [analyze_own, getD_rowOf_foldl_push, pickRow, cpuEvents, List.filter_filter, List.filter_filter]
    refine congrArg (List.map _) (List.filter_congr fun e _ => ?_)
    simp only [← Bool.decide_and]
    refine decide_eq_decide.mpr ⟨fun h => ⟨h.2, .inl h.2, h.1⟩, fun h => ⟨h.2.2, h.1⟩⟩
  rw [← hrow, substrate, SchedSubstrate.finalize, CpuHolderLedger.finalize]
  dsimp only
  rw [rowOf_mapRows fun row : List (UInt64 × UInt32) =>
    orderBy Prod.fst (orderBy (fun p : UInt64 × UInt32 => p.2.toUInt64) row)]
  cases rowOf cpu (analyze env trace).sub.holder.own with
  | none => exact ((congrArg (orderBy Prod.fst) List.mergeSort_nil).trans List.mergeSort_nil).symm
  | some row => rfl

theorem timeline_spec (trace : List TraceRecord) (cpu : UInt32) :
    ∃ tl, (rowOf cpu (substrate env trace).holder.own).getD [] = tl ∧ tl.Perm (pickRow (cpuEvents cpu trace)) ∧
      tl.Pairwise PickLe ∧ tl.Pairwise fun c d => c.1 ≤ d.1 := by
  refine ⟨_, timeline_eq env trace cpu, (List.mergeSort_perm _ _).trans (List.mergeSort_perm _ _),
    pairwise_pickLe _, pairwise_orderBy _ _⟩

end

section

variable {F : Type} {env : ReportEnv F} {trace : List TraceRecord} {cpu : UInt32}

/-- An answer is a thread that the timeline gives most of the window, with the
time it gives it. -/
theorem answers_heldFor {s : CpuHolderLedger} {tl : List (UInt64 × UInt32)} (hrow : (rowOf cpu s.own).getD [] = tl)
    (htl : tl.Pairwise fun c d => c.1 ≤ d.1) {a b : UInt64} {h : Holder} (hans : s.Answers cpu a b h) :
    h.heldNs.toNat = heldFor tl h.tid a b ∧ ∀ tid, heldFor tl tid a b ≤ h.heldNs.toNat := by
  rw [CpuHolderLedger.Answers] at hans
  split at hans
  · rename_i hba
    have hempty : Finset.Ico a.toNat b.toNat = ∅ := Finset.Ico_eq_empty_of_le (UInt64.le_iff_toNat_le.mp hba)
    have hzero : ∀ tid, heldFor tl tid a b = 0 := fun tid => by
      rw [heldFor, hempty]
      rfl
    rw [hans]
    exact ⟨(hzero _).symm, fun tid => (hzero tid).le⟩
  · obtain ⟨rows, hperm, rfl⟩ := hans
    obtain ⟨hfound, hmost⟩ := mostOf_spec (b - a) rows
    have hle : ∀ tid, heldFor tl tid a b ≤ (mostOf (b - a) rows).heldNs.toNat := by
      intro tid
      by_cases hpos : heldFor tl tid a b = 0
      · rw [hpos]
        exact Nat.zero_le _
      · obtain ⟨r, hr, rfl⟩ := exists_attributed hrow htl hpos
        rw [← mem_attributed hrow htl hr]
        exact UInt64.le_iff_toNat_le.mp (hmost r (hperm.mem_iff.mpr hr))
    refine ⟨?_, hle⟩
    rcases hfound with ⟨htid, hheld⟩ | hmem
    · have h0 := hle (mostOf (b - a) rows).tid
      rw [hheld] at h0 ⊢
      exact (Nat.le_zero.mp h0).symm
    · exact mem_attributed hrow htl (hperm.mem_iff.mp hmem)

theorem exists_answer (s : CpuHolderLedger) (cpu : UInt32) (a b : UInt64) : ∃ h, s.Answers cpu a b h :=
  ⟨s.dominant cpu a b, answers_dominant s cpu a b⟩

theorem ranIn_eq_heldFor {es : List SchedEvent} {tl : List (UInt64 × UInt32)} {a b : UInt64}
    (h : ∀ t, a ≤ t → t < b → runningAt es t = holderAt tl t) (tid : UInt32) : ranIn es tid a b = heldFor tl tid a b := by
  rw [ranIn, heldFor]
  refine congrArg Finset.card (Finset.filter_congr fun t ht => ?_)
  obtain ⟨hat, htb⟩ := Finset.mem_Ico.mp ht
  have hfit : (UInt64.ofNat t).toNat = t := UInt64.toNat_ofNat_of_lt' (Nat.lt_trans htb b.toNat_lt)
  rw [h _ (UInt64.le_iff_toNat_le.mpr (hfit.symm ▸ hat)) (UInt64.lt_iff_toNat_lt.mpr (hfit.symm ▸ htb))]

theorem card_instant {t b : UInt64} (htb : t < b) (q : UInt64 → Option UInt32) (tid : UInt32) :
    ((Finset.Ico t.toNat (t + 1).toNat).filter fun n => q (UInt64.ofNat n) = some tid).card =
      if q t = some tid then 1 else 0 := by
  have hfit : t.toNat + 1 < 2 ^ 64 := Nat.lt_of_le_of_lt (UInt64.lt_iff_toNat_lt.mp htb) b.toNat_lt
  have hnext : (t + 1).toNat = t.toNat + 1 := by
    rw [UInt64.toNat_add]
    exact Nat.mod_eq_of_lt hfit
  rw [hnext, Nat.Ico_succ_singleton, Finset.filter_singleton, UInt64.ofNat_toNat]
  split <;> rfl

/-- If the answer is right in a window of one instant, the ledger has the
thread that runs then. -/
theorem runningAt_of_exact {es : List SchedEvent} {s : CpuHolderLedger} {tl : List (UInt64 × UInt32)}
    (hrow : (rowOf cpu s.own).getD [] = tl) (htl : tl.Pairwise fun c d => c.1 ≤ d.1) {t b : UInt64} (htb : t < b)
    (h : HolderExact es s cpu t (t + 1)) : runningAt es t = holderAt tl t := by
  have hran : ∀ tid, ranIn es tid t (t + 1) = if runningAt es t = some tid then 1 else 0 :=
    card_instant htb (runningAt es)
  have hheld : ∀ tid, heldFor tl tid t (t + 1) = if holderAt tl t = some tid then 1 else 0 :=
    card_instant htb (holderAt tl)
  obtain ⟨ans, hans⟩ := exists_answer s cpu t (t + 1)
  obtain ⟨hval, hmost⟩ := answers_heldFor hrow htl hans
  have hright := h.held ans hans
  rw [hran, hval, hheld] at hright
  cases hholder : holderAt tl t with
  | none =>
    cases hrun : runningAt es t with
    | none => rfl
    | some tid =>
      have hle := h.most ans hans tid
      rw [hran, if_pos hrun, hval, hheld, hholder, if_neg (Option.some_ne_none _).symm] at hle
      exact absurd hle (Nat.not_succ_le_zero 0)
  | some tid =>
    have hone := hmost tid
    rw [hheld, if_pos hholder, hval, hheld] at hone
    have hans' : holderAt tl t = some ans.tid := by
      by_contra hno
      rw [if_neg hno] at hone
      exact Nat.not_succ_le_zero 0 hone
    rw [if_pos hans'] at hright
    have hrun : runningAt es t = some ans.tid := by
      by_contra hno
      rw [if_neg hno] at hright
      exact absurd hright (Nat.succ_ne_zero 0)
    rw [hrun, ← hans', hholder]

theorem steady_of_exact (hes : (cpuEvents cpu trace).Pairwise fun a b => a.timestampNs ≤ b.timestampNs)
    (h : ∀ a b, HolderExact (cpuEvents cpu trace) (substrate env trace).holder cpu a b) :
    Steady (cpuEvents cpu trace) := by
  obtain ⟨tl, hrow, hperm, hpick, htl⟩ := timeline_spec env trace cpu
  intro t b htb
  exact (runningAt_eq_holderAt_iff hes hperm hpick t).mp (runningAt_of_exact hrow htl htb (h t (t + 1)))

/-- **The holder of a CPU** is told right in every window if and only if the CPU
is not idle after a pick and the last of simultaneous picks is of the highest
thread. -/
theorem dominant_iff (env : ReportEnv F) (trace : List TraceRecord) (cpu : UInt32)
    (hes : (cpuEvents cpu trace).Pairwise fun a b => a.timestampNs ≤ b.timestampNs) :
    (∀ a b, HolderExact (cpuEvents cpu trace) (substrate env trace).holder cpu a b) ↔
      Steady (cpuEvents cpu trace) := by
  refine ⟨steady_of_exact hes, fun h a b => ?_⟩
  obtain ⟨tl, hrow, hperm, hpick, htl⟩ := timeline_spec env trace cpu
  have hran : ∀ tid, ranIn (cpuEvents cpu trace) tid a b = heldFor tl tid a b := ranIn_eq_heldFor fun t _ htb =>
    (runningAt_eq_holderAt_iff hes hperm hpick t).mpr (h t b htb)
  refine ⟨fun ans hans => ?_, fun ans hans tid => ?_, sum_attributed_le hrow htl a b⟩
  · rw [hran]
    exact (answers_heldFor hrow htl hans).1
  · rw [hran]
    exact (answers_heldFor hrow htl hans).2 tid

/-- The CPU is idle, thread 4018 comes on it, and thread 4019 next. -/
def idleThenPicks : List TraceRecord :=
  [schedAt .cpuIdle 200 1 0, schedAt .cpuIdle 900 0 0, schedAt .switchIn 1000 0 0,
    .sched { op := .pick, cpu := 0, pid := 4019, secondaryPid := 0, lastCpu := 0, subIdx := 0, freqMhz := 0, score := 0,
             runtimeNs := 0, budgetNs := 0, timestampNs := 4000 }]

theorem dominant_iff_one :
    (∀ a b, HolderExact (cpuEvents 0 idleThenPicks) (substrate exactEnv idleThenPicks).holder 0 a b) ↔
      Steady (cpuEvents 0 idleThenPicks) :=
  dominant_iff exactEnv idleThenPicks 0 (by decide)

/-- A task comes on the CPU, which goes idle 1 µs later: all that follows is
counted for the task. -/
theorem not_holderExact_idle :
    ¬ ∀ (F : Type) (env : ReportEnv F) (trace : List TraceRecord) (cpu : UInt32),
      (cpuEvents cpu trace).Pairwise (fun a b => a.timestampNs ≤ b.timestampNs) →
        ∀ a b, HolderExact (cpuEvents cpu trace) (substrate env trace).holder cpu a b := by
  intro h
  have hsteady := @steady_of_exact Rat exactEnv [schedAt .switchIn 1000 0 0, schedAt .cpuIdle 2000 1 0] 0 (by decide)
    (h Rat exactEnv _ 0 (by decide))
  exact absurd (hsteady 3000 4000 (by decide) _ rfl).1 (by decide)

end

end Montauk.Tools
