import Montauk.Text.ExactCount

/-!
# Counting windows within `k` mismatches

The fuzzy face counts the windows with at most `k` mismatching bytes.
`scan_kmismatch` tries every window; `scan_kmismatch_pre` cuts the pattern
into `k + 1` pieces, walks the hits of each piece's rarest byte and tries
the windows around them, each once.

A window with at most `k` mismatches agrees with one of the pieces
(`exists_clean_piece`), so the walk for that piece meets it; `PreScan.Counts`
says that the count is the number of good windows among those seen.
-/

namespace Montauk

/-! ## The scans -/

def scanKmismatch (hay pat : List UInt8) (k : Nat) (icase : Bool) : Nat :=
  if pat.length = 0 ∨ hay.length < pat.length then 0
  else (List.range (hay.length + 1 - pat.length)).foldl (fun count i =>
    if mismatches icase k 0 (hay.drop i) pat ≤ k then count + 1 else count) 0

/-- `seen` and `count` of `scan_kmismatch_pre`. -/
structure PreScan where
  seen : Nat → Bool
  count : Nat

/-- The body of the inner loop at a hit `hp` of the probe byte. The compare
there does not fold, as `fold` does not without `icase`. -/
def PreScan.tryHit (hay pat : List UInt8) (k roff : Nat) (s : PreScan) (hp : Nat) : PreScan :=
  if roff ≤ hp ∧ hp - roff + pat.length ≤ hay.length then
    let p := hp - roff
    if s.seen p then s
    else
      { seen := Function.update s.seen p true
        count :=
          if mismatches false k 0 (hay.drop p) pat ≤ k then s.count + 1 else s.count }
  else s

/-- The rarest byte of the piece `[ps, pe)`, the first among equals. -/
def pieceRarest (pat : List UInt8) (hist : UInt8 → Nat) (ps pe : Nat) : Nat :=
  ((List.range' (ps + 1) (pe - (ps + 1))).foldl
    (fun (roff, bf) i =>
      if hist (pat.getD i 0) < bf then (i, hist (pat.getD i 0)) else (roff, bf))
    (ps, hist (pat.getD ps 0))).1

/-- Where piece `pc` of `pieces` begins. The product fits `size_t` for every
pattern that compiles. -/
def pieceStart (pat : List UInt8) (pieces pc : Nat) : Nat := pc * pat.length / pieces

/-- The hits of one piece's probe byte, in the whole input. -/
def PreScan.piece (hay pat : List UInt8) (k : Nat) (hist : UInt8 → Nat) (s : PreScan)
    (pc : Nat) : Option PreScan :=
  let ps := pieceStart pat (k + 1) pc
  let pe := pieceStart pat (k + 1) (pc + 1)
  if pe = ps then some s
  else
    let roff := pieceRarest pat hist ps pe
    eachHit hay (pat.getD roff 0) (fun s hp => pure (s.tryHit hay pat k roff hp))
      (hay.length + 1) 0 s

/-- `scan_kmismatch_pre`; `alloc` is whether the allocation succeeds, and an
inner `none` is the `(size_t)-1` it returns when not. -/
def scanKmismatchPre (alloc : Bool) (hay pat : List UInt8) (k : Nat) : Option (Option Nat) :=
  if pat.length = 0 ∨ hay.length < pat.length then some (some 0)
  else if pat.length ≤ k then some (some (hay.length - pat.length + 1))
  else if !alloc then some none
  else do
    let hist ← sampleHist hay
    let s ← (List.range (k + 1)).foldlM (PreScan.piece hay pat k hist) ⟨fun _ => false, 0⟩
    some (some s.count)

/-- At most `k` bytes of the window at `i` differ from the pattern. -/
def within (hay pat : List UInt8) (k i : Nat) : Bool :=
  decide ((List.zip (slice hay i (i + pat.length)) pat).countP (fun q => q.1 != q.2) ≤ k)

/-- The number of windows with at most `k` mismatching bytes. -/
def windowsWithin (hay pat : List UInt8) (k : Nat) : Nat :=
  (List.range (hay.length + 1 - pat.length)).countP (within hay pat k)

/-! ## A window's mismatches -/

theorem hamming_exact (u v : List UInt8) :
    hamming false u v = (List.zip u v).countP fun q => q.1 != q.2 := by
  have hfold : ∀ c, fold c false = c := fun c => by simp [fold]
  simp only [hamming, hfold]

/-- The early exit of the mismatch loop does not change the verdict. -/
theorem mismatches_within {hay pat : List UInt8} {k i : Nat} (hi : i + pat.length ≤ hay.length) :
    decide (mismatches false k 0 (hay.drop i) pat ≤ k) = within hay pat k i := by
  have hlen : pat.length ≤ (hay.drop i).length := by
    rw [List.length_drop]
    omega
  rw [within, ← hamming_exact, slice_add, hamming_take, decide_eq_decide,
    mismatches_le_iff _ _ _ hlen (Nat.zero_le k), Nat.zero_add]

theorem hamming_append {icase : Bool} :
    ∀ {u v : List UInt8} (u' v' : List UInt8), u.length = v.length →
      hamming icase (u ++ u') (v ++ v') = hamming icase u v + hamming icase u' v'
  | [], [], u', v', _ => by simp [hamming]
  | a :: u, b :: v, u', v', h => by
      rw [List.cons_append, List.cons_append, hamming_cons, hamming_cons,
        hamming_append u' v' (Nat.succ.inj h)]
      omega

theorem getElem?_of_hamming_zero :
    ∀ {u v : List UInt8}, u.length = v.length → hamming false u v = 0 → u = v
  | [], [], _, _ => rfl
  | a :: u, b :: v, hlen, h => by
      rw [hamming_cons] at h
      have hfold : ∀ c, fold c false = c := fun c => by simp [fold]
      have hab : a = b := by
        by_contra hne
        rw [if_neg (by rw [hfold, hfold]; exact hne)] at h
        omega
      rw [hab, getElem?_of_hamming_zero (Nat.succ.inj hlen) (by omega)]

/-! ## The pigeonhole -/

/-- The pieces of the pattern, cut at `cut 0 = 0`, `cut 1`, ..: when each of
the first `n` pieces holds a mismatch, there are at least `n`. -/
theorem pieces_le_hamming {u v : List UInt8} (hlen : u.length = v.length) {cut : Nat → Nat}
    (hmono : ∀ pc, cut pc ≤ cut (pc + 1)) :
    ∀ n, cut n ≤ v.length →
      (∀ pc < n, hamming false (slice u (cut pc) (cut (pc + 1))) (slice v (cut pc) (cut (pc + 1)))
        ≠ 0) →
      n ≤ hamming false (u.take (cut n)) (v.take (cut n))
  | 0, _, _ => Nat.zero_le _
  | n + 1, hn, hall => by
      have hcut := hmono n
      have ih := pieces_le_hamming hlen hmono n (by omega) fun pc hpc => hall pc (by omega)
      have hlast := hall n (by omega)
      have hu : u.take (cut n) ++ slice u (cut n) (cut (n + 1)) = u.take (cut (n + 1)) :=
        take_append_slice hcut
      have hv : v.take (cut n) ++ slice v (cut n) (cut (n + 1)) = v.take (cut (n + 1)) :=
        take_append_slice hcut
      rw [← hu, ← hv, hamming_append _ _ (by rw [List.length_take, List.length_take, hlen])]
      omega

theorem pieceStart_lt {pat : List UInt8} {k : Nat} (hk : k < pat.length) (pc : Nat) :
    pieceStart pat (k + 1) pc < pieceStart pat (k + 1) (pc + 1) := by
  have hstep : (pc * pat.length + (k + 1)) / (k + 1) ≤ (pc + 1) * pat.length / (k + 1) := by
    refine Nat.div_le_div_right ?_
    rw [Nat.succ_mul]
    omega
  rw [Nat.add_div_right _ (Nat.succ_pos k)] at hstep
  exact hstep

theorem pieceStart_last (pat : List UInt8) (k : Nat) : pieceStart pat (k + 1) (k + 1) = pat.length :=
  Nat.mul_div_cancel_left _ (Nat.succ_pos k)

theorem pieceStart_le {pat : List UInt8} {k pc : Nat} (hpc : pc ≤ k + 1) :
    pieceStart pat (k + 1) pc ≤ pat.length := by
  rw [← pieceStart_last pat k]
  exact Nat.div_le_div_right (Nat.mul_le_mul_right _ hpc)

/-- **The pigeonhole**: a window with at most `k` mismatches agrees with the
pattern on one of its `k + 1` pieces. -/
theorem exists_clean_piece {hay pat : List UInt8} {k i : Nat} (hk : k < pat.length)
    (hi : i + pat.length ≤ hay.length) (h : within hay pat k i = true) :
    ∃ pc < k + 1, ∀ d, pieceStart pat (k + 1) pc ≤ d → d < pieceStart pat (k + 1) (pc + 1) →
      hay[i + d]? = some (pat.getD d 0) := by
  have hlen : (slice hay i (i + pat.length)).length = pat.length := by
    rw [length_slice hi]
    omega
  have hle : hamming false (slice hay i (i + pat.length)) pat ≤ k := by
    rw [hamming_exact]
    exact of_decide_eq_true h
  by_contra hno
  have hcount := pieces_le_hamming hlen (fun pc => (pieceStart_lt hk pc).le) (k + 1)
    (pieceStart_le le_rfl) fun pc hpc hzero => hno ⟨pc, hpc, fun d hd1 hd2 => ?_⟩
  · rw [pieceStart_last, List.take_of_length_le hlen.le, List.take_of_length_le le_rfl] at hcount
    omega
  · have hend : pieceStart pat (k + 1) (pc + 1) ≤ pat.length := pieceStart_le hpc
    have heq := getElem?_of_hamming_zero
      (by rw [length_slice (by omega), length_slice hend]) hzero
    have hget : ∀ w : List UInt8,
        (slice w (pieceStart pat (k + 1) pc) (pieceStart pat (k + 1) (pc + 1)))[
          d - pieceStart pat (k + 1) pc]? = w[d]? := by
      intro w
      rw [slice, List.getElem?_take_of_lt (by omega), List.getElem?_drop]
      congr 1
      omega
    have hd := hget (slice hay i (i + pat.length))
    rw [heq, hget pat, slice_add, List.getElem?_take_of_lt (by omega), List.getElem?_drop,
      List.getElem?_eq_getElem (by omega)] at hd
    rw [← hd, List.getD_eq_getElem?_getD, List.getElem?_eq_getElem (by omega)]
    rfl

theorem pieceRarest_bounds (pat : List UInt8) {ps pe : Nat} (hist : UInt8 → Nat) (h : ps < pe) :
    ps ≤ pieceRarest pat hist ps pe ∧ pieceRarest pat hist ps pe < pe := by
  refine foldl_pick (P := fun i => ps ≤ i ∧ i < pe) ?_ _ _ (fun i hi => ?_) ⟨le_rfl, h⟩
  · rintro ⟨roff, bf⟩ i
    dsimp only
    split
    · exact Or.inr rfl
    · exact Or.inl rfl
  · rw [List.mem_range'_1] at hi
    omega

/-! ## The windows seen -/

/-- The count is that of the good windows among those seen. -/
def PreScan.Counts (hay pat : List UInt8) (k : Nat) (s : PreScan) : Prop :=
  s.count = (List.range (hay.length + 1 - pat.length)).countP
    fun p => s.seen p && within hay pat k p

theorem countP_update {f g : Nat → Bool} {a : Nat} (hf : f a = false) :
    ∀ {l : List Nat}, l.Nodup → a ∈ l →
      l.countP (fun x => Function.update f a true x && g x)
        = l.countP (fun x => f x && g x) + if g a then 1 else 0
  | [], _, ha => absurd ha List.not_mem_nil
  | x :: l, hnd, ha => by
      obtain ⟨hx, hnd'⟩ := List.nodup_cons.mp hnd
      rw [List.countP_cons, List.countP_cons]
      by_cases hxa : x = a
      · subst hxa
        have hrest : l.countP (fun y => Function.update f x true y && g y)
            = l.countP fun y => f y && g y := by
          refine List.countP_congr fun y hy => ?_
          rw [Function.update_of_ne fun h => hx (by rw [← h]; exact hy)]
        rw [hrest, Function.update_self, Bool.true_and, hf, Bool.false_and,
          if_neg Bool.false_ne_true, Nat.add_zero]
      · have hal : a ∈ l := (List.mem_cons.mp ha).resolve_left fun h => hxa h.symm
        rw [countP_update hf hnd' hal, Function.update_of_ne hxa]
        omega

variable {hay pat : List UInt8} {k : Nat}

theorem PreScan.tryHit_counts {s : PreScan} (h : s.Counts hay pat k) (roff hp : Nat) :
    (s.tryHit hay pat k roff hp).Counts hay pat k := by
  rw [PreScan.tryHit]
  split
  · rename_i hroom
    dsimp only
    split
    · exact h
    · rename_i hseen
      have hmem : hp - roff ∈ List.range (hay.length + 1 - pat.length) :=
        List.mem_range.mpr (by omega)
      rw [PreScan.Counts, countP_update (by simpa using hseen) List.nodup_range hmem, ← h,
        ← mismatches_within hroom.2]
      by_cases hgood : mismatches false k 0 (hay.drop (hp - roff)) pat ≤ k
      · rw [if_pos hgood, if_pos (by simpa using hgood)]
      · rw [if_neg hgood, if_neg (by simpa using hgood)]
        rfl
  · exact h

theorem PreScan.tryHit_seen {s : PreScan} {roff hp p : Nat} (h : s.seen p = true) :
    (s.tryHit hay pat k roff hp).seen p = true := by
  rw [PreScan.tryHit]
  split
  · dsimp only
    split
    · exact h
    · dsimp only
      rw [Function.update_apply]
      split
      · rfl
      · exact h
  · exact h

theorem PreScan.tryHit_marks {s : PreScan} {roff p : Nat} (hroom : p + pat.length ≤ hay.length) :
    (s.tryHit hay pat k roff (p + roff)).seen p = true := by
  rw [PreScan.tryHit, Nat.add_sub_cancel, if_pos ⟨by omega, hroom⟩]
  dsimp only
  split
  · rename_i hseen
    exact hseen
  · exact Function.update_self ..

/-- A walk over hits keeps the count and marks the window of each hit. -/
theorem PreScan.foldl_tryHit (hay : List UInt8) (roff : Nat) :
    ∀ (l : List Nat) (s : PreScan), s.Counts hay pat k →
      (l.foldl (PreScan.tryHit hay pat k roff) s).Counts hay pat k
        ∧ (∀ p, s.seen p = true → (l.foldl (PreScan.tryHit hay pat k roff) s).seen p = true)
        ∧ ∀ p, p + roff ∈ l → p + pat.length ≤ hay.length →
            (l.foldl (PreScan.tryHit hay pat k roff) s).seen p = true
  | [], s, h => ⟨h, fun _ hp => hp, fun _ hp => absurd hp List.not_mem_nil⟩
  | hp :: l, s, h => by
      obtain ⟨h1, h2, h3⟩ := PreScan.foldl_tryHit hay roff l _ (s.tryHit_counts h roff hp)
      refine ⟨h1, fun p hs => h2 p (PreScan.tryHit_seen hs), fun p hmem hroom => ?_⟩
      rcases List.mem_cons.mp hmem with rfl | hmem
      · exact h2 p (PreScan.tryHit_marks hroom)
      · exact h3 p hmem hroom

theorem PreScan.piece_spec (hk : k < pat.length) (hist : UInt8 → Nat) {s : PreScan}
    (h : s.Counts hay pat k) (pc : Nat) :
    ∃ s', s.piece hay pat k hist pc = some s' ∧ s'.Counts hay pat k
      ∧ (∀ p, s.seen p = true → s'.seen p = true)
      ∧ ∀ p, p + pat.length ≤ hay.length →
          (∀ d, pieceStart pat (k + 1) pc ≤ d → d < pieceStart pat (k + 1) (pc + 1) →
            hay[p + d]? = some (pat.getD d 0)) → s'.seen p = true := by
  have hlt := pieceStart_lt hk pc
  obtain ⟨hr1, hr2⟩ := pieceRarest_bounds pat hist hlt
  rw [PreScan.piece]
  dsimp only
  rw [if_neg hlt.ne', eachHit_eq _ _ _ (by omega) (Nat.zero_le _), List.foldlM_pure]
  obtain ⟨h1, h2, h3⟩ := PreScan.foldl_tryHit hay
    (pieceRarest pat hist (pieceStart pat (k + 1) pc) (pieceStart pat (k + 1) (pc + 1)))
    (hits hay 0 (pat.getD (pieceRarest pat hist (pieceStart pat (k + 1) pc)
      (pieceStart pat (k + 1) (pc + 1))) 0)) s h
  refine ⟨_, rfl, h1, h2, fun p hroom hagree => h3 p ?_ hroom⟩
  have hget := hagree _ hr1 hr2
  rw [hits, List.mem_filter, List.mem_range'_1]
  have hlen := (List.getElem?_eq_some_iff.mp hget).1
  exact ⟨⟨Nat.zero_le _, by omega⟩, by simpa using hget⟩

theorem PreScan.pieces_spec (hk : k < pat.length) (hist : UInt8 → Nat) :
    ∀ (l : List Nat) (s : PreScan), s.Counts hay pat k →
      ∃ s', l.foldlM (PreScan.piece hay pat k hist) s = some s' ∧ s'.Counts hay pat k
        ∧ (∀ p, s.seen p = true → s'.seen p = true)
        ∧ ∀ pc ∈ l, ∀ p, p + pat.length ≤ hay.length →
            (∀ d, pieceStart pat (k + 1) pc ≤ d → d < pieceStart pat (k + 1) (pc + 1) →
              hay[p + d]? = some (pat.getD d 0)) → s'.seen p = true
  | [], s, h => ⟨s, rfl, h, fun _ hp => hp, fun _ hpc => absurd hpc List.not_mem_nil⟩
  | pc :: l, s, h => by
      obtain ⟨s₁, he, hc, hmono, hpc⟩ := s.piece_spec hk hist h pc
      obtain ⟨s₂, he', hc', hmono', hl⟩ := PreScan.pieces_spec hk hist l s₁ hc
      refine ⟨s₂, ?_, hc', fun p hp => hmono' p (hmono p hp), ?_⟩
      · rw [List.foldlM_cons, he]
        exact he'
      · rintro pc' hmem p hroom hagree
        rcases List.mem_cons.mp hmem with rfl | hmem
        · exact hmono' p (hpc p hroom hagree)
        · exact hl pc' hmem p hroom hagree

/-! ## The two counts -/

theorem scanKmismatch_eq (hne : pat ≠ []) : scanKmismatch hay pat k false = windowsWithin hay pat k := by
  have hpos := List.length_pos_iff.mpr hne
  have hloop : ∀ (l : List Nat) (n : Nat), (∀ i ∈ l, i + pat.length ≤ hay.length) →
      l.foldl (fun count i =>
        if mismatches false k 0 (hay.drop i) pat ≤ k then count + 1 else count) n
        = n + l.countP (within hay pat k) := by
    intro l
    induction l with
    | nil => exact fun n _ => rfl
    | cons i l ih =>
        intro n hl
        have hi := mismatches_within (k := k) (hl i List.mem_cons_self)
        rw [List.foldl_cons, ih _ fun j hj => hl j (List.mem_cons_of_mem i hj), List.countP_cons,
          ← hi]
        by_cases hgood : mismatches false k 0 (hay.drop i) pat ≤ k
        · rw [if_pos hgood, if_pos (decide_eq_true hgood)]
          omega
        · rw [if_neg hgood, if_neg (by simpa using hgood)]
          rfl
  rw [scanKmismatch, windowsWithin]
  by_cases hshort : hay.length < pat.length
  · have hzero : hay.length + 1 - pat.length = 0 := by omega
    rw [if_pos (Or.inr hshort), hzero]
    rfl
  · rw [if_neg (by omega), hloop _ _ fun i hi => ?_, Nat.zero_add]
    have := List.mem_range.mp hi
    omega

theorem windowsWithin_all (hk : pat.length ≤ k) :
    windowsWithin hay pat k = hay.length + 1 - pat.length := by
  rw [windowsWithin, List.countP_eq_length.mpr, List.length_range]
  intro i _
  have hle : (List.zip (slice hay i (i + pat.length)) pat).countP (fun q => q.1 != q.2)
      ≤ pat.length :=
    List.countP_le_length.trans (by rw [List.length_zip]; omega)
  exact decide_eq_true (hle.trans hk)

/-- **The prefiltered count** is the plain one, and both are the number of
windows with at most `k` mismatching bytes. -/
theorem scanKmismatchPre_eq (hne : pat ≠ []) :
    scanKmismatchPre true hay pat k = some (some (scanKmismatch hay pat k false))
      ∧ scanKmismatch hay pat k false = windowsWithin hay pat k := by
  have hpos := List.length_pos_iff.mpr hne
  refine ⟨?_, scanKmismatch_eq hne⟩
  rw [scanKmismatch_eq hne, scanKmismatchPre]
  by_cases hshort : hay.length < pat.length
  · have hzero : hay.length + 1 - pat.length = 0 := by omega
    rw [if_pos (Or.inr hshort), windowsWithin, hzero]
    rfl
  rw [if_neg (by omega)]
  by_cases hk : pat.length ≤ k
  · rw [if_pos hk, windowsWithin_all hk]
    congr 2
    omega
  rw [if_neg hk, if_neg (by simp), sampleHist_eq, Option.bind_eq_bind, Option.bind_some]
  have hinit : PreScan.Counts hay pat k ⟨fun _ => false, 0⟩ := by
    rw [PreScan.Counts]
    exact (List.countP_eq_zero.mpr fun p _ => by simp).symm
  obtain ⟨s, he, hc, -, hseen⟩ := PreScan.pieces_spec (Nat.not_le.mp hk) (byteHist hay)
    (List.range (k + 1)) _ hinit
  rw [he]
  dsimp only [Option.bind_eq_bind, Option.bind_some]
  rw [hc, windowsWithin]
  congr 2
  refine List.countP_congr fun p hp => ?_
  have hroom : p + pat.length ≤ hay.length := by
    have := List.mem_range.mp hp
    omega
  rw [Bool.and_eq_true]
  refine ⟨fun h => h.2, fun hgood => ⟨?_, hgood⟩⟩
  obtain ⟨pc, hpc, hagree⟩ := exists_clean_piece (Nat.not_le.mp hk) hroom hgood
  exact hseen pc (List.mem_range.mpr hpc) p hroom hagree

/-- `abc` within one mismatch of `abxxbc`. -/
theorem scanKmismatchPre_eq_abc :
    scanKmismatchPre true [0x61, 0x62, 0x78, 0x78, 0x62, 0x63] [0x61, 0x62, 0x63] 1
        = some (some (scanKmismatch [0x61, 0x62, 0x78, 0x78, 0x62, 0x63] [0x61, 0x62, 0x63] 1 false))
      ∧ scanKmismatch [0x61, 0x62, 0x78, 0x78, 0x62, 0x63] [0x61, 0x62, 0x63] 1 false
        = windowsWithin [0x61, 0x62, 0x78, 0x78, 0x62, 0x63] [0x61, 0x62, 0x63] 1 :=
  scanKmismatchPre_eq (by simp)

example : scanKmismatchPre true [0x61, 0x62, 0x78, 0x78, 0x62, 0x63] [0x61, 0x62, 0x63] 1
    = some (some 2) := by decide +kernel

end Montauk
