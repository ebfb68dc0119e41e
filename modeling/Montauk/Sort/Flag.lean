import Montauk.Sort.Radix

/-!
# American Flag

`rp_pass` of the parallel radix: an in-place distribution by one byte of the
key. Every bucket has a region of its final size; a cycle takes an element out
of the region at hand and follows it to its bucket, where it replaces the next
element that is not placed yet. `rpPass_spec` says what a pass does: every
bucket is in its region, in some order.

`rp_serial` recurses on the buckets by the next byte below.
-/

namespace Montauk.Sort

/-! ## The source -/

section
variable {α : Type} (digit : α → Nat)

/-- The cycle of `rp_pass`: `while (d != b) ...`, with `v` in hand. -/
def flagCycle (b : Nat) : Nat → α → List α → List Nat → Option (α × List α × List Nat)
  | 0, _, _, _ => none
  | fuel + 1, v, a, next =>
      if digit v = b then some (v, a, next)
      else do
        let p ← load next (digit v)
        let t ← load a p
        let a ← store a p v
        let next ← store next (digit v) (p + 1)
        flagCycle b fuel t a next

/-- `while (next[b] < end[b]) ...` -/
def flagRegion (ends : List Nat) (b : Nat) :
    Nat → List α → List Nat → Option (List α × List Nat)
  | 0, _, _ => none
  | fuel + 1, a, next => do
      let p ← load next b
      let e ← load ends b
      if p < e then
        let v ← load a p
        let (v, a, next) ← flagCycle digit b (a.length + 1) v a next
        let p ← load next b
        let a ← store a p v
        let next ← store next b (p + 1)
        flagRegion ends b fuel a next
      else some (a, next)

/-- The regions `b`, `b + 1`, ... -/
def flagRegions (ends : List Nat) : Nat → Nat → List α → List Nat → Option (List α)
  | 0, _, a, _ => some a
  | k + 1, b, a, next => do
      let (a, next) ← flagRegion digit ends b (a.length + 1) a next
      flagRegions ends k (b + 1) a next

def regionEnds : Nat → List Nat → List Nat
  | _, [] => []
  | acc, c :: cnt => (acc + c) :: regionEnds (acc + c) cnt

/-- `rp_pass`: the array, and `start` and `cnt` of the buckets. -/
def rpPass (a : List α) : Option (List α × List Nat × List Nat) := do
  let cnt ← histogram digit a (List.replicate 256 0)
  let start := offsets 0 cnt
  let a ← flagRegions digit (regionEnds 0 cnt) 256 0 a start
  some (a, start, cnt)

end

section
variable {α : Type} [SubInt α]

/-- `SUB_PAR_INS`: up to this, insertion sort. -/
def parIns : Nat := 32

/-- `(SUB_ORDER_KEY(v) >> 8 * level) & 0xff`. -/
def orderByte (level : Nat) (v : α) : Nat := byteOf (SubInt.orderKey v) level

def rpIns (a : List α) : Option (List α) :=
  insertionSort (fun x y => SubInt.value y < SubInt.value x) a

/-- A recursive call for bucket `b`, when there is one. -/
def serialBucket (f : List α → Option (List α)) (start cnt : List Nat) (a : List α) :
    Option Nat → Option (List α)
  | none => some a
  | some b => do
      let s ← load start b
      let c ← load cnt b
      onWindow a s c f

/-- The loop of `rp_serial` over the buckets `b`, `b + 1`, ...: each call waits
until the next bucket that needs one. -/
def serialBuckets (f : List α → Option (List α)) (start cnt : List Nat) :
    Nat → Nat → List α → Option Nat → Option (List α × Option Nat)
  | 0, _, a, last => some (a, last)
  | k + 1, b, a, last => do
      let c ← load cnt b
      if c ≤ 1 then serialBuckets f start cnt k (b + 1) a last
      else
        let a ← serialBucket f start cnt a last
        serialBuckets f start cnt k (b + 1) a (some b)

/-- `rp_serial` at the level `bytes - 1`. The last bucket is the next round of
the loop. -/
def rpSerial : Nat → List α → Option (List α)
  | 0, a => if 1 < a.length then rpIns a else some a
  | bytes + 1, a =>
      if parIns < a.length then do
        let (a, start, cnt) ← rpPass (orderByte bytes) a
        if bytes = 0 then some a
        else
          let (a, last) ← serialBuckets (rpSerial bytes) start cnt 256 0 a none
          serialBucket (rpSerial bytes) start cnt a last
      else if 1 < a.length then rpIns a else some a

end

/-! ## A pass -/

section
variable {α : Type} {digit : α → Nat} {m b : Nat}

/-- The regions while a pass runs: what is placed, an element in the way, what
is not placed yet. -/
def regions (m : Nat) (P H R : Nat → List α) : List α := blocks m fun d => P d ++ H d ++ R d

/-- The pass on `a₀` with the elements `hand` out of the array. -/
structure FlagInv (digit : α → Nat) (m : Nat) (a₀ hand : List α) (P H R : Nat → List α) : Prop where
  placed : ∀ d, ∀ x ∈ P d, digit x = d
  size : ∀ d, d < m → (P d).length + (H d).length + (R d).length = (bucket digit a₀ d).length
  perm : (blocks m P ++ hand ++ blocks m R).Perm a₀

/-- `next`: behind what is placed. -/
def nexts (digit : α → Nat) (m : Nat) (a₀ : List α) (P : Nat → List α) : List Nat :=
  (List.range m).map fun d => offset (fun e => (bucket digit a₀ e).length) d + (P d).length

theorem offset_regions {a₀ hand : List α} {P H R : Nat → List α}
    (h : FlagInv digit m a₀ hand P H R) {d : Nat} (hd : d < m) :
    offset (fun e => (bucket digit a₀ e).length) d
      = offset (fun e => (P e ++ H e ++ R e).length) d := by
  refine offset_congr fun e he => ?_
  rw [List.length_append, List.length_append, h.size e (he.trans hd)]

theorem FlagInv.room {a₀ : List α} {v : α} {P H R : Nat → List α}
    (h : FlagInv digit m a₀ [v] P H R) (hv : digit v < m) (hH : H (digit v) = []) :
    ∃ t rest, R (digit v) = t :: rest := by
  refine List.exists_cons_of_ne_nil fun hnil => ?_
  have hsize := h.size _ hv
  have hcount := (h.perm.filter fun x => digit x = digit v).length_eq
  have hbucket : (a₀.filter fun x => digit x = digit v) = bucket digit a₀ (digit v) := rfl
  have hplaced := bucket_blocks (m := m) P h.placed (digit v)
  rw [if_pos hv] at hplaced
  have hplaced' : ((blocks m P).filter fun x => digit x = digit v) = P (digit v) := hplaced
  rw [List.filter_append, List.filter_append, hbucket, List.length_append, List.length_append,
    hplaced', List.filter_cons_of_pos (by simp), List.length_cons] at hcount
  rw [hH, hnil] at hsize
  simp only [List.length_nil] at hsize
  omega

/-- Placing the element in hand, with the next one of its region in hand. -/
theorem FlagInv.place {a₀ : List α} {v t : α} {rest : List α} {P H R : Nat → List α}
    (h : FlagInv digit m a₀ [v] P H R) (hv : digit v < m) (hR : R (digit v) = t :: rest) :
    FlagInv digit m a₀ [t] (Function.update P (digit v) (P (digit v) ++ [v])) H
      (Function.update R (digit v) rest) := by
  constructor
  · intro d x hx
    by_cases hd : d = digit v
    · subst hd
      rw [Function.update_self, List.mem_append, List.mem_singleton] at hx
      rcases hx with hx | rfl
      · exact h.placed _ x hx
      · rfl
    · rw [Function.update_of_ne hd] at hx
      exact h.placed d x hx
  · intro d hd
    have hsize := h.size d hd
    by_cases hdv : d = digit v
    · subst hdv
      rw [hR] at hsize
      rw [Function.update_self, Function.update_self, List.length_append, List.length_singleton]
      rw [List.length_cons] at hsize
      omega
    · rw [Function.update_of_ne hdv, Function.update_of_ne hdv]
      exact hsize
  · refine List.Perm.trans ?_ h.perm
    have hP := blocks_concat_perm P hv v
    have hR' := blocks_uncons_perm R hv hR
    rw [List.append_assoc, List.append_assoc]
    exact (hP.append (List.Perm.refl _)).trans
      (List.perm_middle.symm.trans ((hR'.symm.cons v).append_left _))

theorem update_regions {P H R : Nat → List α} {v : α} {d : Nat} {rest : List α} (hH : H d = []) :
    Function.update (fun d => P d ++ H d ++ R d) d (P d ++ [v] ++ rest)
      = fun e => Function.update P d (P d ++ [v]) e ++ H e ++ Function.update R d rest e := by
  funext e
  by_cases hed : e = d
  · subst hed
    rw [Function.update_self, Function.update_self, Function.update_self, hH, List.append_nil]
  · rw [Function.update_of_ne hed, Function.update_of_ne hed, Function.update_of_ne hed]

theorem update_nexts {a₀ : List α} {P : Nat → List α} {v : α} {d : Nat} (hd : d < m) :
    store (nexts digit m a₀ P) d
        (offset (fun e => (bucket digit a₀ e).length) d + (P d).length + 1)
      = some (nexts digit m a₀ (Function.update P d (P d ++ [v]))) := by
  rw [nexts, store_map_range _ _ hd, nexts]
  refine congrArg (fun f => some ((List.range m).map f)) (funext fun e => ?_)
  by_cases hed : e = d
  · subst hed
    rw [Function.update_self, Function.update_self, List.length_append, List.length_singleton,
      Nat.add_assoc]
  · rw [Function.update_of_ne hed, Function.update_of_ne hed]

/-- **The cycle**: it ends with an element of the region at hand, and changes
nothing of that region. -/
theorem flagCycle_spec {a₀ : List α} {H : Nat → List α} (hlt : ∀ x, digit x < m)
    (hH : ∀ d, d ≠ b → H d = []) (fuel : Nat) :
    ∀ (v : α) (P R : Nat → List α), FlagInv digit m a₀ [v] P H R → (blocks m R).length < fuel →
      ∃ v' P' R', flagCycle digit b fuel v (regions m P H R) (nexts digit m a₀ P)
          = some (v', regions m P' H R', nexts digit m a₀ P')
        ∧ FlagInv digit m a₀ [v'] P' H R' ∧ digit v' = b ∧ P' b = P b ∧ R' b = R b
        ∧ ∀ d, R d = [] → R' d = [] := by
  induction fuel with
  | zero => exact fun v P R _ hfuel => absurd hfuel (Nat.not_lt_zero _)
  | succ fuel ih =>
      intro v P R h hfuel
      rw [flagCycle]
      by_cases hdone : digit v = b
      · rw [if_pos hdone]
        exact ⟨v, P, R, rfl, h, hdone, rfl, rfl, fun _ hd => hd⟩
      · have hv := hlt v
        have hHv := hH _ hdone
        obtain ⟨t, rest, hR⟩ := h.room hv hHv
        have hoff := offset_regions h hv
        have hregion : P (digit v) ++ H (digit v) ++ R (digit v) = P (digit v) ++ [t] ++ rest := by
          rw [hHv, hR, List.append_nil, List.append_assoc]
          rfl
        have hload : load (regions m P H R)
            (offset (fun e => (bucket digit a₀ e).length) (digit v) + (P (digit v)).length)
            = some t :=
          load_blocks _ hv (hregion.trans (List.append_assoc ..)) (by rw [hoff])
        have hstore : store (regions m P H R)
            (offset (fun e => (bucket digit a₀ e).length) (digit v) + (P (digit v)).length) v
            = some (regions m (Function.update P (digit v) (P (digit v) ++ [v])) H
              (Function.update R (digit v) rest)) := by
          rw [store_eq_storeN, regions, storeN_blocks _ hv hregion (by rfl) (by rw [hoff]),
            update_regions hHv]
          rfl
        have hshrink := (blocks_uncons_perm R hv hR).length_eq
        rw [List.length_cons] at hshrink
        obtain ⟨v', P', R', hrun, hinv, hv', hPb, hRb, hnil⟩ :=
          ih t _ _ (h.place hv hR) (by omega)
        refine ⟨v', P', R', ?_, hinv, hv', ?_, ?_, fun d hd => hnil d ?_⟩
        · rw [if_neg hdone, nexts, load_map_range _ hv]
          show (load (regions m P H R) _).bind _ = _
          rw [hload]
          show (store (regions m P H R) _ v).bind _ = _
          rw [hstore]
          show (store (nexts digit m a₀ P) (digit v) _).bind _ = _
          rw [update_nexts hv]
          exact hrun
        · rw [hPb, Function.update_of_ne (Ne.symm hdone)]
        · rw [hRb, Function.update_of_ne (Ne.symm hdone)]
        · have hdv : d ≠ digit v := by
            rintro rfl
            rw [hR] at hd
            cases hd
          rw [Function.update_of_ne hdv]
          exact hd

def noHole : Nat → List α := fun _ => []

theorem regionEnds_append (acc : Nat) (cs ds : List Nat) :
    regionEnds acc (cs ++ ds) = regionEnds acc cs ++ regionEnds (acc + cs.sum) ds := by
  induction cs generalizing acc with
  | nil => rfl
  | cons c cs ih =>
      rw [List.cons_append, regionEnds, ih, regionEnds, List.sum_cons, Nat.add_assoc]
      rfl

theorem regionEnds_map_range (f : Nat → Nat) (m : Nat) :
    regionEnds 0 ((List.range m).map f) = (List.range m).map fun d => offset f d + f d := by
  induction m with
  | zero => rfl
  | succ m ih =>
      rw [List.range_succ, List.map_append, regionEnds_append, ih, List.map_append, Nat.zero_add]
      rfl

/-- The cycle starts by taking an element out of the region at hand. -/
theorem FlagInv.take {a₀ : List α} {P R : Nat → List α} {v : α} {rest : List α}
    (h : FlagInv digit m a₀ [] P noHole R) (hb : b < m) (hR : R b = v :: rest) :
    FlagInv digit m a₀ [v] P (Function.update noHole b [v]) (Function.update R b rest) := by
  refine ⟨h.placed, fun d hd => ?_, ?_⟩
  · have hsize := h.size d hd
    by_cases hdb : d = b
    · subst hdb
      rw [hR] at hsize
      rw [Function.update_self, Function.update_self]
      simp only [noHole, List.length_nil, List.length_cons] at hsize ⊢
      omega
    · rw [Function.update_of_ne hdb, Function.update_of_ne hdb]
      exact hsize
  · refine List.Perm.trans ?_ h.perm
    rw [List.append_nil, List.append_assoc]
    exact (blocks_uncons_perm R hb hR).symm.append_left _

theorem regions_take {P R : Nat → List α} {v : α} {rest : List α} (hR : R b = v :: rest) :
    regions m P noHole R = regions m P (Function.update noHole b [v]) (Function.update R b rest) := by
  refine congrArg (blocks m) (funext fun d => ?_)
  by_cases hdb : d = b
  · subst hdb
    rw [Function.update_self, Function.update_self, hR, List.append_assoc, List.append_assoc]
    rfl
  · rw [Function.update_of_ne hdb, Function.update_of_ne hdb]

theorem FlagInv.close {a₀ : List α} {P R : Nat → List α} {v w : α}
    (h : FlagInv digit m a₀ [v] P (Function.update noHole b [w]) R) (hb : b < m)
    (hv : digit v = b) :
    FlagInv digit m a₀ [] (Function.update P b (P b ++ [v])) noHole R := by
  refine ⟨fun d x hx => ?_, fun d hd => ?_, ?_⟩
  · by_cases hdb : d = b
    · subst hdb
      rw [Function.update_self, List.mem_append, List.mem_singleton] at hx
      rcases hx with hx | rfl
      · exact h.placed _ x hx
      · exact hv
    · rw [Function.update_of_ne hdb] at hx
      exact h.placed d x hx
  · have hsize := h.size d hd
    by_cases hdb : d = b
    · subst hdb
      rw [Function.update_self, List.length_singleton] at hsize
      rw [Function.update_self, List.length_append, List.length_singleton]
      simp only [noHole, List.length_nil]
      omega
    · rw [Function.update_of_ne hdb] at hsize
      rw [Function.update_of_ne hdb]
      exact hsize
  · refine List.Perm.trans ?_ h.perm
    rw [List.append_nil]
    refine (blocks_concat_perm P hb v).append_right _ |>.trans ?_
    rw [List.append_assoc]
    exact List.perm_middle.symm

/-- **A region**: it is full at the end, and full regions stay full. -/
theorem flagRegion_spec {a₀ : List α} (hlt : ∀ x, digit x < m) (hb : b < m) (fuel : Nat) :
    ∀ P R : Nat → List α, FlagInv digit m a₀ [] P noHole R → (R b).length < fuel →
      ∃ P' R', flagRegion digit
          ((List.range m).map fun d =>
            offset (fun e => (bucket digit a₀ e).length) d + (bucket digit a₀ d).length)
          b fuel (regions m P noHole R) (nexts digit m a₀ P)
          = some (regions m P' noHole R', nexts digit m a₀ P')
        ∧ FlagInv digit m a₀ [] P' noHole R' ∧ R' b = [] ∧ ∀ d, R d = [] → R' d = [] := by
  induction fuel with
  | zero => exact fun P R _ hfuel => absurd hfuel (Nat.not_lt_zero _)
  | succ fuel ih =>
      intro P R h hfuel
      have hsize := h.size b hb
      simp only [noHole, List.length_nil, Nat.add_zero] at hsize
      rw [flagRegion, nexts, load_map_range _ hb]
      show ∃ P' R', (load _ b).bind _ = _ ∧ _
      rw [load_map_range _ hb]
      show ∃ P' R', (if _ < _ then _ else _) = _ ∧ _
      cases hR : R b with
      | nil =>
          rw [hR, List.length_nil] at hsize
          rw [if_neg (by omega)]
          exact ⟨P, R, rfl, h, hR, fun _ hd => hd⟩
      | cons v rest =>
          rw [hR, List.length_cons] at hsize
          rw [hR, List.length_cons] at hfuel
          have hoff := offset_regions h hb
          have hload : load (regions m P noHole R)
              (offset (fun e => (bucket digit a₀ e).length) b + (P b).length) = some v := by
            have hregion : P b ++ noHole b ++ R b = P b ++ v :: rest := by
              rw [hR]
              exact congrArg (· ++ _) (List.append_nil _)
            exact load_blocks _ hb hregion (by rw [hoff])
          have hother : ∀ d, d ≠ b → Function.update noHole b [v] d = [] :=
            fun d hd => Function.update_of_ne hd ..
          have hlen : (blocks m (Function.update R b rest)).length
              < (regions m P noHole R).length + 1 := by
            have hsplit := (blocks_append_perm (fun d => P d ++ noHole d) R m).length_eq
            have htake := (blocks_uncons_perm R hb hR).length_eq
            rw [List.length_append] at hsplit
            rw [List.length_cons] at htake
            have hdef : (regions m P noHole R).length
                = (blocks m fun d => P d ++ noHole d ++ R d).length := rfl
            omega
          obtain ⟨v', P₁, R₁, hcycle, hinv, hv', hPb, hRb, hnil⟩ := flagCycle_spec hlt hother
            ((regions m P noHole R).length + 1) v P _ (h.take hb hR) hlen
          have hregion : P₁ b ++ Function.update noHole b [v] b ++ R₁ b = P₁ b ++ [v] ++ R₁ b := by
            rw [Function.update_self]
          have hstore : store (regions m P₁ (Function.update noHole b [v]) R₁)
              (offset (fun e => (bucket digit a₀ e).length) b + (P₁ b).length) v'
              = some (regions m (Function.update P₁ b (P₁ b ++ [v'])) noHole R₁) := by
            rw [store_eq_storeN, regions,
              storeN_blocks _ hb hregion (by rfl) (by rw [offset_regions hinv hb])]
            refine congrArg (fun B => some (blocks m B)) (funext fun e => ?_)
            by_cases heb : e = b
            · subst heb
              rw [Function.update_self, Function.update_self]
              exact congrArg (· ++ _) (List.append_nil _).symm
            · rw [Function.update_of_ne heb, Function.update_of_ne heb, Function.update_of_ne heb]
          rw [Function.update_self] at hRb
          obtain ⟨P', R', hrun, hinv', hRb', hnil'⟩ := ih _ R₁ (hinv.close hb hv')
            (by rw [hRb]; omega)
          refine ⟨P', R', ?_, hinv', hRb', fun d hd => hnil' d (hnil d ?_)⟩
          · rw [if_pos (by omega), hload]
            show (flagCycle digit b _ v (regions m P noHole R) (nexts digit m a₀ P)).bind _ = _
            rw [regions_take hR] at hcycle ⊢
            rw [hcycle]
            show (load (nexts digit m a₀ P₁) b).bind _ = _
            rw [nexts, load_map_range _ hb]
            show (store (regions m P₁ _ R₁) _ v').bind _ = _
            rw [hstore]
            show (store (nexts digit m a₀ P₁) b _).bind _ = _
            rw [update_nexts hb]
            exact hrun
          · have hdb : d ≠ b := by
              rintro rfl
              rw [hR] at hd
              cases hd
            rw [Function.update_of_ne hdb]
            exact hd

theorem flagRegions_spec {a₀ : List α} (hlt : ∀ x, digit x < m) (k : Nat) :
    ∀ (b : Nat) (P R : Nat → List α), b + k = m → FlagInv digit m a₀ [] P noHole R →
      (∀ d, d < b → R d = []) →
      ∃ P' R', flagRegions digit
          ((List.range m).map fun d =>
            offset (fun e => (bucket digit a₀ e).length) d + (bucket digit a₀ d).length)
          k b (regions m P noHole R) (nexts digit m a₀ P) = some (regions m P' noHole R')
        ∧ FlagInv digit m a₀ [] P' noHole R' ∧ ∀ d, d < m → R' d = [] := by
  induction k with
  | zero => exact fun b P R hb h hR => ⟨P, R, rfl, h, fun d hd => hR d (by omega)⟩
  | succ k ih =>
      intro b P R hb h hR
      have hfuel : (R b).length < (regions m P noHole R).length + 1 := by
        have hsize := h.size b (by omega)
        have hsplit := (blocks_append_perm (fun d => P d ++ noHole d) R m).length_eq
        have hblock := (blocks_perm R (by omega : b < m) (R b)).length_eq
        rw [Function.update_eq_self] at hblock
        rw [List.length_append] at hsplit hblock
        have hdef : (regions m P noHole R).length
            = (blocks m fun d => P d ++ noHole d ++ R d).length := rfl
        omega
      obtain ⟨P₁, R₁, hregion, hinv, hRb, hnil⟩ :=
        flagRegion_spec hlt (by omega : b < m) _ P R h hfuel
      obtain ⟨P', R', hrun, hinv', hR'⟩ := ih (b + 1) P₁ R₁ (by omega) hinv fun d hd => by
        rcases Nat.lt_succ_iff_lt_or_eq.mp hd with hd | rfl
        · exact hnil d (hR d hd)
        · exact hRb
      refine ⟨P', R', ?_, hinv', hR'⟩
      rw [flagRegions, hregion]
      exact hrun

/-- The sizes and places of the buckets `B`. -/
def counts (B : Nat → List α) : List Nat := (List.range 256).map fun d => (B d).length

def starts (B : Nat → List α) : List Nat := (List.range 256).map (offset fun d => (B d).length)

/-- **A pass**: the regions are the buckets of the digit, each in some order. -/
theorem rpPass_spec (hlt : ∀ x, digit x < 256) (a : List α) :
    ∃ B, rpPass digit a = some (blocks 256 B, starts B, counts B)
      ∧ ∀ d, d < 256 → (B d).Perm (bucket digit a d) := by
  obtain ⟨R, hR, hsize⟩ := exists_blocks (fun d => (bucket digit a d).length) a 256
    (length_buckets a fun x _ => hlt x).symm
  have hempty : blocks 256 (noHole : Nat → List α) = [] := by
    rw [blocks, List.flatMap_eq_nil_iff]
    exact fun _ _ => rfl
  have hinit : FlagInv digit 256 a [] noHole noHole R := by
    refine ⟨fun d x hx => ?_, fun d hd => ?_, ?_⟩
    · cases hx
    · rw [hsize d hd]
      simp [noHole]
    · rw [hempty, ← hR]
      exact List.Perm.refl _
  have hregions : regions 256 noHole noHole R = a := hR.symm
  have hnexts : nexts digit 256 a noHole
      = (List.range 256).map (offset fun d => (bucket digit a d).length) := rfl
  obtain ⟨P, R', hrun, hinv, hR'⟩ :=
    flagRegions_spec hlt 256 0 noHole R (Nat.zero_add 256) hinit fun d hd => absurd hd (Nat.not_lt_zero d)
  have hnone : blocks 256 R' = [] := by
    rw [blocks, List.flatMap_eq_nil_iff]
    exact fun d hd => hR' d (List.mem_range.mp hd)
  have hperm : ∀ d, d < 256 → (P d).Perm (bucket digit a d) := by
    intro d hd
    have hfilter := hinv.perm.filter fun x => digit x = d
    have hplaced := bucket_blocks (m := 256) P hinv.placed d
    rw [if_pos hd] at hplaced
    have hplaced' : ((blocks 256 P).filter fun x => digit x = d) = P d := hplaced
    rwa [hnone, List.append_nil, List.append_nil, hplaced'] at hfilter
  have hlen : ∀ d, d < 256 → (bucket digit a d).length = (P d).length :=
    fun d hd => (hperm d hd).length_eq.symm
  have hstarts : (List.range 256).map (offset fun d => (bucket digit a d).length) = starts P :=
    List.map_congr_left fun d hd => offset_congr fun e he => hlen e (he.trans (List.mem_range.mp hd))
  have hcounts : ((List.range 256).map fun d => (bucket digit a d).length) = counts P :=
    List.map_congr_left fun d hd => hlen d (List.mem_range.mp hd)
  refine ⟨P, ?_, hperm⟩
  have hout : regions 256 P noHole R' = blocks 256 P := by
    rw [regions, blocks, blocks, List.flatMap_def, List.flatMap_def]
    refine congrArg List.flatten (List.map_congr_left fun d hd => ?_)
    rw [hR' d (List.mem_range.mp hd), List.append_nil]
    exact List.append_nil _
  rw [hregions, hnexts] at hrun
  rw [rpPass, histogram_spec a fun x _ => hlt x, ← hstarts, ← hcounts]
  show (flagRegions digit (regionEnds 0 _) 256 0 a (offsets 0 _)).bind _ = _
  rw [offsets_map_range, regionEnds_map_range, hrun, hout]
  rfl

end

/-! ## The bytes below -/

section
variable {α : Type} [SubInt α]

/-- The keys agree above the lowest `bytes` bytes. -/
def SameAbove (bytes : Nat) (a : List α) : Prop :=
  ∀ x ∈ a, ∀ y ∈ a, SubInt.orderKey x / 256 ^ bytes = SubInt.orderKey y / 256 ^ bytes

theorem div_byte (x : α) (bytes : Nat) : SubInt.orderKey x / 256 ^ bytes
    = SubInt.orderKey x / 256 ^ (bytes + 1) * 256 + orderByte bytes x := by
  rw [orderByte, byteOf_eq, Nat.pow_succ, ← Nat.div_div_eq_div_mul]
  exact (Nat.div_add_mod' _ _).symm

theorem SameAbove.top (a : List α) : SameAbove (SubInt.topByte α + 1) a := by
  intro x _ y _
  rw [Nat.div_eq_of_lt (SubInt.orderKey_lt x), Nat.div_eq_of_lt (SubInt.orderKey_lt y)]

theorem SameAbove.bucket {bytes d : Nat} {a b : List α} (h : SameAbove (bytes + 1) a)
    (hb : b.Perm (bucket (orderByte bytes) a d)) : SameAbove bytes b := by
  have hmem : ∀ x ∈ b, x ∈ a ∧ orderByte bytes x = d := fun x hx =>
    ⟨(List.mem_filter.mp (hb.mem_iff.mp hx)).1, digit_of_mem_bucket (hb.mem_iff.mp hx)⟩
  intro x hx y hy
  rw [div_byte, div_byte y, h x (hmem x hx).1 y (hmem y hy).1, (hmem x hx).2,
    (hmem y hy).2]

theorem value_le_of_byte_lt {bytes : Nat} {a : List α} (h : SameAbove (bytes + 1) a) {x y : α}
    (hx : x ∈ a) (hy : y ∈ a) (hlt : orderByte bytes x < orderByte bytes y) :
    SubInt.value x ≤ SubInt.value y := by
  rw [← SubInt.orderKey_le_iff]
  by_contra hgt
  have hdiv := Nat.div_le_div_right (Nat.lt_of_not_le hgt).le (c := 256 ^ bytes)
  rw [div_byte y, div_byte x, h x hx y hy] at hdiv
  omega

theorem ascending_buckets {bytes : Nat} {a : List α} (h : SameAbove (bytes + 1) a)
    {B : Nat → List α} (hperm : ∀ d, d < 256 → (B d).Perm (bucket (orderByte bytes) a d))
    (hB : ∀ d, d < 256 → Ascending SubInt.value (B d)) :
    Ascending SubInt.value (blocks 256 B) := by
  refine pairwise_blocks hB fun d e hde he x hx y hy => ?_
  have hxd := (hperm d (hde.trans he)).mem_iff.mp hx
  have hye := (hperm e he).mem_iff.mp hy
  refine value_le_of_byte_lt h (List.mem_filter.mp hxd).1 (List.mem_filter.mp hye).1 ?_
  rw [digit_of_mem_bucket hxd, digit_of_mem_bucket hye]
  exact hde

theorem rpIns_spec (a : List α) : ∃ out, rpIns a = some out ∧ StableSort SubInt.value a out :=
  insertionSort_stable SubInt.value a

theorem blocks_buckets_perm {bytes : Nat} {a : List α} {B : Nat → List α}
    (hperm : ∀ d, d < 256 → (B d).Perm (bucket (orderByte bytes) a d)) : (blocks 256 B).Perm a :=
  (blocks_perm_blocks hperm).trans (buckets_stable (m := 256) a fun _ _ => byteOf_lt _ bytes).perm

theorem stableSort_lastByte {a : List α} (h : SameAbove 1 a) {B : Nat → List α}
    (hperm : ∀ d, d < 256 → (B d).Perm (bucket (orderByte 0) a d)) :
    StableSort SubInt.value a (blocks 256 B) := by
  refine SubInt.stableSort (blocks_buckets_perm hperm) (ascending_buckets h hperm fun d hd => ?_)
  have hsame : SameAbove 0 (B d) := h.bucket (hperm d hd)
  refine List.Pairwise.imp_of_mem (fun hx hy _ => ?_) (List.pairwise_of_forall fun _ _ => trivial)
  have hxy := hsame _ hx _ hy
  rw [Nat.pow_zero, Nat.div_one, Nat.div_one] at hxy
  exact (SubInt.orderKey_le_iff _ _).mp hxy.le

/-- The buckets while `rp_serial` runs: those behind are sorted, those in front
and the one that waits are as the pass left them. -/
structure SerialInv (B C : Nat → List α) (b : Nat) (last : Option Nat) : Prop where
  sorted : ∀ d, d < b → some d ≠ last → StableSort SubInt.value (B d) (C d)
  same : ∀ d, b ≤ d ∨ some d = last → C d = B d
  waits : ∀ d, last = some d → d < b

theorem SerialInv.length_eq {B C : Nat → List α} {b : Nat} {last : Option Nat}
    (h : SerialInv B C b last) (d : Nat) : (C d).length = (B d).length := by
  by_cases hd : b ≤ d ∨ some d = last
  · rw [h.same d hd]
  · obtain ⟨hlt, hne⟩ := not_or.mp hd
    exact (h.sorted d (Nat.lt_of_not_le hlt) hne).length_eq

theorem SerialInv.call {f : List α → Option (List α)} {B C : Nat → List α} {b : Nat}
    {last : Option Nat} (h : SerialInv B C b last) (hb : b ≤ 256)
    (hf : ∀ d, d < 256 → ∃ w, f (B d) = some w ∧ StableSort SubInt.value (B d) w) :
    ∃ C', serialBucket f (starts B) (counts B) (blocks 256 C) last = some (blocks 256 C')
      ∧ SerialInv B C' b none := by
  cases last with
  | none => exact ⟨C, rfl, h⟩
  | some d =>
      have hd : d < 256 := Nat.lt_of_lt_of_le (h.waits d rfl) hb
      have hCd := h.same d (Or.inr rfl)
      obtain ⟨w, hw, hsort⟩ := hf d hd
      have hoff : offset (fun e => (B e).length) d = offset (fun e => (C e).length) d :=
        offset_congr fun e _ => (h.length_eq e).symm
      refine ⟨Function.update C d w, ?_, fun e he _ => ?_, fun e he => ?_, fun e he => ?_⟩
      · rw [serialBucket, starts, counts, load_map_range _ hd, load_map_range _ hd]
        refine onWindow_blocks C hd hoff (by rw [hCd]) (by rw [hCd]; exact hw) ?_
        rw [hCd, hsort.length_eq]
      · by_cases hed : e = d
        · subst hed
          rw [Function.update_self]
          exact hsort
        · rw [Function.update_of_ne hed]
          exact h.sorted e he fun hsome => hed (Option.some.inj hsome)
      · have hle : b ≤ e := he.resolve_right (by simp)
        have hed : e ≠ d := by
          have := h.waits d rfl
          omega
        rw [Function.update_of_ne hed]
        exact h.same e (Or.inl hle)
      · cases he

theorem serialBuckets_spec {f : List α → Option (List α)} {B : Nat → List α}
    (hf : ∀ d, d < 256 → ∃ w, f (B d) = some w ∧ StableSort SubInt.value (B d) w) (k : Nat) :
    ∀ (b : Nat) (C : Nat → List α) (last : Option Nat), b + k = 256 → SerialInv B C b last →
      ∃ C' last', serialBuckets f (starts B) (counts B) k b (blocks 256 C) last
          = some (blocks 256 C', last') ∧ SerialInv B C' 256 last' := by
  induction k with
  | zero =>
      intro b C last hb h
      obtain rfl : b = 256 := hb
      exact ⟨C, last, rfl, h⟩
  | succ k ih =>
      intro b C last hb h
      have hlt : b < 256 := by omega
      have hCb := h.same b (Or.inl (Nat.le_refl b))
      rw [serialBuckets, counts, load_map_range _ hlt]
      show ∃ C' last', (if (B b).length ≤ 1 then _ else _) = _ ∧ _
      by_cases hshort : (B b).length ≤ 1
      · rw [if_pos hshort]
        refine ih (b + 1) C last (by omega) ⟨fun d hd hne => ?_, fun d hd => ?_, fun d hd => ?_⟩
        · rcases Nat.lt_succ_iff_lt_or_eq.mp hd with hd | rfl
          · exact h.sorted d hd hne
          · rw [hCb]
            exact stableSort_short _ (Nat.lt_succ_of_le hshort)
        · exact h.same d (hd.imp_left (Nat.le_of_succ_le ·))
        · exact Nat.lt_succ_of_lt (h.waits d hd)
      · rw [if_neg hshort]
        obtain ⟨C₁, hcall, h₁⟩ := h.call hlt.le hf
        have hcounts : (List.range 256).map (fun d => (B d).length) = counts B := rfl
        rw [hcounts]
        show ∃ C' last', (serialBucket f (starts B) (counts B) (blocks 256 C) last).bind _ = _ ∧ _
        rw [hcall]
        refine ih (b + 1) C₁ (some b) (by omega) ⟨fun d hd hne => ?_, fun d hd => ?_, fun d hd => ?_⟩
        · have hdb : d ≠ b := fun hdb => hne (congrArg some hdb)
          exact h₁.sorted d (by omega) (by simp)
        · refine h₁.same d (Or.inl ?_)
          rcases hd with hd | hd
          · omega
          · exact (Option.some.inj hd).ge
        · rw [← Option.some.inj hd]
          exact Nat.lt_succ_self _

/-- **`rp_serial`** sorts an array whose keys agree above its bytes. -/
theorem rpSerial_spec (bytes : Nat) : ∀ a : List α, SameAbove bytes a →
    ∃ out, rpSerial bytes a = some out ∧ StableSort SubInt.value a out := by
  have hsmall : ∀ a : List α, ∃ out, (if 1 < a.length then rpIns a else some a) = some out
      ∧ StableSort SubInt.value a out := by
    intro a
    split
    · exact rpIns_spec a
    · exact ⟨a, rfl, stableSort_short _ (by omega)⟩
  induction bytes with
  | zero => exact fun a _ => hsmall a
  | succ bytes ih =>
      intro a h
      rw [rpSerial]
      split
      · have hbyte : ∀ x : α, orderByte bytes x < 256 := fun x => byteOf_lt _ bytes
        obtain ⟨B, hpass, hperm⟩ := rpPass_spec hbyte a
        rw [hpass]
        show ∃ out, (if bytes = 0 then _ else _) = _ ∧ _
        split
        · rename_i hzero
          subst hzero
          exact ⟨_, rfl, stableSort_lastByte h hperm⟩
        · have hf : ∀ d, d < 256 →
              ∃ w, rpSerial bytes (B d) = some w ∧ StableSort SubInt.value (B d) w :=
            fun d hd => ih (B d) (h.bucket (hperm d hd))
          obtain ⟨C, last, hloop, hinv⟩ := serialBuckets_spec hf 256 0 B none (Nat.zero_add 256)
            ⟨fun d hd => absurd hd (Nat.not_lt_zero d), fun _ _ => rfl, fun d hd => by cases hd⟩
          obtain ⟨C', hlast, hinv'⟩ := hinv.call (Nat.le_refl 256) hf
          have hC' : ∀ d, d < 256 → StableSort SubInt.value (B d) (C' d) :=
            fun d hd => hinv'.sorted d hd (by simp)
          refine ⟨blocks 256 C', ?_, SubInt.stableSort ?_ ?_⟩
          · rw [hloop]
            exact hlast
          · exact (blocks_perm_blocks fun d hd => (hC' d hd).perm).trans (blocks_buckets_perm hperm)
          · exact ascending_buckets h (fun d hd => (hC' d hd).perm.trans (hperm d hd))
              fun d hd => (hC' d hd).sorted
      · exact hsmall a

end

end Montauk.Sort
