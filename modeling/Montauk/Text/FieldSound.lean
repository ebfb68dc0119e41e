import Montauk.Text.Piece

/-!
# The parser builds what it reads

One lemma for each function of the parser, from the atoms up: when the
call ends with `ok` set, the grammar read a tree there, the positions
fitted, and the call left the piece of that tree (`Parses.of_ok`); and
when the grammar reads a tree whose positions fit, `ok` is still set
(`Parses.ok_of`). `buildGnfaAt_spec` puts this at the head of a pattern.
-/

open scoped Computability

namespace Montauk

open PosAutomaton

variable {w : Nat}

/-- The grammar's cursor in a parser state. -/
def GPar.pos (x : GPar w) : PPos := ⟨x.p, x.foldLeft, x.foldByte⟩

@[simp] theorem GPar.pos_cur (x : GPar w) : x.pos.cur = x.cur := rfl

@[simp] theorem GPar.pos_adv (x : GPar w) : x.pos.adv = x.adv.pos := rfl

@[simp] theorem GPar.newPos_npos (x : GPar w) (S : ByteSet) :
    (x.newPos S).g.npos = x.g.npos + 1 := rfl

@[simp] theorem GPar.link_npos (x : GPar w) (src dst : BitVec w) :
    (x.link src dst).g.npos = x.g.npos := rfl

def TreePiece (g : Gnfa w) (a : GAttr w) (g' : Gnfa w) (t : Re) : Prop :=
  Piece g a g' t.sets t.clean t.fieldLang t.looped

/-- The result `r` of a parser call, against what the grammar reads
there: `g₀` is the field in front of the piece, `ok` the flag the call
started with. -/
structure Parses (g₀ : Gnfa w) (ok : Bool) (r : GAttr w × GPar w) (o : Option (Re × PPos)) :
    Prop where
  of_ok : r.2.g.ok = true → ok = true ∧ ∃ t, o = some (t, r.2.pos)
    ∧ g₀.npos + t.peak ≤ w ∧ TreePiece g₀ r.1 r.2.g t
  ok_of : ok = true → ∀ t s, o = some (t, s) → g₀.npos + t.peak ≤ w → r.2.g.ok = true

theorem Parses.failed {g₀ : Gnfa w} {ok : Bool} {r : GAttr w × GPar w} {o : Option (Re × PPos)}
    (hr : r.2.g.ok = false) (ho : ∀ t s, o = some (t, s) → w < g₀.npos + t.peak) :
    Parses g₀ ok r o where
  of_ok h := absurd h (by rw [hr]; exact Bool.false_ne_true)
  ok_of _ t s h hp := absurd hp (Nat.not_le.mpr (ho t s h))

/-- A call that changes the field without failing. -/
theorem Parses.made {g₀ : Gnfa w} {ok : Bool} {r : GAttr w × GPar w} {t : Re}
    (hok : r.2.g.ok = ok) (hp : g₀.npos + t.peak ≤ w) (ht : TreePiece g₀ r.1 r.2.g t) :
    Parses g₀ ok r (some (t, r.2.pos)) where
  of_ok h := ⟨hok ▸ h, t, rfl, hp, ht⟩
  ok_of h _ _ _ _ := hok.trans h

theorem Parses.of_false {g₀ : Gnfa w} {r : GAttr w × GPar w} {o : Option (Re × PPos)}
    (hr : r.2.g.ok = false) : Parses g₀ false r o where
  of_ok h := absurd h (by rw [hr]; exact Bool.false_ne_true)
  ok_of h := absurd h Bool.false_ne_true

theorem Parses.bind {g₀ : Gnfa w} {ok : Bool} {r : GAttr w × GPar w} {o : Option (Re × PPos)}
    (h : Parses g₀ ok r o) {r' : GAttr w × GPar w} {k : Re × PPos → Option (Re × PPos)}
    (hk : ∀ t, r.2.g.ok = true → g₀.npos + t.peak ≤ w → TreePiece g₀ r.1 r.2.g t →
      Parses g₀ true r' (k (t, r.2.pos)))
    (hfail : r.2.g.ok = false → r'.2.g.ok = false)
    (hpeak : ∀ t s t' s', k (t, s) = some (t', s') → t.peak ≤ t'.peak) :
    Parses g₀ ok r' (o.bind k) where
  of_ok hr' := by
    have hr : r.2.g.ok = true := by
      by_contra hr
      exact absurd hr' (by rw [hfail (Bool.eq_false_iff.mpr hr)]; exact Bool.false_ne_true)
    obtain ⟨hok, t, rfl, hp, ht⟩ := h.of_ok hr
    exact ⟨hok, ((hk t hr hp ht).of_ok hr').2⟩
  ok_of hok t' s' ho hp := by
    obtain ⟨⟨t, s⟩, hts, hk'⟩ := Option.bind_eq_some_iff.mp ho
    have hp' : g₀.npos + t.peak ≤ w :=
      (Nat.add_le_add_left (hpeak t s t' s' hk') _).trans hp
    have hr := h.ok_of hok t s hts hp'
    obtain ⟨-, t₁, ho₁, hp₁, ht₁⟩ := h.of_ok hr
    obtain ⟨rfl, rfl⟩ := Prod.mk.inj (Option.some.inj (hts.symm.trans ho₁))
    exact (hk t hr hp₁ ht₁).ok_of rfl t' s' hk' hp

theorem Re.length_sets_le_peak : ∀ t : Re, t.sets.length ≤ t.peak
  | .pos _ _ => le_rfl
  | .folds _ => (List.length_map _).le
  | .empty => le_rfl
  | .group a => a.length_sets_le_peak
  | .cat a b => by
      have := b.length_sets_le_peak
      simp only [Re.sets, Re.peak, List.length_append]
      omega
  | .alt a b => by
      have := b.length_sets_le_peak
      simp only [Re.sets, Re.peak, List.length_append]
      omega
  | .star a => a.length_sets_le_peak
  | .plus a => a.length_sets_le_peak
  | .opt a => a.length_sets_le_peak
  | .rep _ _ _ => Nat.le_max_right _ _
  | .stacked a => a.length_sets_le_peak

/-! ## Literal bytes -/

def byteSets (bs : List UInt8) : List ByteSet := bs.map fun c => gsetByte 0 c false

theorem setLang_byte (b : UInt8) : Re.setLang (gsetByte 0 b false) = {[b]} := by
  ext u
  simp only [Re.setLang, has_gsetByte_zero, fold]
  constructor
  · rintro ⟨c, hc, rfl⟩
    have hc : c = b := by simpa using hc
    rw [hc]
    rfl
  · rintro rfl
    exact ⟨b, by simp, rfl⟩

theorem singleton_mul (u v : List UInt8) :
    ({u} : Language UInt8) * {v} = {u ++ v} := by
  ext x
  rw [Language.mem_mul]
  constructor
  · rintro ⟨_, rfl, _, rfl, rfl⟩
    rfl
  · rintro rfl
    exact ⟨u, rfl, v, rfl, rfl⟩

/-- What a byte chain leaves: `bs` is still to be allocated, `all` the
whole chain. -/
structure Chain (g₀ : Gnfa w) (x : GPar w) (r : GAttr w × GPar w) (bs all : List UInt8) :
    Prop where
  fits : x.g.npos + bs.length ≤ w → r.2.g.ok = x.g.ok ∧ r.2.pos = x.pos
    ∧ Piece g₀ r.1 r.2.g (byteSets all) true {all} false
  full : x.g.npos ≤ w → w < x.g.npos + bs.length → r.2.g.ok = false

theorem Chain.stop {g₀ : Gnfa w} {x : GPar w} {r : GAttr w × GPar w} {b : UInt8}
    {bs all : List UInt8} (hfull : w ≤ x.g.npos) (hok : r.2.g.ok = false) :
    Chain g₀ x r (b :: bs) all where
  fits hw := by
    rw [List.length_cons] at hw
    omega
  full _ _ := hok

/-- The next byte takes a position, and the rest follows from there. -/
theorem Chain.cons {g₀ : Gnfa w} {x y : GPar w} {r : GAttr w × GPar w} {b : UInt8}
    {bs all : List UInt8} (h : Chain g₀ y r bs all) (hroom : x.g.npos < w)
    (hnpos : y.g.npos = x.g.npos + 1) (hok : y.g.ok = x.g.ok) (hpos : y.pos = x.pos) :
    Chain g₀ x r (b :: bs) all where
  fits hw := by
    rw [List.length_cons] at hw
    rw [← hok, ← hpos]
    exact h.fits (by omega)
  full _ hw := by
    rw [List.length_cons] at hw
    exact h.full (by omega) (by omega)

theorem gBytesLoop_some (g₀ : Gnfa w) :
    ∀ (bs pre : List UInt8) (f l : Nat) (x : GPar w),
      Piece g₀ ⟨false, psSingle w f, psSingle w l⟩ x.g (byteSets pre) true {pre} false →
      Chain g₀ x (gBytesLoop bs (some (f, l)) x) bs (pre ++ bs)
  | [], pre, f, l, x, h => by
      refine ⟨fun _ => ⟨rfl, rfl, ?_⟩, fun hle hw => absurd hw (Nat.not_lt.mpr hle)⟩
      rw [List.append_nil]
      exact h
  | b :: bs, pre, f, l, x, h => by
      rw [gBytesLoop]
      split
      · rename_i hfull
        exact .stop hfull rfl
      · rename_i hroom
        have hroom : x.g.npos < w := Nat.not_le.mp hroom
        have hstep := h.cat (Piece.single hroom (gsetByte 0 b false) false)
        rw [if_neg Bool.false_ne_true, setLang_byte, singleton_mul] at hstep
        have hsets : byteSets pre ++ [gsetByte 0 b false] = byteSets (pre ++ [b]) := by
          rw [byteSets, byteSets, List.map_append]
          rfl
        rw [hsets] at hstep
        have ih := gBytesLoop_some g₀ bs (pre ++ [b]) f x.g.npos
          ((x.newPos (gsetByte 0 b false)).link (psSingle w l) (psSingle w x.g.npos)) hstep
        rw [List.append_assoc, List.singleton_append] at ih
        exact ih.cons hroom (by rw [GPar.link_npos, GPar.newPos_npos]) rfl rfl

theorem gBytes_spec (x : GPar w) (bs : List UInt8) :
    Chain x.g x (gBytes x bs) bs bs := by
  cases bs with
  | nil =>
      refine ⟨fun _ => ⟨rfl, rfl, Piece.eps x.g⟩, fun hle hw => absurd hw (Nat.not_lt.mpr hle)⟩
  | cons b bs =>
      rw [gBytes, gBytesLoop]
      split
      · rename_i hfull
        exact .stop hfull rfl
      · rename_i hroom
        have hroom : x.g.npos < w := Nat.not_le.mp hroom
        have hone := Piece.single hroom (gsetByte 0 b false) false
        rw [if_neg Bool.false_ne_true, setLang_byte] at hone
        have h := gBytesLoop_some x.g bs [b] x.g.npos x.g.npos (x.newPos (gsetByte 0 b false)) hone
        rw [List.singleton_append] at h
        exact h.cons hroom (GPar.newPos_npos ..) rfl rfl

theorem gBytesLoop_nullable :
    ∀ (bs : List UInt8) (fl : Nat × Nat) (x : GPar w),
      (gBytesLoop bs (some fl) x).1.nullable = false
  | [], _, _ => rfl
  | b :: bs, _, x => by
      rw [gBytesLoop]
      split
      · rfl
      · exact gBytesLoop_nullable bs _ _

theorem gBytes_nullable {bs : List UInt8} (hne : bs ≠ []) (x : GPar w) :
    (gBytes x bs).1.nullable = false := by
  cases bs with
  | nil => exact absurd rfl hne
  | cons b bs =>
      rw [gBytes, gBytesLoop]
      split
      · rfl
      · exact gBytesLoop_nullable bs _ _

/-! ## Case-fold alternations -/

/-- The members of a class that can be encoded. -/
def encodedMembers (ms : List Nat) : List (List UInt8) := (ms.map u8Encode).filter (· != [])

theorem encodedMembers_cons (m : Nat) (ms : List Nat) :
    encodedMembers (m :: ms)
      = if u8Encode m = [] then encodedMembers ms else u8Encode m :: encodedMembers ms := by
  rw [encodedMembers, List.map_cons, List.filter_cons]
  by_cases h : u8Encode m = [] <;> simp [h, encodedMembers]

theorem TreePiece.folds_one {g₀ g₁ : Gnfa w} {a : GAttr w} {v : List UInt8}
    (h : Piece g₀ a g₁ (byteSets v) true {v} false) : TreePiece g₀ a g₁ (.folds [v]) := by
  have hsets : (Re.folds [v]).sets = byteSets v := by
    rw [Re.sets, List.flatten_singleton, byteSets]
  have hlang : (Re.folds [v]).fieldLang = {v} := by
    ext u
    exact List.mem_singleton
  rw [TreePiece, hsets, hlang]
  exact h

theorem TreePiece.folds_snoc {g₀ g₁ g₂ : Gnfa w} {a b : GAttr w} {ws : List (List UInt8)}
    {v : List UInt8} (h : TreePiece g₀ a g₁ (.folds ws))
    (hb : Piece g₁ b g₂ (byteSets v) true {v} false) :
    TreePiece g₀ (a.alt b) g₂ (.folds (ws ++ [v])) := by
  have halt := Piece.alt h hb
  have hsets : (Re.folds (ws ++ [v])).sets = (Re.folds ws).sets ++ byteSets v := by
    rw [Re.sets, Re.sets, byteSets, List.flatten_append, List.map_append, List.flatten_singleton]
  have hlang : (Re.folds (ws ++ [v])).fieldLang = (Re.folds ws).fieldLang + {v} := by
    ext u
    rw [Language.mem_add]
    show u ∈ ws ++ [v] ↔ u ∈ ws ∨ u = v
    rw [List.mem_append, List.mem_singleton]
  rw [TreePiece, hsets, hlang]
  exact halt

/-- The alternation of a fold class, `all` its branches. -/
structure Folded (g₀ : Gnfa w) (x : GPar w) (r : GAttr w × GPar w) (all : List (List UInt8)) :
    Prop where
  fits : g₀.npos + all.flatten.length ≤ w → r.2.g.ok = true ∧ r.2.pos = x.pos
    ∧ TreePiece g₀ r.1 r.2.g (.folds all)
  full : w < g₀.npos + all.flatten.length → r.2.g.ok = false

theorem gFoldMembers_failed (ms : List Nat) (a : GAttr w) {x : GPar w} (hx : x.g.ok = false) :
    gFoldMembers ms a x = (a, x) := by
  cases ms with
  | nil => rfl
  | cons m ms => rw [gFoldMembers, if_neg (by rw [hx]; exact Bool.false_ne_true)]

theorem gFoldMembers_spec (g₀ : Gnfa w) :
    ∀ (ms : List Nat) (ws : List (List UInt8)) (a : GAttr w) (x : GPar w), x.g.ok = true →
      x.g.npos ≤ w → TreePiece g₀ a x.g (.folds ws) →
      Folded g₀ x (gFoldMembers ms a x) (ws ++ encodedMembers ms)
  | [], ws, a, x, hok, hle, h => by
      have hn : x.g.npos = g₀.npos + ws.flatten.length := by
        rw [h.alloc.npos, Re.sets, List.length_map]
      have hnil : ws ++ encodedMembers [] = ws := List.append_nil ws
      rw [hnil]
      exact ⟨fun _ => ⟨hok, rfl, h⟩, fun hw => absurd hw (Nat.not_lt.mpr (hn ▸ hle))⟩
  | m :: ms, ws, a, x, hok, hle, h => by
      have hn : x.g.npos = g₀.npos + ws.flatten.length := by
        rw [h.alloc.npos, Re.sets, List.length_map]
      rw [gFoldMembers, if_pos hok, encodedMembers_cons]
      by_cases hm : u8Encode m = []
      · rw [if_pos hm, if_pos hm]
        exact gFoldMembers_spec g₀ ms ws a x hok hle h
      · rw [if_neg hm, if_neg hm]
        have hchain := gBytes_spec x (u8Encode m)
        have hnul := gBytes_nullable hm x
        generalize gBytes x (u8Encode m) = r at hchain hnul
        obtain ⟨b, y⟩ := r
        have hattr : ({ a with first := a.first ||| b.first, last := a.last ||| b.last } : GAttr w)
            = a.alt b := by
          rw [GAttr.alt, hnul, Bool.or_false]
        have hassoc : ws ++ u8Encode m :: encodedMembers ms
            = (ws ++ [u8Encode m]) ++ encodedMembers ms := by
          rw [List.append_assoc, List.singleton_append]
        have hlen : (ws ++ [u8Encode m]).flatten.length
            = ws.flatten.length + (u8Encode m).length := by
          rw [List.flatten_append, List.length_append, List.flatten_singleton]
        show Folded g₀ x (gFoldMembers ms _ y) _
        rw [hattr, hassoc]
        by_cases hfit : x.g.npos + (u8Encode m).length ≤ w
        · obtain ⟨hok', hpos, hp⟩ := hchain.fits hfit
          have ih := gFoldMembers_spec g₀ ms (ws ++ [u8Encode m]) (a.alt b) y (hok'.trans hok)
            (by rw [hp.alloc.npos, byteSets, List.length_map]; exact hfit) (h.folds_snoc hp)
          refine ⟨fun hw => ?_, ih.full⟩
          obtain ⟨h1, h2, h3⟩ := ih.fits hw
          exact ⟨h1, h2.trans hpos, h3⟩
        · have hfail := hchain.full hle (Nat.not_le.mp hfit)
          rw [gFoldMembers_failed ms _ hfail]
          refine ⟨fun hw => ?_, fun _ => hfail⟩
          rw [List.flatten_append, List.length_append] at hw
          omega

/-! ## Atoms -/

theorem TreePiece.pos {g : Gnfa w} (hw : g.npos < w) (k : Leaf) (S : ByteSet) :
    TreePiece g (GAttr.pos w g.npos) (g.pushed S) (.pos k S) :=
  Piece.single hw S false

theorem gLiteral_spec {x : GPar w} (hw : x.g.npos < w) (k : UInt8 → Leaf) :
    Parses x.g x.g.ok (gLiteral x) (some (pLiteral x.g.icase k x.pos)) :=
  Parses.made rfl hw (TreePiece.pos hw (k x.cur) _)

theorem pPosAtom_peak {icase : Bool} {s s' : PPos} {t : Re}
    (h : pPosAtom icase s = some (t, s')) : t.peak = 1 := by
  rw [pPosAtom] at h
  split at h
  · obtain ⟨rfl, -⟩ := Prod.mk.inj (Option.some.inj h)
    rfl
  · split at h
    · obtain ⟨r, -, hr⟩ := Option.map_eq_some_iff.mp h
      obtain ⟨rfl, -⟩ := Prod.mk.inj hr
      rfl
    · split at h
      · split at h
        · obtain ⟨rfl, -⟩ := Prod.mk.inj (Option.some.inj h)
          rfl
        · obtain ⟨rfl, -⟩ := Prod.mk.inj (Option.some.inj h)
          rfl
      · obtain ⟨rfl, -⟩ := Prod.mk.inj (Option.some.inj h)
        rfl

theorem gPosAtom_spec (x : GPar w) :
    Parses x.g x.g.ok (gPosAtom x) (pPosAtom x.g.icase x.pos) := by
  by_cases hw : w ≤ x.g.npos
  · rw [gPosAtom, if_pos hw]
    refine Parses.failed rfl fun t s h => ?_
    rw [pPosAtom_peak h]
    omega
  · have hroom : x.g.npos < w := Nat.not_le.mp hw
    rw [gPosAtom, if_neg hw, pPosAtom]
    by_cases hdot : x.cur = Ch.dot
    · have hdot' : x.pos.cur = Ch.dot := hdot
      rw [if_pos hdot, if_pos hdot']
      exact Parses.made rfl hroom (TreePiece.pos hroom .any _)
    have hdot' : ¬ x.pos.cur = Ch.dot := hdot
    rw [if_neg hdot, if_neg hdot']
    by_cases hbr : x.cur = Ch.lbrack
    · have hbr' : x.pos.cur = Ch.lbrack := hbr
      rw [if_pos hbr, if_pos hbr']
      show Parses _ _ _ (Option.map _ (classSpan x.p x.g.icase))
      cases classSpan x.p x.g.icase with
      | none => exact Parses.failed rfl fun t s h => absurd h (by simp)
      | some r =>
          obtain ⟨S, rest⟩ := r
          exact Parses.made (r := (_, { x.newPos S with p := rest })) rfl hroom
            (TreePiece.pos hroom .cls S)
    have hbr' : ¬ x.pos.cur = Ch.lbrack := hbr
    rw [if_neg hbr, if_neg hbr']
    by_cases hesc : x.cur = Ch.backslash ∧ x.adv.cur ≠ 0
    · have hesc' : x.pos.cur = Ch.backslash ∧ x.pos.adv.cur ≠ 0 := hesc
      rw [if_pos hesc, if_pos hesc']
      have hadv : x.pos.adv.cur = x.adv.cur := rfl
      rw [hadv]
      cases shorthandSet x.adv.cur with
      | some S =>
          exact Parses.made (r := (_, (x.newPos S).adv.adv)) rfl hroom
            (TreePiece.pos hroom (.esc x.adv.cur) S)
      | none => exact gLiteral_spec (x := x.adv) hroom .esc
    · have hesc' : ¬ (x.pos.cur = Ch.backslash ∧ x.pos.adv.cur ≠ 0) := hesc
      rw [if_neg hesc, if_neg hesc']
      exact gLiteral_spec hroom .lit

variable {ic : Bool} {alt : GPar w → GAttr w × GPar w} {palt : PPos → Option (Re × PPos)}

/-- What the functions below ask of the parser of a nested alternation. -/
def AltSpec (ic : Bool) (alt : GPar w → GAttr w × GPar w) (palt : PPos → Option (Re × PPos)) :
    Prop :=
  ∀ x : GPar w, x.g.icase = ic → x.g.npos ≤ w → Parses x.g x.g.ok (alt x) (palt x.pos)

/-- A character whose fold is an alternation is decoded at its lead byte
with nothing pending. -/
theorem foldClass_decode {icase : Bool} {p : List UInt8} {left n : Nat} {ms : List Nat}
    (h : foldClass? icase p left = some (n, ms)) :
    left = 0 ∧ 0xc0 ≤ p.headD 0 ∧ 2 ≤ n ∧ ∃ cp, u8Decode p = some (n, cp) := by
  rw [foldClass?] at h
  split at h
  · rename_i hc
    rw [Bool.and_eq_true, Bool.and_eq_true, beq_iff_eq, decide_eq_true_eq] at hc
    split at h
    · rename_i k cp hcp
      split at h
      · rename_i hn
        obtain ⟨rfl, -⟩ := Prod.mk.inj (Option.some.inj h)
        exact ⟨hc.2, hc.1.2, hn.1, cp, hcp⟩
      · exact absurd h (by simp)
    · exact absurd h (by simp)
  · exact absurd h (by simp)

/-- A folded character is at least two bytes long and not the end of the
pattern. -/
theorem take_ne_nil_of_foldClass {icase : Bool} {p : List UInt8} {left n : Nat} {ms : List Nat}
    (h : foldClass? icase p left = some (n, ms)) : p.take n ≠ [] := by
  obtain ⟨-, hlead, hn, -⟩ := foldClass_decode h
  intro hnil
  rcases List.take_eq_nil_iff.mp hnil with h0 | rfl
  · omega
  · exact absurd hlead (by decide)

/-- The end of the fold branch of `g_atom`: the cursor moves over the
character once all members are in. -/
def foldsDone (n : Nat) (r : GAttr w × GPar w) : GAttr w × GPar w :=
  if r.2.g.ok then (r.1, { r.2 with p := r.2.p.drop n }) else r

theorem gAtom_folds_eq {x : GPar w} {n : Nat} {ms : List Nat} (hlp : x.cur ≠ Ch.lparen)
    (hcls : foldClass? x.g.icase x.p x.foldLeft = some (n, ms)) :
    gAtom alt x = foldsDone n (gFoldMembers ms (gBytes x (x.p.take n)).1
      (gBytes x (x.p.take n)).2) := by
  have hnul := gBytes_nullable (take_ne_nil_of_foldClass hcls) x
  rw [gAtom, if_neg hlp, hcls]
  show foldsDone n (gFoldMembers ms ⟨false, (gBytes x (x.p.take n)).1.first,
    (gBytes x (x.p.take n)).1.last⟩ (gBytes x (x.p.take n)).2) = _
  rw [← hnul]

/-- The fold branch of `g_atom`: the written form, then the members. -/
theorem gAtom_folds {x : GPar w} (hle : x.g.npos ≤ w) {n : Nat} {ms : List Nat}
    (hlp : x.cur ≠ Ch.lparen) (hcls : foldClass? x.g.icase x.p x.foldLeft = some (n, ms)) :
    Parses x.g x.g.ok (gAtom alt x)
      (some (.folds (foldBranches x.p n ms), { x.pos with p := x.p.drop n })) := by
  have hchain := gBytes_spec x (x.p.take n)
  rw [gAtom_folds_eq hlp hcls]
  generalize gBytes x (x.p.take n) = r at hchain ⊢
  obtain ⟨br, y⟩ := r
  have hpeak : (Re.folds (foldBranches x.p n ms)).peak
      = (x.p.take n).length + (encodedMembers ms).flatten.length := by
    rw [Re.peak, foldBranches, List.flatten_cons, List.length_append]
    rfl
  by_cases hok : y.g.ok = true
  · have hfit : x.g.npos + (x.p.take n).length ≤ w := by
      by_contra hfit
      exact absurd hok (by rw [hchain.full hle (Nat.not_le.mp hfit)]; exact Bool.false_ne_true)
    obtain ⟨hxok, hpos, hp⟩ := hchain.fits hfit
    have hyw : y.g.npos ≤ w := by
      rw [hp.alloc.npos, byteSets, List.length_map]
      exact hfit
    have hms := gFoldMembers_spec x.g ms [x.p.take n] br y hok hyw (TreePiece.folds_one hp)
    have hall : [x.p.take n] ++ encodedMembers ms = foldBranches x.p n ms := rfl
    rw [hall] at hms
    show Parses x.g x.g.ok (foldsDone n (gFoldMembers ms br y)) _
    generalize gFoldMembers ms br y = r at hms ⊢
    have hx : x.g.ok = true := hxok ▸ hok
    have hpeak' : (Re.folds (foldBranches x.p n ms)).peak
        = (foldBranches x.p n ms).flatten.length := rfl
    by_cases hw : x.g.npos + (foldBranches x.p n ms).flatten.length ≤ w
    · obtain ⟨h1, h2, h3⟩ := hms.fits hw
      have hpos' : ({ r.2 with p := r.2.p.drop n } : GPar w).pos
          = { x.pos with p := x.p.drop n } := by
        have h2' : r.2.pos = x.pos := h2.trans hpos
        have hp' : r.2.p = x.p := congrArg PPos.p h2'
        have hl' : r.2.foldLeft = x.foldLeft := congrArg PPos.foldLeft h2'
        have hb' : r.2.foldByte = x.foldByte := congrArg PPos.foldByte h2'
        simp only [GPar.pos, hp', hl', hb']
      rw [foldsDone, if_pos h1, ← hpos']
      exact Parses.made (r := (r.1, { r.2 with p := r.2.p.drop n })) (h1.trans hx.symm) hw h3
    · have h1 := hms.full (Nat.not_le.mp hw)
      have h1' : ¬ r.2.g.ok = true := by rw [h1]; exact Bool.false_ne_true
      rw [foldsDone, if_neg h1']
      refine Parses.failed h1 fun t s ho => ?_
      obtain ⟨rfl, -⟩ := Prod.mk.inj (Option.some.inj ho)
      exact Nat.not_le.mp hw
  · have hfail : y.g.ok = false := Bool.eq_false_iff.mpr hok
    rw [gFoldMembers_failed ms _ hfail, foldsDone, if_neg hok]
    constructor
    · intro h
      exact absurd h hok
    · intro h t s ho hp
      obtain ⟨rfl, -⟩ := Prod.mk.inj (Option.some.inj ho)
      rw [hpeak] at hp
      have := (hchain.fits (by omega)).1
      exact this.trans h

theorem gAtom_spec (halt : AltSpec ic alt palt) {x : GPar w} (hic : x.g.icase = ic)
    (hle : x.g.npos ≤ w) : Parses x.g x.g.ok (gAtom alt x) (pAtom ic palt x.pos) := by
  subst hic
  rw [pAtom]
  by_cases hlp : x.cur = Ch.lparen
  · have hlp' : x.pos.cur = Ch.lparen := hlp
    have h := halt x.adv rfl hle
    rw [gAtom, if_pos hlp, if_pos hlp']
    have hadv : x.pos.adv = x.adv.pos := rfl
    rw [hadv]
    generalize alt x.adv = r at h ⊢
    obtain ⟨a, y⟩ := r
    show Parses _ _ (if y.cur = Ch.rparen then (a, y.adv) else (a, y.fail)) _
    refine h.bind (fun t hy hp ht => ?_) (fun hy => ?_) (fun t s t' s' hk => ?_)
    · show Parses _ _ _ (if y.cur = Ch.rparen then some (.group t, y.adv.pos) else none)
      by_cases hrp : y.cur = Ch.rparen
      · rw [if_pos hrp, if_pos hrp]
        exact Parses.made (r := (a, y.adv)) (t := .group t) hy hp ht
      · rw [if_neg hrp, if_neg hrp]
        exact Parses.failed rfl fun t s h => absurd h (by simp)
    · split
      · exact hy
      · rfl
    · dsimp only at hk
      split at hk
      · obtain ⟨rfl, -⟩ := Prod.mk.inj (Option.some.inj hk)
        exact le_rfl
      · exact absurd hk (by simp)
  · have hlp' : ¬ x.pos.cur = Ch.lparen := hlp
    rw [if_neg hlp']
    have htext : x.pos.p = x.p := rfl
    have hleft : x.pos.foldLeft = x.foldLeft := rfl
    rw [htext, hleft]
    cases hcls : foldClass? x.g.icase x.p x.foldLeft with
    | some r => exact gAtom_folds hle hlp hcls
    | none =>
        have hatom : gAtom alt x = gPosAtom x := by rw [gAtom, if_neg hlp, hcls]
        rw [hatom]
        exact gPosAtom_spec x

/-! ## Repetition -/

theorem repCopies_spec (g₀ : Gnfa w) (S : ByteSet) (lo : Nat) {cl lp : Bool} :
    ∀ (n ci : Nat) (ss : List ByteSet) (L : Language UInt8) (a : GAttr w) (x : GPar w), 1 ≤ ci →
      Piece g₀ a x.g ss cl L lp → x.g.npos ≤ w →
      (g₀.npos + ss.length + n ≤ w → (repCopies S (Int32.ofNat lo) n ci a x).2.g.ok = x.g.ok
        ∧ (repCopies S (Int32.ofNat lo) n ci a x).2.pos = x.pos
        ∧ Piece g₀ (repCopies S (Int32.ofNat lo) n ci a x).1 (repCopies S (Int32.ofNat lo) n ci a x).2.g
            (ss ++ List.replicate n S) cl (L * Re.copiesLang S (kept lo) n ci) lp)
      ∧ (w < g₀.npos + ss.length + n → (repCopies S (Int32.ofNat lo) n ci a x).2.g.ok = false)
  | 0, ci, ss, L, a, x, _, h, hle => by
      have hn := h.alloc.npos
      refine ⟨fun _ => ⟨rfl, rfl, ?_⟩, fun hw => absurd hle (by omega)⟩
      rw [List.replicate_zero, List.append_nil, Re.copiesLang, mul_one]
      exact h
  | n + 1, ci, ss, L, a, x, hci, h, hle => by
      have hn := h.alloc.npos
      rw [repCopies, decide_eq_decide.mpr (count_le_iff hci)]
      split
      · rename_i hfull
        refine ⟨fun hw => absurd hfull (by omega), fun _ => rfl⟩
      · rename_i hroom
        have hroom : x.g.npos < w := Nat.not_le.mp hroom
        have hstep := h.cat (Piece.single hroom S (decide (kept lo ≤ ci)))
        rw [Bool.and_true, Bool.or_false] at hstep
        have ih := repCopies_spec g₀ S lo n (ci + 1) (ss ++ [S]) _ _
          ((x.newPos S).link a.last (psSingle w x.g.npos)) (Nat.le_add_left 1 ci) hstep hroom
        rw [List.length_append, List.length_singleton, List.append_assoc,
          List.singleton_append, ← List.replicate_succ, mul_assoc] at ih
        have hlang : Re.copiesLang S (kept lo) (n + 1) ci
            = (if decide (kept lo ≤ ci) = true then 1 + Re.setLang S else Re.setLang S)
              * Re.copiesLang S (kept lo) n (ci + 1) := by
          simp only [Re.copiesLang, decide_eq_true_eq]
        rw [hlang]
        refine ⟨fun hw => ih.1 (by omega), fun hw => ih.2 (by omega)⟩

theorem peak_markStacked (t : Re) (s : PPos) : (markStacked t s).1.peak = t.peak := by
  rw [markStacked]
  split <;> rfl

theorem TreePiece.mark {g g' : Gnfa w} {a : GAttr w} {t : Re} (h : TreePiece g a g' t) (s : PPos) :
    TreePiece g a g' (markStacked t s).1 := by
  rw [markStacked]
  split <;> exact h

/-- A quantifier that changes the field without failing. -/
theorem Parses.marked {g₀ : Gnfa w} {ok : Bool} {r : GAttr w × GPar w} {t : Re}
    (hok : r.2.g.ok = ok) (hp : g₀.npos + t.peak ≤ w) (ht : TreePiece g₀ r.1 r.2.g t) :
    Parses g₀ ok r (some (markStacked t r.2.pos)) :=
  Parses.made hok ((peak_markStacked t r.2.pos).symm ▸ hp) (ht.mark _)

theorem peak_pBrace {t t' : Re} {s s' : PPos} (h : pBrace t s = some (t', s')) :
    t.peak ≤ t'.peak := by
  rw [pBrace] at h
  split at h
  · exact absurd h (by simp)
  · dsimp only at h
    split at h
    · exact absurd h (by simp)
    · split at h
      · exact absurd h (by simp)
      · obtain ⟨rfl, -⟩ := Prod.mk.inj (Option.some.inj h)
        show _ ≤ (markStacked _ _).1.peak
        rw [peak_markStacked]
        exact Nat.le_max_left _ _

/-- The piece in front of the copies: optional under a lower bound of 0. -/
theorem Piece.lower {g g' : Gnfa w} {a : GAttr w} {ss : List ByteSet} {cl lp : Bool}
    {L : Language UInt8} (h : Piece g a g' ss cl L lp) (lo : Nat) :
    Piece g { a with nullable := a.nullable || lo == 0 } g' ss cl
      (if lo = 0 then 1 + L else L) lp := by
  by_cases hlo : lo = 0
  · subst hlo
    rw [if_pos rfl, beq_self_eq_true, Bool.or_true]
    exact h.opt
  · rw [if_neg hlo, beq_false_of_ne hlo, Bool.or_false]
    exact h

/-- The byte set a bounded repeat copies is that of the only position. -/
theorem Alloc.setb_eq {g g' : Gnfa w} {a : GAttr w} {ss : List ByteSet} (h : Alloc g a g' ss)
    (hone : ss.length = 1) : g'.setb g.npos = ss.headD 0 := by
  obtain ⟨S, rfl⟩ := List.length_eq_one_iff.mp hone
  exact h.sets 0 S rfl

theorem TreePiece.rep {g₀ g' : Gnfa w} {a : GAttr w} {t : Re} {hi : Nat} (hhi : kept hi ≠ 0) (lo : Nat)
    (h : Piece g₀ a g' (t.sets ++ List.replicate (kept hi - 1) (t.sets.headD 0)) t.clean
      ((if kept lo = 0 then 1 + t.fieldLang else t.fieldLang)
        * Re.copiesLang (t.sets.headD 0) (kept lo) (kept hi - 1) 1) t.looped) :
    TreePiece g₀ a g' (.rep lo hi t) := by
  have hclean : (Re.rep lo hi t).clean = t.clean := by
    rw [Re.clean, bne_iff_ne.mpr hhi, Bool.true_or, Bool.and_true]
  rw [TreePiece, hclean, Re.sets, if_neg hhi, Re.fieldLang, if_neg hhi, Re.looped, if_neg hhi]
  exact h

theorem gBrace_spec {g₀ : Gnfa w} {a : GAttr w} {x : GPar w} {t : Re} (hok : x.g.ok = true)
    (hp : g₀.npos + t.peak ≤ w) (ht : TreePiece g₀ a x.g t) :
    Parses g₀ true (gBrace g₀.npos a x) (pBrace t x.pos) := by
  have hn := ht.alloc.npos
  rw [gBrace_eq, pBrace]
  by_cases hone : t.sets.length = 1
  · have hone' : ¬ x.g.npos ≠ g₀.npos + 1 := by omega
    rw [if_neg hone', if_neg (not_not.mpr hone)]
    have hadv : x.pos.adv.p = x.adv.p := rfl
    rw [hadv]
    generalize readBounds x.adv.p = b
    dsimp only
    cases b.hi with
    | none => exact Parses.failed rfl fun t s h => absurd h (by simp)
    | some hi =>
        have hcur : ({ x with p := b.rest } : GPar w).cur = b.rest.headD 0 := rfl
        dsimp only
        rw [hcur]
        by_cases hbad : (!b.haslo || b.rest.headD 0 != Ch.rbrace || refused hi) = true
        · rw [if_pos hbad, if_pos hbad]
          exact Parses.failed rfl fun t s h => absurd h (by simp)
        · rw [if_neg hbad, if_neg hbad]
          by_cases hzero : kept hi = 0
          · have hdrop : TreePiece g₀ (GAttr.eps w) { x.g with npos := g₀.npos } (.rep b.lo hi t) := by
              have hclean : (Re.rep b.lo hi t).clean = (t.clean && !t.looped) := by
                rw [Re.clean, hzero, bne_self_eq_false, Bool.false_or]
              rw [TreePiece, hclean, Re.sets, Re.fieldLang, Re.looped, if_pos hzero, if_pos hzero, if_pos hzero]
              exact ht.drop hone
            rw [if_pos hzero]
            exact Parses.marked (r := (GAttr.eps w, { ({ x with p := b.rest } : GPar w).adv with
              g := { x.g with npos := g₀.npos } })) (t := .rep b.lo hi t) hok
              (by rw [Re.peak, Re.sets, if_pos hzero, List.length_nil, Nat.max_zero]; exact hp) hdrop
          · have hset : ({ x with p := b.rest } : GPar w).adv.g.setb g₀.npos = t.sets.headD 0 :=
              ht.alloc.setb_eq hone
            rw [if_neg hzero, hset]
            have hcopies := repCopies_spec g₀ (t.sets.headD 0) b.lo (kept hi - 1) 1 t.sets _ _
              ({ x with p := b.rest } : GPar w).adv le_rfl (Piece.lower ht (kept b.lo))
              (by show x.g.npos ≤ w; have := t.length_sets_le_peak; omega)
            have hlen : (Re.rep b.lo hi t).sets.length = t.sets.length + (kept hi - 1) := by
              rw [Re.sets, if_neg hzero, List.length_append, List.length_replicate]
            generalize repCopies (t.sets.headD 0) (Int32.ofNat b.lo) (kept hi - 1) 1
              { a with nullable := a.nullable || kept b.lo == 0 } ({ x with p := b.rest } : GPar w).adv = r
              at hcopies ⊢
            have hpeak : (Re.rep b.lo hi t).peak = max t.peak (t.sets.length + (kept hi - 1)) := by
              rw [Re.peak, hlen]
            by_cases hfit : g₀.npos + t.sets.length + (kept hi - 1) ≤ w
            · obtain ⟨h1, h2, h3⟩ := hcopies.1 hfit
              have hpos :
                  ({ p := b.rest.tail, foldLeft := x.pos.foldLeft, foldByte := x.pos.foldByte } : PPos)
                    = r.2.pos := h2.symm
              rw [hpos]
              refine Parses.marked (h1.trans hok) ?_ (TreePiece.rep hzero b.lo h3)
              rw [hpeak]
              omega
            · refine Parses.failed (hcopies.2 (Nat.not_le.mp hfit)) fun t' s h => ?_
              have ht' : t' = (markStacked (.rep b.lo hi t) _).1 :=
                (congrArg Prod.fst (Option.some.inj h)).symm
              rw [ht', peak_markStacked, hpeak]
              omega
  · have hone' : x.g.npos ≠ g₀.npos + 1 := by omega
    rw [if_pos hone', if_pos hone]
    exact Parses.failed rfl fun t s h => absurd h (by simp)

/-- The part of `g_repeat` behind the atom. -/
def repTail (posBefore : Nat) (r : GAttr w × GPar w) : GAttr w × GPar w :=
  if r.2.cur = Ch.star then ({ r.1 with nullable := true }, r.2.adv.link r.1.last r.1.first)
  else if r.2.cur = Ch.plus then (r.1, r.2.adv.link r.1.last r.1.first)
  else if r.2.cur = Ch.quest then ({ r.1 with nullable := true }, r.2.adv)
  else if r.2.cur = Ch.lbrace then gBrace posBefore r.1 r.2
  else r

theorem gRepeat_eq (x : GPar w) : gRepeat alt x = repTail x.g.npos (gAtom alt x) := rfl

theorem repCopies_failed (S : ByteSet) (lo : Int32) :
    ∀ (n ci : Nat) (a : GAttr w) (x : GPar w), x.g.ok = false →
      (repCopies S lo n ci a x).2.g.ok = false
  | 0, _, _, _, hx => hx
  | n + 1, ci, a, x, hx => by
      rw [repCopies]
      split
      · rfl
      · exact repCopies_failed S lo n _ _ _ hx

theorem gBrace_failed {n : Nat} {a : GAttr w} {x : GPar w} (hx : x.g.ok = false) :
    (gBrace n a x).2.g.ok = false := by
  rw [gBrace]
  split
  · rfl
  dsimp only
  split
  · rfl
  split
  · exact hx
  · exact repCopies_failed _ _ _ _ _ _ hx

theorem repTail_failed {n : Nat} {r : GAttr w × GPar w} (hr : r.2.g.ok = false) :
    (repTail n r).2.g.ok = false := by
  rw [repTail]
  split
  · exact hr
  split
  · exact hr
  split
  · exact hr
  split
  · exact gBrace_failed hr
  · exact hr

theorem gRepeat_spec (halt : AltSpec ic alt palt) {x : GPar w} (hic : x.g.icase = ic)
    (hle : x.g.npos ≤ w) : Parses x.g x.g.ok (gRepeat alt x) (pRepeat ic palt x.pos) := by
  have h := gAtom_spec halt hic hle
  rw [gRepeat_eq, pRepeat]
  generalize gAtom alt x = r at h ⊢
  refine h.bind (fun t hr hp ht => ?_) repTail_failed (fun t s t' s' hk => ?_)
  · have hcur : r.2.pos.cur = r.2.cur := rfl
    rw [repTail]
    dsimp only
    rw [hcur]
    by_cases hstar : r.2.cur = Ch.star
    · rw [if_pos hstar, if_pos hstar]
      exact Parses.marked (r := ({ r.1 with nullable := true }, r.2.adv.link r.1.last r.1.first))
        (t := .star t) hr hp (Piece.star ht)
    rw [if_neg hstar, if_neg hstar]
    by_cases hplus : r.2.cur = Ch.plus
    · rw [if_pos hplus, if_pos hplus]
      exact Parses.marked (r := (r.1, r.2.adv.link r.1.last r.1.first)) (t := .plus t) hr hp
        (Piece.plus ht)
    rw [if_neg hplus, if_neg hplus]
    by_cases hquest : r.2.cur = Ch.quest
    · rw [if_pos hquest, if_pos hquest]
      exact Parses.marked (r := ({ r.1 with nullable := true }, r.2.adv)) (t := .opt t) hr hp
        (Piece.opt ht)
    rw [if_neg hquest, if_neg hquest]
    by_cases hbrace : r.2.cur = Ch.lbrace
    · rw [if_pos hbrace, if_pos hbrace]
      exact gBrace_spec hr hp ht
    · rw [if_neg hbrace, if_neg hbrace]
      exact Parses.made hr hp ht
  · have hmark : ∀ (u : Re) (s₀ : PPos), u.peak = t.peak → some (markStacked u s₀) = some (t', s') →
        t.peak ≤ t'.peak := by
      intro u s₀ hu h
      have ht' : t' = (markStacked u s₀).1 := (congrArg Prod.fst (Option.some.inj h)).symm
      rw [ht', peak_markStacked, hu]
    dsimp only at hk
    split at hk
    · exact hmark (.star t) _ rfl hk
    split at hk
    · exact hmark (.plus t) _ rfl hk
    split at hk
    · exact hmark (.opt t) _ rfl hk
    split at hk
    · exact peak_pBrace hk
    · obtain ⟨rfl, -⟩ := Prod.mk.inj (Option.some.inj hk)
      exact le_rfl

/-! ## Juxtaposition and alternation -/

theorem Parses.npos_le {g₀ g : Gnfa w} {a : GAttr w} {t : Re} (ht : TreePiece g₀ a g t)
    (hp : g₀.npos + t.peak ≤ w) : g.npos ≤ w := by
  have := ht.alloc.npos
  have := t.length_sets_le_peak
  omega

/-- An expression read behind the piece of `t`, put together with it. -/
theorem Parses.join {g₀ g₁ : Gnfa w} {a : GAttr w} {t : Re} {ok : Bool} {f : Re → Re}
    {r r' : GAttr w × GPar w} {o : Option (Re × PPos)} (ht : TreePiece g₀ a g₁ t)
    (hp : g₀.npos + t.peak ≤ w) (h : Parses g₁ ok r o)
    (hpeak : ∀ u, (f u).peak = max t.peak (t.sets.length + u.peak)) (hok' : r'.2.g.ok = r.2.g.ok)
    (hpos : r'.2.pos = r.2.pos)
    (hpc : ∀ u, TreePiece g₁ r.1 r.2.g u → TreePiece g₀ r'.1 r'.2.g (f u)) :
    Parses g₀ ok r' (o.map fun q => (f q.1, q.2)) where
  of_ok hr := by
    obtain ⟨hok, u, rfl, hu, hpu⟩ := h.of_ok (hok' ▸ hr)
    have hn := ht.alloc.npos
    refine ⟨hok, f u, by rw [hpos]; rfl, ?_, hpc u hpu⟩
    rw [hpeak]
    omega
  ok_of hok v s ho hv := by
    obtain ⟨⟨u, s'⟩, ho', hu⟩ := Option.map_eq_some_iff.mp ho
    obtain ⟨rfl, rfl⟩ := Prod.mk.inj hu
    have hn := ht.alloc.npos
    rw [hpeak] at hv
    dsimp only at hv
    exact hok'.trans (h.ok_of hok u s' ho' (by omega))

theorem Parses.append {g₀ g₁ : Gnfa w} {a : GAttr w} {t : Re} {ok : Bool}
    {r : GAttr w × GPar w} {o : Option (Re × PPos)} (ht : TreePiece g₀ a g₁ t)
    (hp : g₀.npos + t.peak ≤ w) (h : Parses g₁ ok r o) :
    Parses g₀ ok (a.cat r.1, r.2.link a.last r.1.first)
      (o.map fun q => (.cat t q.1, q.2)) :=
  h.join ht hp (fun _ => rfl) rfl rfl fun _ hu => Piece.cat ht hu

theorem Parses.orElse {g₀ g₁ : Gnfa w} {a : GAttr w} {t : Re} {ok : Bool}
    {r : GAttr w × GPar w} {o : Option (Re × PPos)} (ht : TreePiece g₀ a g₁ t)
    (hp : g₀.npos + t.peak ≤ w) (h : Parses g₁ ok r o) :
    Parses g₀ ok (a.alt r.1, r.2) (o.map fun q => (.alt t q.1, q.2)) :=
  h.join ht hp (fun _ => rfl) rfl rfl fun _ hu => Piece.alt ht hu

theorem gConcatLoop_failed (n : Nat) (any : Bool) (a : GAttr w) {x : GPar w}
    (hx : x.g.ok = false) : gConcatLoop alt n any a x = (a, x) := by
  cases n with
  | zero => rfl
  | succ n => rw [gConcatLoop, hx, Bool.and_false, if_neg Bool.false_ne_true]

theorem gAltLoop_failed (n : Nat) (a : GAttr w) {x : GPar w} (hx : x.g.ok = false) :
    gAltLoop alt n a x = (a, x) := by
  cases n with
  | zero => rfl
  | succ n => rw [gAltLoop, hx, Bool.and_false, if_neg Bool.false_ne_true]

theorem peak_pConcatLoop {ic : Bool} {palt : PPos → Option (Re × PPos)} :
    ∀ (n : Nat) (t : Re) (s : PPos) (t' : Re) (s' : PPos),
      pConcatLoop ic palt n (some t) s = some (t', s') → t.peak ≤ t'.peak
  | 0, t, s, t', s', h => by
      obtain ⟨rfl, -⟩ := Prod.mk.inj (Option.some.inj h)
      exact le_rfl
  | n + 1, t, s, t', s', h => by
      rw [pConcatLoop] at h
      split at h
      · obtain ⟨⟨u, s₁⟩, -, h⟩ := Option.bind_eq_some_iff.mp h
        have ih := peak_pConcatLoop n (.cat t u) s₁ t' s' h
        exact (Nat.le_max_left _ _).trans ih
      · obtain ⟨rfl, -⟩ := Prod.mk.inj (Option.some.inj h)
        exact le_rfl

theorem peak_pAltLoop {ic : Bool} {palt : PPos → Option (Re × PPos)} :
    ∀ (n : Nat) (t : Re) (s : PPos) (t' : Re) (s' : PPos),
      pAltLoop ic palt n t s = some (t', s') → t.peak ≤ t'.peak
  | 0, t, s, t', s', h => by
      obtain ⟨rfl, -⟩ := Prod.mk.inj (Option.some.inj h)
      exact le_rfl
  | n + 1, t, s, t', s', h => by
      rw [pAltLoop] at h
      split at h
      · obtain ⟨⟨u, s₁⟩, -, h⟩ := Option.bind_eq_some_iff.mp h
        have ih := peak_pAltLoop n (.alt t u) s₁ t' s' h
        exact (Nat.le_max_left _ _).trans ih
      · obtain ⟨rfl, -⟩ := Prod.mk.inj (Option.some.inj h)
        exact le_rfl

theorem gConcatLoop_spec (halt : AltSpec ic alt palt) {g₀ : Gnfa w} (hg : g₀.icase = ic) :
    ∀ (n : Nat) (t : Re) (a : GAttr w) (x : GPar w), x.g.ok = true → g₀.npos + t.peak ≤ w →
      TreePiece g₀ a x.g t →
      Parses g₀ true (gConcatLoop alt n true a x) (pConcatLoop ic palt n (some t) x.pos)
  | 0, t, a, x, hok, hp, ht => Parses.made hok hp ht
  | n + 1, t, a, x, hok, hp, ht => by
      rw [gConcatLoop, pConcatLoop, hok, Bool.and_true]
      have hcur : x.pos.cur = x.cur := rfl
      rw [hcur]
      by_cases hgo : concatGoes x.cur = true
      · rw [if_pos hgo, if_pos hgo]
        have h := (gRepeat_spec halt (ht.alloc.icase.trans hg) (Parses.npos_le ht hp)).append ht hp
        have hbind : (pRepeat ic palt x.pos).bind
              (fun q => pConcatLoop ic palt n (some (catItem (some t) q.1)) q.2)
            = ((pRepeat ic palt x.pos).map fun q => (Re.cat t q.1, q.2)).bind
                fun q => pConcatLoop ic palt n (some q.1) q.2 := by
          rw [Option.bind_map]
          rfl
        rw [hbind]
        rw [hok] at h
        show Parses _ _ (gConcatLoop alt n true (a.cat (gRepeat alt x).1)
          ((gRepeat alt x).2.link a.last (gRepeat alt x).1.first)) _
        generalize gRepeat alt x = r at h ⊢
        refine h.bind (fun u hy hu hpc => ?_) (fun hy => ?_)
          (fun u s u' s' hk => peak_pConcatLoop n u s u' s' hk)
        · exact gConcatLoop_spec halt hg n u _ _ hy hu hpc
        · rw [gConcatLoop_failed n true _ hy]
          exact hy
      · rw [if_neg hgo, if_neg hgo]
        exact Parses.made hok hp ht

theorem gConcat_spec (halt : AltSpec ic alt palt) {x : GPar w} (hic : x.g.icase = ic)
    (hle : x.g.npos ≤ w) : Parses x.g x.g.ok (gConcat alt x) (pConcat ic palt x.pos) := by
  rw [gConcat, pConcat]
  have hlen : x.pos.p.length = x.p.length := rfl
  rw [hlen]
  by_cases hok : x.g.ok = true
  · rw [gConcatLoop, pConcatLoop, hok, Bool.and_true]
    have hcur : x.pos.cur = x.cur := rfl
    rw [hcur]
    by_cases hgo : concatGoes x.cur = true
    · rw [if_pos hgo, if_pos hgo]
      have h := gRepeat_spec halt hic hle
      rw [hok] at h
      show Parses _ _ (gConcatLoop alt x.p.length true (gRepeat alt x).1 (gRepeat alt x).2) _
      generalize gRepeat alt x = r at h ⊢
      refine h.bind (fun u hy hu hpc => gConcatLoop_spec halt hic _ u _ _ hy hu hpc) (fun hy => ?_)
        (fun u s u' s' hk => peak_pConcatLoop _ u s u' s' hk)
      rw [gConcatLoop_failed _ true _ hy]
      exact hy
    · rw [if_neg hgo, if_neg hgo]
      exact Parses.made hok (by simpa [Re.peak] using hle) (Piece.eps x.g)
  · have hfail : x.g.ok = false := Bool.eq_false_iff.mpr hok
    rw [gConcatLoop_failed _ false _ hfail, hfail]
    exact Parses.of_false hfail

theorem gAltLoop_spec (halt : AltSpec ic alt palt) {g₀ : Gnfa w} (hg : g₀.icase = ic) :
    ∀ (n : Nat) (t : Re) (a : GAttr w) (x : GPar w), x.g.ok = true → g₀.npos + t.peak ≤ w →
      TreePiece g₀ a x.g t →
      Parses g₀ true (gAltLoop alt n a x) (pAltLoop ic palt n t x.pos)
  | 0, t, a, x, hok, hp, ht => Parses.made hok hp ht
  | n + 1, t, a, x, hok, hp, ht => by
      rw [gAltLoop, pAltLoop, hok, Bool.and_true]
      have hcur : x.pos.cur = x.cur := rfl
      rw [hcur]
      by_cases hbar : x.cur = Ch.bar
      · rw [if_pos (beq_iff_eq.mpr hbar), if_pos hbar]
        have h := (gConcat_spec halt (x := x.adv) (ht.alloc.icase.trans hg)
          (Parses.npos_le ht hp)).orElse ht hp
        have hbind : (pConcat ic palt x.pos.adv).bind
              (fun q => pAltLoop ic palt n (.alt t q.1) q.2)
            = ((pConcat ic palt x.adv.pos).map fun q => (Re.alt t q.1, q.2)).bind
                fun q => pAltLoop ic palt n q.1 q.2 := by
          rw [Option.bind_map]
          rfl
        rw [hbind]
        have hadv : x.adv.g.ok = true := hok
        rw [hadv] at h
        show Parses _ _ (gAltLoop alt n (a.alt (gConcat alt x.adv).1) (gConcat alt x.adv).2) _
        generalize gConcat alt x.adv = r at h ⊢
        refine h.bind (fun u hy hu hpc => ?_) (fun hy => ?_)
          (fun u s u' s' hk => peak_pAltLoop n u s u' s' hk)
        · exact gAltLoop_spec halt hg n u _ _ hy hu hpc
        · rw [gAltLoop_failed n _ hy]
          exact hy
      · rw [if_neg (mt beq_iff_eq.mp hbar), if_neg hbar]
        exact Parses.made hok hp ht

theorem gAltWith_spec (halt : AltSpec ic alt palt) : AltSpec ic (gAltWith alt) (pAltWith ic palt) := by
  intro x hic hle
  have h := gConcat_spec halt hic hle
  rw [gAltWith, pAltWith]
  show Parses _ _ (gAltLoop alt ((gConcat alt x).2.p.length + 1) (gConcat alt x).1
    (gConcat alt x).2) _
  generalize gConcat alt x = r at h ⊢
  refine h.bind (fun u hy hu hpc => gAltLoop_spec halt hic _ u _ _ hy hu hpc) (fun hy => ?_)
    (fun u s u' s' hk => peak_pAltLoop _ u s u' s' hk)
  rw [gAltLoop_failed _ _ hy]
  exact hy

theorem gAlt_spec (ic : Bool) : ∀ d, AltSpec (w := w) ic (gAlt d) (pAlt ic d)
  | 0 => fun _ _ _ => Parses.failed rfl fun _ _ h => absurd h (by simp [pAlt])
  | d + 1 => gAltWith_spec (gAlt_spec ic d)

/-! ## The compiled field -/

/-- The field of a pattern whose body reads as `t`. -/
structure Built (pat : List UInt8) (icase : Bool) (g : Gnfa w) (t : Re) : Prop where
  parse : parseRe icase (peelAnchors pat).2.2 = some t
  short : (peelAnchors pat).2.2.length < 1024
  fits : t.peak ≤ w
  npos : g.npos = t.sets.length
  sets : ∀ i S, t.sets[i]? = some S → g.setb i = S
  icase : g.icase = icase
  anchoredStart : g.anchoredStart = (peelAnchors pat).1
  anchoredEnd : g.anchoredEnd = (peelAnchors pat).2.1
  empty : g.npos = 0 → g.nullableAll = true ∧ g.first = 0
  lang : t.clean = true → (g.frag (buildImap g)).lang = t.fieldLang

def startGnfa (w : Nat) (pat : List UInt8) (icase : Bool) : Gnfa w :=
  { Gnfa.zero w with
    ok := true, icase, anchoredStart := (peelAnchors pat).1
    anchoredEnd := (peelAnchors pat).2.1 }

def startPar (w : Nat) (pat : List UInt8) (icase : Bool) : GPar w :=
  ⟨(peelAnchors pat).2.2, startGnfa w pat icase, 0, 0⟩

theorem startGnfa_clean (pat : List UInt8) (icase : Bool) : (startGnfa w pat icase).Clean :=
  fun _ _ => rfl

theorem buildGnfaAt_eq (w : Nat) (pat : List UInt8) (icase : Bool) :
    buildGnfaAt w pat icase =
      if 1024 ≤ (peelAnchors pat).2.2.length then (false, startGnfa w pat icase)
      else if (peelAnchors pat).2.2 = [] then
        (true, { startGnfa w pat icase with nullableAll := true })
      else
        let r := gAlt ((peelAnchors pat).2.2.length + 1) (startPar w pat icase)
        if !r.2.g.ok || r.2.p != [] || r.2.g.npos == 0 then (false, r.2.g)
        else (true, { r.2.g with
          first := r.1.first, last := r.1.last, nullableAll := r.1.nullable }) := by
  rw [buildGnfaAt, startPar, startGnfa]

theorem parseRe_nil (icase : Bool) : parseRe icase [] = some .empty := rfl

theorem Sem.frag_lang {g₀ g : Gnfa w} {a : GAttr w} {L : Language UInt8} {lp : Bool}
    (h : Sem g₀ a g L lp) (hw : g.npos ≤ w) :
    (({ g with first := a.first, last := a.last, nullableAll := a.nullable } : Gnfa w).frag
      (buildImap { g with first := a.first, last := a.last, nullableAll := a.nullable })).lang
      = L := by
  rw [← h.lang]
  refine Frag.lang_congr h.on (fun p hp => ?_) (fun _ _ _ => Iff.rfl) rfl rfl Iff.rfl
  ext c
  show (buildImap _ c).getLsbD p = true ↔ (g.setb p).has c = true
  rw [mem_buildImap (by exact hw)]
  exact and_iff_right hp.2

theorem built_of_parses {pat : List UInt8} {icase : Bool} {r : GAttr w × GPar w}
    {t : Re} (hparse : parseRe icase (peelAnchors pat).2.2 = some t)
    (hlen : (peelAnchors pat).2.2.length < 1024) (hp : t.peak ≤ w)
    (ht : TreePiece (startGnfa w pat icase) r.1 r.2.g t) (hne : r.2.g.npos ≠ 0) :
    Built pat icase { r.2.g with
      first := r.1.first, last := r.1.last, nullableAll := r.1.nullable } t where
  parse := hparse
  short := hlen
  fits := hp
  npos := by
    have hn := ht.alloc.npos
    rwa [startGnfa, Gnfa.zero, Nat.zero_add] at hn
  sets i S hS := by
    have := ht.alloc.sets i S hS
    rwa [startGnfa, Gnfa.zero, Nat.zero_add] at this
  icase := ht.alloc.icase
  anchoredStart := ht.alloc.anchoredStart
  anchoredEnd := ht.alloc.anchoredEnd
  empty h := absurd h hne
  lang hc := by
    have hw : (startGnfa w pat icase).npos + t.peak ≤ w := by
      rw [startGnfa, Gnfa.zero, Nat.zero_add]
      exact hp
    exact (ht.sem hc (startGnfa_clean pat icase)).frag_lang (Parses.npos_le ht hw)

/-- **The compiled field** is the field of the tree the grammar reads. -/
theorem buildGnfaAt_spec {pat : List UInt8} {icase : Bool}
    (h : (buildGnfaAt w pat icase).1 = true) :
    ∃ t, Built pat icase (buildGnfaAt w pat icase).2 t := by
  rw [buildGnfaAt_eq] at h ⊢
  split at h
  · exact absurd h Bool.false_ne_true
  rename_i hlen
  rw [if_neg hlen]
  split at h
  · rename_i hnil
    rw [if_pos hnil]
    refine ⟨.empty, by rw [hnil]; rfl, Nat.not_le.mp hlen, Nat.zero_le _, rfl, fun i S hS => absurd hS (by simp [Re.sets]),
      rfl, rfl, rfl, fun _ => ⟨rfl, rfl⟩, fun _ => ?_⟩
    exact Frag.lang_empty bits_zero rfl
  · rename_i hnil
    rw [if_neg hnil]
    have hspec := gAlt_spec (w := w) icase ((peelAnchors pat).2.2.length + 1) (startPar w pat icase)
      rfl (Nat.zero_le _)
    generalize gAlt ((peelAnchors pat).2.2.length + 1) (startPar w pat icase) = r at h hspec ⊢
    dsimp only at h ⊢
    split at h
    · exact absurd h Bool.false_ne_true
    · rename_i hacc
      rw [if_neg hacc]
      simp only [Bool.or_eq_true, Bool.not_eq_true', bne_iff_ne, beq_iff_eq, not_or,
        Bool.not_eq_false, ne_eq, not_not] at hacc
      obtain ⟨⟨hok, hend⟩, hne⟩ := hacc
      obtain ⟨-, t, ho, hp, ht⟩ := hspec.of_ok hok
      refine ⟨t, built_of_parses ?_ (Nat.not_le.mp hlen) ?_ ht hne⟩
      · rw [parseRe]
        show (pAlt icase _ (startPar w pat icase).pos).bind _ = _
        rw [ho, Option.bind_some]
        exact if_pos hend
      · rwa [startPar, startGnfa, Gnfa.zero, Nat.zero_add] at hp

/-- **Acceptance**: short enough, read by the grammar, fitting, and not an
expression that matches nothing but the empty word by construction. -/
theorem buildGnfaAt_accepts_iff {pat : List UInt8} {icase : Bool} :
    (buildGnfaAt w pat icase).1 = true ↔
      (peelAnchors pat).2.2.length < 1024 ∧ ∃ t, parseRe icase (peelAnchors pat).2.2 = some t
        ∧ t.peak ≤ w ∧ ((peelAnchors pat).2.2 = [] ∨ t.sets ≠ []) := by
  rw [buildGnfaAt_eq]
  by_cases hlen : 1024 ≤ (peelAnchors pat).2.2.length
  · rw [if_pos hlen]
    exact iff_of_false Bool.false_ne_true fun h => absurd h.1 (Nat.not_lt.mpr hlen)
  rw [if_neg hlen]
  by_cases hnil : (peelAnchors pat).2.2 = []
  · rw [if_pos hnil]
    refine iff_of_true rfl ⟨Nat.not_le.mp hlen, .empty, ?_, Nat.zero_le _, Or.inl hnil⟩
    rw [hnil]
    rfl
  rw [if_neg hnil]
  have hspec := gAlt_spec (w := w) icase ((peelAnchors pat).2.2.length + 1) (startPar w pat icase)
    rfl (Nat.zero_le _)
  have hzero : (startPar w pat icase).g.npos = 0 := rfl
  have hparse : parseRe icase (peelAnchors pat).2.2
      = (pAlt icase ((peelAnchors pat).2.2.length + 1) (startPar w pat icase).pos).bind
          fun r => if r.2.p = [] then some r.1 else none := rfl
  rw [hparse]
  generalize gAlt ((peelAnchors pat).2.2.length + 1) (startPar w pat icase) = r at hspec ⊢
  dsimp only
  constructor
  · intro h
    split at h
    · exact absurd h Bool.false_ne_true
    · rename_i hacc
      simp only [Bool.or_eq_true, Bool.not_eq_true', bne_iff_ne, beq_iff_eq, not_or,
        Bool.not_eq_false, ne_eq, not_not] at hacc
      obtain ⟨⟨hok, hend⟩, hne⟩ := hacc
      obtain ⟨-, t, ho, hp, ht⟩ := hspec.of_ok hok
      have hn := ht.alloc.npos
      rw [hzero, Nat.zero_add] at hp hn
      refine ⟨Nat.not_le.mp hlen, t, ?_, hp, Or.inr fun h0 => hne ?_⟩
      · rw [ho, Option.bind_some]
        exact if_pos hend
      · rw [hn, h0]
        rfl
  · rintro ⟨-, t, ho, hp, hne⟩
    obtain ⟨⟨t', s⟩, ho', hs⟩ := Option.bind_eq_some_iff.mp ho
    have hs : (if s.p = [] then some t' else none) = some t := hs
    split at hs
    · rename_i hend
      obtain rfl := Option.some.inj hs
      have hok := hspec.ok_of rfl t' s ho' (by rwa [hzero, Nat.zero_add])
      obtain ⟨-, t₁, ho₁, -, ht⟩ := hspec.of_ok hok
      obtain ⟨rfl, rfl⟩ := Prod.mk.inj (Option.some.inj (ho'.symm.trans ho₁))
      have hn := ht.alloc.npos
      rw [hzero, Nat.zero_add] at hn
      have hpos : r.2.g.npos ≠ 0 := by
        rw [hn]
        exact fun h0 => (hne.resolve_left hnil) (List.length_eq_zero_iff.mp h0)
      have hend' : r.2.p = [] := hend
      rw [if_neg]
      simp [hok, hend', hpos]
    · exact absurd hs (by simp)

end Montauk
