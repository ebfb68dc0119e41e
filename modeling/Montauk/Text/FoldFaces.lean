import Montauk.Text.Literals

/-!
# Case folding on two faces

With `-i` the regex face folds a character at compile time, through the
two case-fold tables; the exact face folds bytes at match time, and ASCII
letters only. On patterns without metacharacters the two select the same
lines exactly when no character of the pattern has a partner in the tables
(`icase_faces_agree_iff`): a character that has one is matched by a text
that is no ASCII-folded copy of the pattern (`partner_word`).
-/

open scoped Computability

namespace Montauk

/-- No byte of the pattern is a metacharacter. -/
def MetaFree (p : List UInt8) : Prop := ∀ c ∈ p, c ∉ metaBytes

instance (p : List UInt8) : Decidable (MetaFree p) :=
  inferInstanceAs (Decidable (∀ c ∈ p, c ∉ metaBytes))

/-- The character at the front has a partner in one of the fold tables. -/
def hasPartner (q : List UInt8) : Bool :=
  decide (0xc0 ≤ q.headD 0) &&
    match u8Decode q with
    | some (n, cp) => decide (2 ≤ n) && (foldAltMembers cp != [] || foldAltLast cp != 0)
    | none => false

/-- No character of the pattern has a partner beyond ASCII. -/
def foldFree (p : List UInt8) : Bool := p.tails.all fun q => !hasPartner q

/-! ## The tables -/

/-- A class that needs an alternation has a member whose encoding is no
ASCII-folded copy of the character itself. -/
theorem foldAltTable_differs : subFoldAltTable.all (fun e =>
    ([e.2.1, e.2.2.1, e.2.2.2].filter (· != 0)).any fun m => u8Encode m != []
      && (u8Decode ((u8Encode m).map (fold · true))).map (·.2) != some e.1) = true := by
  decide +kernel

/-- A partner's last byte is a continuation byte, and not the character's
own. -/
theorem foldTable_differs : subFoldTable.all (fun e =>
    decide (0x80 ≤ e.2) && e.2 != 0x80 ||| (UInt8.ofNat e.1 &&& 0x3f)) = true := by
  decide +kernel

/-- `é` has a partner, the letters of `ab` have none. -/
example : hasPartner [0xc3, 0xa9] = true ∧ foldFree [0x61, 0x62] = true := by decide +kernel

/-! ## Characters -/

theorem cont_high {c : UInt8} (h : c &&& 0xc0 = 0x80) : 0x80 ≤ c ∧ c = 0x80 ||| (c &&& 0x3f) :=
  forall_byte (P := fun c => c &&& 0xc0 = 0x80 → 0x80 ≤ c ∧ c = 0x80 ||| (c &&& 0x3f))
    (by decide +kernel) c h

theorem fold_high {c : UInt8} (h : 0x80 ≤ c) (ic : Bool) : fold c ic = c := by
  have hup : isUpper c = false :=
    forall_byte (P := fun c => 0x80 ≤ c → isUpper c = false) (by decide +kernel) c h
  rw [fold, hup, Bool.and_false]
  rfl

theorem map_fold_high {u : List UInt8} (h : ∀ c ∈ u, 0x80 ≤ c) (ic : Bool) :
    u.map (fold · ic) = u := by
  conv_rhs => rw [← List.map_id u]
  exact List.map_congr_left fun c hc => fold_high (h c hc) ic

/-- Shifting in the bits of one more byte leaves these as the low ones. -/
theorem low_bits (v : Nat) (c : UInt8) :
    UInt8.ofNat (v <<< 6 ||| (c &&& 0x3f).toNat) &&& 0x3f = c &&& 0x3f := by
  have hmask : ∀ n : Nat, n &&& 63 = n % 64 := fun n => Nat.and_two_pow_sub_one_eq_mod n 6
  have hc : (c &&& 0x3f).toNat = c.toNat % 64 := by
    rw [UInt8.toNat_and]
    exact hmask _
  apply UInt8.toNat_inj.mp
  rw [UInt8.toNat_and, hc, UInt8.toNat_ofNat']
  show (v <<< 6 ||| c.toNat % 64) % 256 &&& 63 = c.toNat % 64
  have hor : (v <<< 6 ||| c.toNat % 64) % 64 = v <<< 6 % 64 ||| c.toNat % 64 % 64 :=
    Nat.or_mod_two_pow (n := 6)
  rw [hmask, Nat.mod_mod_of_dvd _ (by decide), hor, Nat.shiftLeft_eq, Nat.mul_mod_left, Nat.mod_mod,
    Nat.zero_or]

theorem u8Tail_take : ∀ {n v : Nat} {p : List UInt8} {r : Nat}, u8Tail n v p = some r →
    u8Tail n v (p.take n) = some r
  | 0, _, _, _, h => h
  | n + 1, v, [], r, h => absurd h (by simp [u8Tail])
  | n + 1, v, c :: rest, r, h => by
      rw [u8Tail] at h
      rw [List.take_succ_cons, u8Tail]
      split at h
      · rename_i hc
        rw [if_pos hc]
        exact u8Tail_take h
      · exact absurd h (by simp)

theorem u8Tail_last : ∀ {n v : Nat} {p : List UInt8} {r : Nat}, u8Tail (n + 1) v p = some r →
    p[n]? = some (0x80 ||| (UInt8.ofNat r &&& 0x3f))
  | n, v, [], r, h => absurd h (by simp [u8Tail])
  | n, v, c :: rest, r, h => by
      rw [u8Tail] at h
      split at h
      · rename_i hc
        cases n with
        | zero =>
            obtain rfl := Option.some.inj h
            rw [low_bits, ← (cont_high hc).2]
            rfl
        | succ n =>
            rw [List.getElem?_cons_succ]
            exact u8Tail_last h
      · exact absurd h (by simp)

theorem u8Decode_take {p : List UInt8} {n cp : Nat} (h : u8Decode p = some (n, cp)) :
    u8Decode (p.take n) = some (n, cp) := by
  cases p with
  | nil => exact absurd h (by simp [u8Decode])
  | cons c rest =>
      have htail : ∀ k v, (u8Tail k v rest).map (fun v => (k + 1, v)) = some (n, cp) →
          (c :: rest).take n = c :: rest.take k
            ∧ (u8Tail k v (rest.take k)).map (fun v => (k + 1, v)) = some (n, cp) := by
        intro k v hk
        obtain ⟨r, hr, hn⟩ := Option.map_eq_some_iff.mp hk
        obtain ⟨rfl, rfl⟩ := Prod.mk.inj hn
        exact ⟨rfl, by rw [u8Tail_take hr]; rfl⟩
      rw [u8Decode] at h
      split at h
      · rename_i hc
        obtain ⟨rfl, rfl⟩ := Prod.mk.inj (Option.some.inj h)
        rw [List.take_succ_cons, u8Decode, if_pos hc]
      rename_i hc
      split at h
      · rename_i h2
        obtain ⟨htake, hrest⟩ := htail 1 _ h
        rw [htake, u8Decode, if_neg hc, if_pos h2]
        exact hrest
      rename_i h2
      split at h
      · rename_i h3
        obtain ⟨htake, hrest⟩ := htail 2 _ h
        rw [htake, u8Decode, if_neg hc, if_neg h2, if_pos h3]
        exact hrest
      rename_i h3
      split at h
      · rename_i h4
        obtain ⟨htake, hrest⟩ := htail 3 _ h
        rw [htake, u8Decode, if_neg hc, if_neg h2, if_neg h3, if_pos h4]
        exact hrest
      · exact absurd h (by simp)

theorem u8Decode_last {p : List UInt8} {n cp : Nat} (h : u8Decode p = some (n, cp)) (hn : 2 ≤ n) :
    p[n - 1]? = some (0x80 ||| (UInt8.ofNat cp &&& 0x3f)) := by
  cases p with
  | nil => exact absurd h (by simp [u8Decode])
  | cons c rest =>
      have htail : ∀ k v, (u8Tail (k + 1) v rest).map (fun v => (k + 1 + 1, v)) = some (n, cp) →
          (c :: rest)[n - 1]? = some (0x80 ||| (UInt8.ofNat cp &&& 0x3f)) := by
        intro k v hk
        obtain ⟨r, hr, hn⟩ := Option.map_eq_some_iff.mp hk
        obtain ⟨rfl, rfl⟩ := Prod.mk.inj hn
        show rest[k]? = _
        exact u8Tail_last hr
      rw [u8Decode] at h
      split at h
      · obtain ⟨rfl, -⟩ := Prod.mk.inj (Option.some.inj h)
        exact absurd hn (by decide)
      split at h
      · exact htail 0 _ h
      split at h
      · exact htail 1 _ h
      split at h
      · exact htail 2 _ h
      · exact absurd h (by simp)

/-! ## Reading without metacharacters -/

/-- The atom at the front of a pattern without metacharacters. -/
def readLiteral (s : PPos) : Re × PPos :=
  match foldClass? true s.p s.foldLeft with
  | some (n, ms) => (.folds (foldBranches s.p n ms), { s with p := s.p.drop n })
  | none => pLiteral true .lit s

variable {alt : PPos → Option (Re × PPos)} {s s' : PPos} {bs : List Re}

theorem MetaFree.cur (h : MetaFree s.p) {c : UInt8} (hc : c ∈ metaBytes) : s.cur ≠ c := by
  rintro rfl
  cases hp : s.p with
  | nil =>
      rw [PPos.cur, hp] at hc
      exact absurd hc (by decide)
  | cons d rest =>
      rw [PPos.cur, hp] at hc
      exact h d (by rw [hp]; exact List.mem_cons_self) hc

theorem MetaFree.suffix {p q : List UInt8} (h : MetaFree p) (hq : q <:+ p) : MetaFree q :=
  fun c hc => h c (hq.mem hc)

theorem pAtom_metaFree (h : MetaFree s.p) : pAtom true alt s = some (readLiteral s) := by
  rw [pAtom, if_neg (h.cur (by decide)), readLiteral]
  cases foldClass? true s.p s.foldLeft with
  | some r => rfl
  | none =>
      dsimp only
      rw [pPosAtom, if_neg (h.cur (by decide)), if_neg (h.cur (by decide)),
        if_neg fun hb => h.cur (by decide) hb.1]

theorem readLiteral_shorter (h : MetaFree s.p) (hne : s.p ≠ []) :
    Shorter (readLiteral s).2.p s.p := by
  have hatom : pAtom true (fun _ => none) s = some (readLiteral s) := pAtom_metaFree h
  exact pAtom_shorter (fun _ _ _ h => absurd h (by simp)) hatom hne

/-- An item of a pattern without metacharacters is a literal. -/
theorem pRepeat_metaFree (h : MetaFree s.p) (hne : s.p ≠ []) :
    pRepeat true alt s = some (readLiteral s) := by
  have hrest : MetaFree (readLiteral s).2.p := h.suffix (readLiteral_shorter h hne).suffix
  rw [pRepeat, pAtom_metaFree h, Option.bind_some]
  rw [if_neg (hrest.cur (by decide)), if_neg (hrest.cur (by decide)),
    if_neg (hrest.cur (by decide)), if_neg (hrest.cur (by decide))]

/-- Without metacharacters and NUL, a juxtaposition ends at the end of the
pattern. -/
theorem concatGoes_metaFree (h : MetaFree s.p) (h0 : (0 : UInt8) ∉ s.p) :
    concatGoes s.cur = true ↔ s.p ≠ [] := by
  refine ⟨concatGoes_ne, fun hne => ?_⟩
  have hz : s.cur ≠ 0 := by
    intro hz
    obtain ⟨c, rest, hp⟩ := List.exists_cons_of_ne_nil hne
    rw [PPos.cur, hp] at hz
    exact h0 (by rw [hp, ← hz]; exact List.mem_cons_self)
  rw [concatGoes, bne_iff_ne.mpr hz, bne_iff_ne.mpr (h.cur (by decide)),
    bne_iff_ne.mpr (h.cur (by decide))]
  rfl

/-- The set of a literal byte holds the byte; with one pending byte left it
holds the pending fold too. -/
theorem literalSet_spec (p : List UInt8) (left : Nat) (byte : UInt8) :
    (literalSet true p left byte).1.has (p.headD 0) = true
      ∧ (0 < left → (literalSet true p left byte).2.1 = left - 1
          ∧ (literalSet true p left byte).2.2 = byte
          ∧ (left = 1 → (literalSet true p left byte).1.has byte = true)) := by
  have hself : ∀ c : UInt8, (gsetByte 0 c true).has c = true := by
    intro c
    rw [has_gsetByte_zero]
    exact decide_eq_true rfl
  rw [literalSet, if_pos rfl]
  rcases Nat.eq_zero_or_pos left with rfl | hpos
  · rw [if_neg (Nat.lt_irrefl 0)]
    refine ⟨?_, fun h => absurd h (Nat.lt_irrefl 0)⟩
    split
    · split
      · split
        · exact hself _
        · exact hself _
      · exact hself _
    · exact hself _
  · rw [if_pos hpos]
    split
    · rename_i hone
      refine ⟨?_, fun _ => ⟨hone.symm, rfl, fun _ => ?_⟩⟩
      · rw [has_gsetByte, hself, Bool.true_or, Bool.true_or]
      · rw [has_gsetByte, beq_self_eq_true, Bool.or_true, Bool.true_or]
    · rename_i hmore
      exact ⟨hself _, fun _ => ⟨rfl, rfl, fun h => absurd (by omega) hmore⟩⟩

/-- **The words of a pattern without metacharacters**: the pattern itself,
and under a pending fold the pattern with the partner's last byte in the
place of the character's. By induction on the items. -/
theorem literal_words (h : Items true alt s bs s') :
    MetaFree s.p → (0 : UInt8) ∉ s.p → s'.p = [] ∧ (∀ b ∈ bs, b.clean = true)
      ∧ s.p ∈ (bs.map Re.fieldLang).prod
      ∧ (0 < s.foldLeft → s.foldLeft ≤ s.p.length →
          s.p.take (s.foldLeft - 1) ++ s.foldByte :: s.p.drop s.foldLeft
            ∈ (bs.map Re.fieldLang).prod) := by
  induction h with
  | @done s hstop =>
      intro hm h0
      have hnil : s.p = [] := by
        by_contra hne
        exact absurd (hstop.symm.trans ((concatGoes_metaFree hm h0).mpr hne)) Bool.false_ne_true
      refine ⟨hnil, fun b hb => absurd hb List.not_mem_nil, ?_, fun h1 h2 => ?_⟩
      · rw [hnil]
        exact Language.nil_mem_one
      · rw [hnil, List.length_nil] at h2
        omega
  | @item s s₁ s' b bs hgo hb h ih =>
      intro hm h0
      have hne := concatGoes_ne hgo
      have hshort := readLiteral_shorter hm hne
      rw [pRepeat_metaFree hm hne] at hb
      have hread := Option.some.inj hb
      obtain ⟨c, rest, hp⟩ := List.exists_cons_of_ne_nil hne
      have hs₁ : s₁ = (readLiteral s).2 := by rw [hread]
      have hb' : b = (readLiteral s).1 := by rw [hread]
      obtain ⟨hend, hclean, hself, hpend⟩ := ih (by rw [hs₁]; exact hm.suffix hshort.suffix)
        (by rw [hs₁]; exact fun hmem => h0 (hshort.suffix.mem hmem))
      rw [readLiteral] at hs₁ hb'
      cases hfold : foldClass? true s.p s.foldLeft with
      | some r =>
          obtain ⟨n, ms⟩ := r
          rw [hfold] at hs₁ hb'
          subst hs₁ hb'
          have hleft : s.foldLeft = 0 := (foldClass_decode hfold).1
          refine ⟨hend, List.forall_mem_cons.mpr ⟨rfl, hclean⟩, ?_, fun hpos => by omega⟩
          rw [List.map_cons, mem_prod_cons]
          exact ⟨s.p.take n, List.mem_cons_self, s.p.drop n, hself, List.take_append_drop n s.p⟩
      | none =>
          obtain ⟨hhas, hnext⟩ := literalSet_spec s.p s.foldLeft s.foldByte
          obtain ⟨⟨S, left, byte⟩, hset⟩ : ∃ r, literalSet true s.p s.foldLeft s.foldByte = r :=
            ⟨_, rfl⟩
          rw [hfold] at hs₁ hb'
          dsimp only at hs₁ hb'
          rw [pLiteral, hset] at hs₁ hb'
          rw [hset] at hhas hnext
          dsimp only at hnext
          have htail : s.p.tail = rest := by rw [hp]; rfl
          have hc : S.has c = true := by rwa [hp] at hhas
          subst hs₁ hb'
          dsimp only at hself hpend
          rw [htail] at hself hpend
          refine ⟨hend, List.forall_mem_cons.mpr ⟨rfl, hclean⟩, ?_, fun hpos hle => ?_⟩
          · rw [List.map_cons, mem_prod_cons]
            exact ⟨[c], ⟨c, hc, rfl⟩, rest, hself, hp.symm⟩
          · obtain ⟨hleft, rfl, hlast⟩ := hnext hpos
            rw [List.map_cons, mem_prod_cons]
            rcases Nat.lt_or_ge 1 s.foldLeft with hmore | hone
            · -- the partner's byte lies further on
              have hlen : left ≤ rest.length := by
                rw [hp, List.length_cons] at hle
                omega
              refine ⟨[c], ⟨c, hc, rfl⟩, _, hpend (by omega) hlen, ?_⟩
              have h1 : s.foldLeft - 1 = left - 1 + 1 := by omega
              have h2 : s.foldLeft = left + 1 := by omega
              rw [hp, h1, h2, List.take_succ_cons, List.drop_succ_cons]
              rfl
            · have h1 : s.foldLeft = 1 := by omega
              refine ⟨[s.foldByte], ⟨_, hlast h1, rfl⟩, rest, hself, ?_⟩
              rw [hp, h1]
              rfl

/-! ## A partner is a difference -/

/-- Some member of a class is written with other bytes than the character
at the front. -/
theorem exists_member_differs {q : List UInt8} {n cp : Nat} (hq : u8Decode q = some (n, cp))
    (hhigh : ∀ c ∈ q.take n, 0x80 ≤ c) (hms : foldAltMembers cp ≠ []) :
    ∃ m ∈ foldAltMembers cp, u8Encode m ≠ []
      ∧ (u8Encode m).map (fold · true) ≠ (q.take n).map (fold · true) := by
  obtain ⟨a, b, c, hmem, heq⟩ := foldAltMembers_mem hms
  have htable := List.all_eq_true.mp foldAltTable_differs _ hmem
  obtain ⟨m, hm, hdiff⟩ := List.any_eq_true.mp htable
  rw [Bool.and_eq_true, bne_iff_ne, bne_iff_ne] at hdiff
  refine ⟨m, by rw [heq]; exact hm, hdiff.1, fun heq => hdiff.2 ?_⟩
  rw [heq, map_fold_high hhigh, u8Decode_take hq]
  rfl

/-- The bytes of a decoded character with a lead byte beyond ASCII. -/
theorem take_high {q : List UInt8} {n cp : Nat} (hq : u8Decode q = some (n, cp))
    (hlead : 0xc0 ≤ q.headD 0) : ∀ c ∈ q.take n, 0x80 ≤ c := by
  intro c hc
  obtain ⟨hn, -, hcont⟩ := u8Decode_bytes hq
  cases q with
  | nil => exact absurd hq (by simp [u8Decode])
  | cons d rest =>
      obtain ⟨m, rfl⟩ : ∃ m, n = m + 1 := ⟨n - 1, by omega⟩
      rw [List.take_succ_cons] at hc hcont
      rcases List.mem_cons.mp hc with rfl | hc
      · have hlow : (0x80 : UInt8) ≤ 0xc0 := by decide
        exact UInt8.le_trans hlow hlead
      · exact (cont_high (hcont c hc)).1

theorem hasPartner_some {q : List UInt8} (h : hasPartner q = true) :
    ∃ n cp, u8Decode q = some (n, cp) ∧ 0xc0 ≤ q.headD 0 ∧ 2 ≤ n
      ∧ (foldAltMembers cp ≠ [] ∨ foldAltLast cp ≠ 0) := by
  rw [hasPartner, Bool.and_eq_true, decide_eq_true_eq] at h
  obtain ⟨hlead, h⟩ := h
  cases hq : u8Decode q with
  | none =>
      rw [hq] at h
      exact absurd h Bool.false_ne_true
  | some r =>
      obtain ⟨n, cp⟩ := r
      rw [hq] at h
      simp only [Bool.and_eq_true, decide_eq_true_eq, Bool.or_eq_true, bne_iff_ne] at h
      exact ⟨n, cp, rfl, hlead, h⟩

theorem literal_of_noPartner {q : List UInt8} (h : hasPartner q = false) (byte : UInt8) :
    foldClass? true q 0 = none ∧ literalSet true q 0 byte = (gsetByte 0 (q.headD 0) true, 0, byte) := by
  rw [hasPartner] at h
  rw [foldClass?, literalSet, if_pos rfl, if_neg (Nat.lt_irrefl 0)]
  by_cases hlead : 0xc0 ≤ q.headD 0
  · rw [decide_eq_true hlead, Bool.true_and] at h
    rw [if_pos hlead, if_pos (by rw [decide_eq_true hlead]; rfl)]
    cases hq : u8Decode q with
    | none => exact ⟨rfl, rfl⟩
    | some r =>
        obtain ⟨n, cp⟩ := r
        rw [hq] at h
        simp only [Bool.and_eq_false_iff, decide_eq_false_iff_not, Bool.or_eq_false_iff,
          bne_eq_false_iff_eq] at h
        dsimp only
        rw [if_neg fun hc => h.elim (absurd hc.1) fun hno => hc.2 hno.1,
          if_neg fun hc => h.elim (absurd hc.1) fun hno => hc.2 hno.2]
        exact ⟨rfl, rfl⟩
  · rw [if_neg hlead, if_neg (by rw [decide_eq_false hlead]; decide)]
    exact ⟨rfl, rfl⟩

theorem readLiteral_members {n cp : Nat} (hleft : s.foldLeft = 0) (hlead : 0xc0 ≤ s.p.headD 0)
    (hdec : u8Decode s.p = some (n, cp)) (hn : 2 ≤ n) (hms : foldAltMembers cp ≠ []) :
    readLiteral s = (.folds (foldBranches s.p n (foldAltMembers cp)), { s with p := s.p.drop n }) := by
  have hfold : foldClass? true s.p s.foldLeft = some (n, foldAltMembers cp) := by
    rw [foldClass?, hleft, if_pos (by rw [decide_eq_true hlead]; rfl), hdec]
    exact if_pos ⟨hn, hms⟩
  rw [readLiteral, hfold]

/-- With a partner that differs in the last byte only, that byte is
pending. -/
theorem readLiteral_last {n cp : Nat} (hleft : s.foldLeft = 0) (hlead : 0xc0 ≤ s.p.headD 0)
    (hdec : u8Decode s.p = some (n, cp)) (hn : 2 ≤ n) (hms : foldAltMembers cp = [])
    (hlast : foldAltLast cp ≠ 0) :
    readLiteral s = (.pos (.lit s.cur) (gsetByte 0 (s.p.headD 0) true),
      ⟨s.p.tail, n - 1, foldAltLast cp⟩) := by
  have hfold : foldClass? true s.p s.foldLeft = none := by
    rw [foldClass?, hleft, if_pos (by rw [decide_eq_true hlead]; rfl), hdec]
    exact if_neg fun h => h.2 hms
  have hset : literalSet true s.p s.foldLeft s.foldByte
      = (gsetByte 0 (s.p.headD 0) true, n - 1, foldAltLast cp) := by
    rw [literalSet, if_pos rfl, hleft, if_neg (Nat.lt_irrefl 0), if_pos hlead, hdec]
    exact if_pos ⟨hn, hlast⟩
  rw [readLiteral, hfold]
  dsimp only
  rw [pLiteral, hset]

/-- A partner's last byte in the place of the character's is a
difference. -/
theorem last_differs {q : List UInt8} {n cp : Nat} (hdec : u8Decode q = some (n, cp)) (hn : 2 ≤ n)
    (hlast : foldAltLast cp ≠ 0) {c : UInt8} {rest : List UInt8} (hq : q = c :: rest) :
    (c :: (rest.take (n - 1 - 1) ++ foldAltLast cp :: rest.drop (n - 1))).map (fold · true)
      ≠ q.map (fold · true) := by
  have htable := List.all_eq_true.mp foldTable_differs _ (foldAltLast_mem hlast)
  rw [Bool.and_eq_true, decide_eq_true_eq, bne_iff_ne] at htable
  dsimp only at htable
  generalize foldAltLast cp = last at htable ⊢
  have hbyte := u8Decode_last hdec hn
  obtain ⟨k, rfl⟩ : ∃ k, n = k + 2 := ⟨n - 2, by omega⟩
  rw [hq] at hbyte ⊢
  intro heq
  have hk : rest[k]? = some (0x80 ||| (UInt8.ofNat cp &&& 0x3f)) := hbyte
  obtain ⟨hlt, hget⟩ := List.getElem?_eq_some_iff.mp hk
  rw [List.map_cons, List.map_cons, List.cons.injEq] at heq
  have hsplit : rest = rest.take k ++ rest[k] :: rest.drop (k + 1) := by
    rw [← List.drop_eq_getElem_cons hlt, List.take_append_drop]
  have heq : (rest.take k ++ last :: rest.drop (k + 1)).map (fold · true)
      = (rest.take k ++ rest[k] :: rest.drop (k + 1)).map (fold · true) := by
    rw [← hsplit]
    exact heq.2
  rw [List.map_append, List.map_append, List.append_cancel_left_eq, List.map_cons, List.map_cons,
    List.cons.injEq, hget, fold_high htable.1, fold_high] at heq
  · exact htable.2 heq.1
  · exact forall_byte (P := fun c => (0x80 : UInt8) ≤ 0x80 ||| (c &&& 0x3f)) (by decide +kernel) _

/-- A pattern with a partner matches a text that is no ASCII-folded copy of
it. By induction on the items in front of the character. -/
theorem partner_word (h : Items true alt s bs s') :
    MetaFree s.p → (0 : UInt8) ∉ s.p → s.foldLeft = 0 → (∃ q, q <:+ s.p ∧ hasPartner q = true) →
      ∃ u ∈ (bs.map Re.fieldLang).prod, u.map (fold · true) ≠ s.p.map (fold · true) := by
  induction h with
  | @done s hstop =>
      intro hm h0 hleft hq
      obtain ⟨q, hsuf, hpart⟩ := hq
      have hnil : s.p = [] := by
        by_contra hne
        exact absurd (hstop.symm.trans ((concatGoes_metaFree hm h0).mpr hne)) Bool.false_ne_true
      rw [hnil] at hsuf
      rw [List.suffix_nil.mp hsuf] at hpart
      exact absurd hpart (by decide)
  | @item s s₁ s' b bs hgo hb h ih =>
      intro hm h0 hleft hq
      have hne := concatGoes_ne hgo
      have hshort := readLiteral_shorter hm hne
      rw [pRepeat_metaFree hm hne] at hb
      have hread := Option.some.inj hb
      obtain ⟨c, rest, hp⟩ := List.exists_cons_of_ne_nil hne
      have hs₁ : s₁ = (readLiteral s).2 := by rw [hread]
      have hm₁ : MetaFree s₁.p := by rw [hs₁]; exact hm.suffix hshort.suffix
      have h0₁ : (0 : UInt8) ∉ s₁.p := by rw [hs₁]; exact fun hmem => h0 (hshort.suffix.mem hmem)
      obtain ⟨-, -, hself, hpend⟩ := literal_words h hm₁ h0₁
      rw [List.map_cons]
      by_cases hpart : hasPartner s.p = true
      · obtain ⟨n, cp, hdec, hlead, hn, hor⟩ := hasPartner_some hpart
        by_cases hms : foldAltMembers cp = []
        · have hlast := hor.resolve_left (not_not.mpr hms)
          rw [readLiteral_last hleft hlead hdec hn hms hlast] at hread
          obtain ⟨rfl, rfl⟩ := Prod.mk.inj hread
          have hlen : n ≤ rest.length + 1 := by
            have := (u8Decode_bytes hdec).2.1
            rwa [hp] at this
          have htail : s.p.tail = rest := by rw [hp]; rfl
          dsimp only at hpend
          rw [htail] at hpend
          refine ⟨_, mem_prod_cons.mpr ⟨[c], ⟨c, ?_, rfl⟩, _, hpend (by omega) (by omega), rfl⟩,
            last_differs hdec hn hlast hp⟩
          rw [hp, List.headD_cons, has_gsetByte_zero]
          exact decide_eq_true rfl
        · rw [readLiteral_members hleft hlead hdec hn hms] at hread
          obtain ⟨rfl, rfl⟩ := Prod.mk.inj hread
          obtain ⟨m, hm, henc, hdiff⟩ := exists_member_differs hdec (take_high hdec hlead) hms
          refine ⟨_, mem_prod_cons.mpr ⟨u8Encode m, ?_, s.p.drop n, hself, rfl⟩, fun heq => hdiff ?_⟩
          · refine List.mem_cons_of_mem _ (List.mem_filter.mpr ⟨List.mem_map_of_mem hm, ?_⟩)
            exact bne_iff_ne.mpr henc
          · have hsplit : s.p.map (fold · true)
                = (s.p.take n).map (fold · true) ++ (s.p.drop n).map (fold · true) := by
              rw [← List.map_append, List.take_append_drop]
            rw [hsplit, List.map_append] at heq
            exact List.append_cancel_right heq
      · obtain ⟨hfold, hset⟩ := literal_of_noPartner (Bool.eq_false_iff.mpr hpart) s.foldByte
        have hlit : readLiteral s = (.pos (.lit s.cur) (gsetByte 0 (s.p.headD 0) true),
            ⟨s.p.tail, 0, s.foldByte⟩) := by
          rw [readLiteral, hleft, hfold]
          dsimp only
          rw [pLiteral, hleft, hset]
        rw [hlit] at hread
        obtain ⟨rfl, rfl⟩ := Prod.mk.inj hread
        obtain ⟨q, hsuf, hq⟩ := hq
        have htail : s.p.tail = rest := by rw [hp]; rfl
        have hsuf' : q <:+ rest := by
          rw [hp] at hsuf hpart
          rcases List.suffix_cons_iff.mp hsuf with rfl | hsuf
          · exact absurd hq hpart
          · exact hsuf
        obtain ⟨u, hu, hdiff⟩ := ih hm₁ h0₁ rfl ⟨q, by rw [htail]; exact hsuf', hq⟩
        refine ⟨_, mem_prod_cons.mpr ⟨[c], ⟨c, ?_, rfl⟩, u, hu, rfl⟩, fun heq => hdiff ?_⟩
        · rw [hp, List.headD_cons, has_gsetByte_zero]
          exact decide_eq_true rfl
        · rw [hp, List.singleton_append, List.map_cons, List.map_cons, List.cons.injEq] at heq
          rw [htail]
          exact heq.2

/-! ## Where the faces agree -/

theorem MetaFree.peel {p : List UInt8} (h : MetaFree p) : peelAnchors p = (false, false, p) :=
  peelAnchors_bare (fun hc => h _ (List.mem_of_head? hc) (by decide))
    fun hc => h _ (List.mem_of_getLast? hc) (by decide)

/-- A pattern without metacharacters and partners is a chain. -/
theorem chain_metaFree : ∀ {p : List UInt8}, MetaFree p → (0 : UInt8) ∉ p → foldFree p = true →
    ∃ bs, ByteChain true p p bs
  | [], _, _, _ => ⟨[], .nil⟩
  | c :: p, hm, h0, hfree => by
      have hc0 : c ≠ 0 := fun h => h0 (h ▸ List.mem_cons_self)
      rw [foldFree, List.tails_cons, List.all_cons, Bool.and_eq_true, Bool.not_eq_true'] at hfree
      have hm' : MetaFree p := fun d hd => hm d (List.mem_cons_of_mem c hd)
      obtain ⟨bs, hbs⟩ := chain_metaFree hm' (fun h => h0 (List.mem_cons_of_mem c h)) hfree.2
      obtain ⟨hfold, hset⟩ := literal_of_noPartner hfree.1 0
      have hcur : ∀ q ∈ metaBytes, (PPos.at p).cur ≠ q := fun q hq => MetaFree.cur (s := .at p) hm' hq
      have hq : quantByte (PPos.at p).cur = false := by
        rw [quantByte, beq_false_of_ne (hcur _ (by decide)), beq_false_of_ne (hcur _ (by decide)),
          beq_false_of_ne (hcur _ (by decide)), beq_false_of_ne (hcur _ (by decide))]
        rfl
      exact ⟨_, .cons (byteAtom_plain hc0 (hm c List.mem_cons_self) hfold hset hq) hbs⟩

theorem agree_of_invalid {s s' : Search} (h : s.valid = false) (h' : s'.valid = false) :
    s.Agree s' := by
  intro hay
  rw [searchFullMatch, searchFullMatch, h, h']
  refine ⟨rfl, fun start => ?_⟩
  rw [searchFindFrom, searchFindFrom, h, h']
  rfl

theorem searchCompile_long {p : List UInt8} (h : searchMaxPattern < p.length) (flags : SearchFlags) :
    (searchCompile p flags 0).valid = false := by
  rw [searchCompile, if_pos h]

theorem fullMatch_fixed (icase : Bool) {p : List UInt8} (hne : p ≠ [])
    (hlen : p.length ≤ searchMaxPattern) (u : List UInt8) :
    searchFullMatch (searchCompile p ⟨true, icase⟩ 0) u = true
      ↔ u.map (fold · icase) = p.map (fold · icase) := by
  obtain ⟨hv, hmode, hpat, hic⟩ := searchCompile_fixed icase hne hlen
  rw [searchFullMatch_iff hv, Search.Match, hmode, hpat, hic, Nat.zero_add, slice, List.drop_zero,
    Nat.sub_zero, List.take_length]
  constructor
  · exact fun h => h.2.2
  · intro h
    have hsize := congrArg List.length h
    rw [List.length_map, List.length_map] at hsize
    exact ⟨hsize, le_rfl, h⟩

theorem ByteChain.too_long {icase : Bool} {pat v : List UInt8} {bs : List Re}
    (h : ByteChain icase (peelAnchors pat).2.2 v bs) (hne : v ≠ [])
    (hlen : (peelAnchors pat).2.2.length < 1024) (hlong : 128 < v.length) :
    buildGnfa pat icase = none := by
  obtain ⟨h1, h2⟩ := h.buildGnfaAt_full (w := 64 * 1) hne hlen (by omega)
  obtain ⟨h3, -⟩ := h.buildGnfaAt_full (w := 64 * 2) hne hlen (by omega)
  rw [buildGnfa]
  dsimp only
  rw [h1, if_neg Bool.false_ne_true, h2, if_neg (by decide), h3, if_neg Bool.false_ne_true]

/-- What the regex face accepts of a pattern without metacharacters. -/
theorem RegexFace.items {p : List UInt8} {s : Search} {t : Re} (hs : RegexFace p true s t)
    (hm : MetaFree (cString p)) :
    ∃ alt bs s', Items true alt (.at (cString p)) bs s'
      ∧ ∀ u, searchFullMatch s u = true ↔ u ∈ (bs.map Re.fieldLang).prod := by
  have hparse := hs.built.parse
  rw [hm.peel] at hparse
  obtain ⟨bs, s', cs, hitems, rfl, hcs⟩ := parseRe_items hparse
  obtain ⟨hend, hclean, -, -⟩ := literal_words hitems hm (zero_notMem_cString p)
  obtain rfl := hcs hend
  refine ⟨_, bs, s', hitems, fun u => ?_⟩
  have hall : (catAll none bs).clean = true :=
    (catAll_iff (P := fun t => t.clean = true) rfl (fun _ _ => Bool.and_eq_true_iff) bs
      none).mpr ⟨fun _ h => absurd h (by simp), hclean⟩
  rw [searchFullMatch, hs.valid, hs.mode, hs.imap]
  show gnfaFull _ _ u = true ↔ _
  rw [gnfaFull_iff, hs.built.lang hall, List.foldl_nil, fieldLang_catAll, Option.elim_none, one_mul]

/-- **`-i` on the regex and the exact face**: for a pattern without
metacharacters the two select the same lines exactly when it is too long
for both, or it is not empty, has no NUL, fits the position budget and no
character of it has a fold partner beyond ASCII. -/
theorem icase_faces_agree_iff {p : List UInt8} (hm : MetaFree p) :
    (searchCompile p ⟨false, true⟩ 0).Agree (searchCompile p ⟨true, true⟩ 0)
      ↔ searchMaxPattern < p.length
        ∨ p ≠ [] ∧ p.length ≤ 128 ∧ (0 : UInt8) ∉ p ∧ foldFree p = true := by
  have hmax : searchMaxPattern = 1023 := rfl
  constructor
  · intro hagree
    rcases Nat.lt_or_ge searchMaxPattern p.length with hlong | hlen
    · exact Or.inl hlong
    refine Or.inr ?_
    have hne : p ≠ [] := by
      rintro rfl
      have hempty := (hagree []).1
      exact absurd hempty (by decide +kernel)
    have hexact := fullMatch_fixed true hne hlen
    have hregex : searchFullMatch (searchCompile p ⟨false, true⟩ 0) p = true := by
      rw [(hagree p).1, hexact]
    have hv : (searchCompile p ⟨false, true⟩ 0).valid = true := by
      by_contra hv
      rw [searchFullMatch, Bool.eq_false_iff.mpr hv] at hregex
      exact absurd hregex (by simp)
    obtain ⟨t, ht⟩ := searchCompile_regex hv
    have hm' : MetaFree (cString p) :=
      fun c hc => hm c ((List.takeWhile_prefix _).sublist.subset hc)
    obtain ⟨alt, bs, s', hitems, hwords⟩ := ht.items hm'
    have hcut0 := zero_notMem_cString p
    -- the text up to the first NUL is matched, so it is the whole pattern
    have hcut : cString p = p := by
      obtain ⟨-, -, hself, -⟩ := literal_words hitems hm' hcut0
      have hmatch := (hwords _).mpr hself
      rw [(hagree _).1, hexact] at hmatch
      have hsize := congrArg List.length hmatch
      rw [List.length_map, List.length_map] at hsize
      exact (List.takeWhile_prefix _).eq_of_length hsize
    have h0 : (0 : UInt8) ∉ p := hcut ▸ hcut0
    have hfree : foldFree p = true := by
      rw [foldFree, List.all_eq_true]
      intro q hq
      rw [Bool.not_eq_true', Bool.eq_false_iff]
      intro hpart
      have hsuf : q <:+ (PPos.at (cString p)).p := by
        rw [hcut]
        exact (List.mem_tails _ _).mp hq
      obtain ⟨u, hu, hdiff⟩ := partner_word hitems hm' hcut0 rfl ⟨q, hsuf, hpart⟩
      have hmatch := (hwords _).mpr hu
      rw [(hagree _).1, hexact] at hmatch
      exact hdiff (by rw [hcut]; exact hmatch)
    refine ⟨hne, Nat.not_lt.mp fun hlong => ?_, h0, hfree⟩
    obtain ⟨bs, hchain⟩ := chain_metaFree hm h0 hfree
    have hbody : (peelAnchors (cString p)).2.2 = p := by rw [hcut, hm.peel]
    have hnone : buildGnfa (cString p) true = none :=
      ByteChain.too_long (by rwa [hbody]) hne (by rw [hbody]; omega) hlong
    rw [searchCompile, if_neg (by omega)] at hv
    dsimp only at hv
    rw [if_neg (lt_irrefl _), if_neg Bool.false_ne_true, hnone] at hv
    exact absurd hv Bool.false_ne_true
  · rintro (hlong | ⟨hne, hfit, h0, hfree⟩)
    · exact agree_of_invalid (searchCompile_long hlong _) (searchCompile_long hlong _)
    · have hcut := cString_of_notMem h0
      obtain ⟨bs, hchain⟩ := chain_metaFree hm h0 hfree
      have hchain : ByteChain true (cString p) p bs := by rwa [hcut]
      exact (hchain.agree (by rw [hcut]; exact hm.peel) hne (by omega) (by omega) hfit).2

/-- `abc`. -/
theorem icase_faces_agree_iff_abc :
    (searchCompile [0x61, 0x62, 0x63] ⟨false, true⟩ 0).Agree
      (searchCompile [0x61, 0x62, 0x63] ⟨true, true⟩ 0) := by
  have hm : MetaFree [0x61, 0x62, 0x63] := by decide +kernel
  exact (icase_faces_agree_iff hm).mpr
    (Or.inr ⟨List.cons_ne_nil _ _, by decide, by decide +kernel, by decide +kernel⟩)

/-- `é` against the line `É`. -/
theorem icase_faces_accent :
    MetaFree [0xc3, 0xa9]
      ∧ searchFullMatch (searchCompile [0xc3, 0xa9] ⟨false, true⟩ 0) [0xc3, 0x89] = true
      ∧ searchFullMatch (searchCompile [0xc3, 0xa9] ⟨true, true⟩ 0) [0xc3, 0x89] = false := by
  decide +kernel

end Montauk
