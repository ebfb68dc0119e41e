import Montauk.Tools.Golden

/-!
# Freezing and checking

What is read back of a golden: every line in front of the gauges, and every
gauge line that fits its buffer. A longer one loses the end of its key and its
newline, so that the line behind it becomes a part of its key
(`pieces_gaugeLines`). The check looks a gauge up by its key and finds the
first metric that has it. Freezing and checking agree exactly when every key in
the file leads to a metric with the same value, or with one in the band
(`agrees_iff`).
-/

namespace Montauk.Tools

open Scan Ch
open App (spelling)
open Collect (isBlank)

/-! ## Words -/

section

variable {w rest : List UInt8}

theorem isBlank_of_wordByte {c : UInt8} (h : wordByte c = true) : isBlank c = false := by
  rw [wordByte, Bool.and_eq_true, Bool.not_eq_true'] at h
  exact h.1

/-- What the tool itself writes in front of a value: a word that starts no
comment. -/
def keyword (w : List UInt8) : Bool :=
  !w.isEmpty && w.all wordByte && w.head? != some 0x23

theorem word_of_keyword (h : keyword w = true) : w ≠ [] ∧ ∀ c ∈ w, wordByte c = true := by
  rw [keyword, Bool.and_eq_true, Bool.and_eq_true, Bool.not_eq_true', List.isEmpty_eq_false_iff] at h
  exact ⟨h.1.1, List.all_eq_true.mp h.1.2⟩

theorem head_of_keyword (h : keyword w = true) : w.head? ≠ some 0x23 := by
  rw [keyword, Bool.and_eq_true] at h
  exact bne_iff_ne.mp h.2

theorem newline_notMem_word (hw : ∀ c ∈ w, wordByte c = true) : newline ∉ w :=
  fun h => absurd (hw newline h) (by decide)

theorem dropWhile_word (hne : w ≠ []) (hw : ∀ c ∈ w, wordByte c = true) (s : List UInt8) :
    (w ++ s).dropWhile isBlank = w ++ s := by
  obtain ⟨c, w, rfl⟩ := List.exists_cons_of_ne_nil hne
  have hc := isBlank_of_wordByte (hw c List.mem_cons_self)
  rw [List.cons_append, List.dropWhile_cons_of_neg (by rw [hc]; exact Bool.false_ne_true)]

theorem splitKey_word (hne : w ≠ []) (hw : ∀ c ∈ w, wordByte c = true) (rest : List UInt8) :
    splitKey (w ++ 0x20 :: rest) = some (w, rest.dropWhile isBlank) := by
  have hblank : ∀ c ∈ w, (!isBlank c) = true := by
    intro c hc
    rw [isBlank_of_wordByte (hw c hc)]
    rfl
  have hsome : w ++ 0x20 :: rest ≠ [] := List.append_ne_nil_of_right_ne_nil w (List.cons_ne_nil _ _)
  have hend : (!isBlank 0x20) = false := rfl
  have hskip : isBlank 0x20 = true := rfl
  rw [splitKey, dropWhile_word hne hw, if_neg hsome, List.takeWhile_append_of_pos hblank,
    List.dropWhile_append_of_pos hblank, List.takeWhile_cons_of_neg (by rw [hend]; exact Bool.false_ne_true),
    List.append_nil, List.dropWhile_cons_of_neg (by rw [hend]; exact Bool.false_ne_true),
    List.dropWhile_cons_of_pos hskip]

theorem splitKey_words {v : List UInt8} (hne : w ≠ []) (hw : ∀ c ∈ w, wordByte c = true)
    (hvne : v ≠ []) (hv : ∀ c ∈ v, wordByte c = true) (rest : List UInt8) :
    splitKey (w ++ 0x20 :: (v ++ rest)) = some (w, v ++ rest) := by
  rw [splitKey_word hne hw, dropWhile_word hvne hv]

theorem splitOff_words {v : List UInt8} (hne : w ≠ []) (hw : ∀ c ∈ w, wordByte c = true)
    (hvne : v ≠ []) (hv : ∀ c ∈ v, wordByte c = true) (rest : List UInt8) :
    splitOff (w ++ 0x20 :: (v ++ rest)) = (w, v ++ rest) := by
  rw [splitOff, splitKey_words hne hw hvne hv, Option.getD_some]

end

/-! ## A gauge line -/

section

variable {F : Type} (lib : Libc F) (band : Band F) (m : PromMetric F) (red : Reduction)

theorem word_fixed4 (v : F) : lib.fixed4 v ≠ [] ∧ ∀ c ∈ lib.fixed4 v, wordByte c = true ∧ c ≠ 0 :=
  lib.words v _ (by simp)

theorem word_fixed6 (v : F) : lib.fixed6 v ≠ [] ∧ ∀ c ∈ lib.fixed6 v, wordByte c = true ∧ c ≠ 0 :=
  lib.words v _ (by simp)

theorem word_general6 (v : F) :
    lib.general6 v ≠ [] ∧ ∀ c ∈ lib.general6 v, wordByte c = true ∧ c ≠ 0 :=
  lib.words v _ (by simp)

theorem word_general10 (v : F) :
    lib.general10 v ≠ [] ∧ ∀ c ∈ lib.general10 v, wordByte c = true ∧ c ≠ 0 :=
  lib.words v _ (by simp)

theorem word_tierOf (name : List UInt8) :
    tierOf name ≠ [] ∧ ∀ c ∈ tierOf name, wordByte c = true := by
  rw [tierOf]
  split
  · exact word_of_keyword rfl
  · exact word_of_keyword rfl

theorem word_reduction (red : Reduction) :
    red.word ≠ [] ∧ ∀ c ∈ red.word, wordByte c = true := by
  cases red with
  | point => exact word_of_keyword rfl
  | last => exact word_of_keyword rfl
  | mean => exact word_of_keyword rfl
  | max => exact word_of_keyword rfl
  | min => exact word_of_keyword rfl

theorem parseDouble_word {text : List UInt8} (hne : text ≠ [])
    (hw : ∀ c ∈ text, wordByte c = true ∧ c ≠ 0) (hused : (lib.strtod text).2 = text.length) :
    parseDouble lib text = some (lib.strtod text).1 := by
  have hcstr : cstr text = text := cstr_eq_self fun h => (hw 0 h).2 rfl
  have hpos := List.length_pos_iff.mpr hne
  rw [parseDouble]
  dsimp only
  rw [hcstr, hused, if_neg (by omega)]

theorem gaugeHead_append (text : List UInt8) :
    gaugeHead lib band m red ++ text
      = spelling "gauge" ++ 0x20 :: (tierOf m.name ++ 0x20 :: (red.word ++ 0x20 ::
          (lib.fixed4 band.tolPct ++ 0x20 :: (lib.general6 band.floor ++ 0x20 ::
            (lib.general10 m.value ++ 0x20 :: text))))) := by
  have hgauge : spelling "gauge " = spelling "gauge" ++ [0x20] := rfl
  rw [gaugeHead, hgauge]
  simp only [List.append_assoc, List.cons_append, List.nil_append]

theorem length_gaugeHead : (gaugeHead lib band m red).length ≤ 374 := by
  have htier : (tierOf m.name).length ≤ 13 := by
    rw [tierOf]
    split
    · exact Nat.le_refl 13
    · exact Nat.le_succ_of_le (Nat.le_succ_of_le (Nat.le_refl 11))
  have hred : red.word.length ≤ 5 := by cases red <;> decide
  have hgauge : (spelling "gauge ").length = 6 := rfl
  have h4 := lib.fixed4_length band.tolPct
  have h6 := lib.general6_length band.floor
  have h10 := lib.general10_length m.value
  rw [gaugeHead]
  simp only [List.length_append, List.length_singleton, hgauge]
  omega

theorem newline_notMem_gaugeHead : newline ∉ gaugeHead lib band m red := by
  have hblank : newline ∉ [(0x20 : UInt8)] := by decide
  rw [gaugeHead]
  simp only [List.mem_append, not_or]
  exact ⟨⟨⟨⟨⟨⟨⟨⟨⟨⟨by decide, newline_notMem_word (word_tierOf m.name).2⟩, hblank⟩,
    newline_notMem_word (word_reduction red).2⟩, hblank⟩,
    newline_notMem_word fun c hc => ((word_fixed4 lib band.tolPct).2 c hc).1⟩, hblank⟩,
    newline_notMem_word fun c hc => ((word_general6 lib band.floor).2 c hc).1⟩, hblank⟩,
    newline_notMem_word fun c hc => ((word_general10 lib m.value).2 c hc).1⟩, hblank⟩

/-- A number shortened to six significant digits, as `%.6g` leaves it. -/
def sixDigits (v : F) : F := (lib.strtod (lib.general6 v)).1

/-- What is read of a gauge line with this key. -/
def frozenGauge (key : List UInt8) : GoldenGauge F where
  key
  value := m.value
  tolPct := band.tolPct
  floor := sixDigits lib band.floor
  tier := tierOf m.name
  reduction := red.word

/-- A gauge line is read, unless nothing is left for its key. -/
theorem readGoldenLine_gauge (htol : lib.decimals4 band.tolPct) (hfloor : lib.finite band.floor)
    (hvalue : lib.digits10 m.value) (lineno : Nat) (g : Golden F) (text : List UInt8) :
    readGoldenLine lib lineno g (gaugeHead lib band m red ++ text) =
      if text.dropWhile isBlank = [] then .error (.gaugeNeeds lineno)
      else .ok { g with gauges := g.gauges
        ++ [frozenGauge lib band m red (text.dropWhile isBlank)] } := by
  obtain ⟨htne, ht⟩ := word_tierOf m.name
  obtain ⟨hrne, hr⟩ := word_reduction red
  obtain ⟨h4ne, h4⟩ := word_fixed4 lib band.tolPct
  obtain ⟨h6ne, h6⟩ := word_general6 lib band.floor
  obtain ⟨h10ne, h10⟩ := word_general10 lib m.value
  have h4w : ∀ c ∈ lib.fixed4 band.tolPct, wordByte c = true := fun c hc => (h4 c hc).1
  have h6w : ∀ c ∈ lib.general6 band.floor, wordByte c = true := fun c hc => (h6 c hc).1
  have h10w : ∀ c ∈ lib.general10 m.value, wordByte c = true := fun c hc => (h10 c hc).1
  have hstart : ¬ (gaugeHead lib band m red ++ text = []
      ∨ (gaugeHead lib band m red ++ text).head? = some 0x23) := by
    rw [gaugeHead_append]
    rintro (h | h)
    · exact absurd h (List.append_ne_nil_of_right_ne_nil _ (List.cons_ne_nil _ _))
    · exact absurd (Option.some.inj h) (by decide)
  have hgauge : ∀ rest, readKeyed lib lineno g (spelling "gauge") rest
      = (readGauge lib lineno rest).map fun gauge => { g with gauges := g.gauges ++ [gauge] } :=
    fun _ => rfl
  have hred : ¬ (red.word ≠ Reduction.point.word ∧ red.word ≠ Reduction.last.word
      ∧ red.word ≠ Reduction.mean.word ∧ red.word ≠ Reduction.max.word
      ∧ red.word ≠ Reduction.min.word) := by
    cases red <;> decide
  have hread4 := lib.strtod_fixed4 _ htol
  have hp4 := parseDouble_word lib h4ne h4 (congrArg Prod.snd hread4)
  have hp6 := parseDouble_word lib h6ne h6 (lib.strtod_general6 _ hfloor)
  have hread := lib.strtod_general10 _ hvalue
  have hp10 := parseDouble_word lib h10ne h10 (congrArg Prod.snd hread)
  obtain ⟨hgne, hg⟩ : spelling "gauge" ≠ [] ∧ ∀ c ∈ spelling "gauge", wordByte c = true :=
    word_of_keyword rfl
  rw [readGoldenLine, if_neg hstart, gaugeHead_append, splitKey_words hgne hg htne ht]
  dsimp only
  rw [hgauge, readGauge, splitOff_words htne ht hrne hr]
  dsimp only
  rw [splitOff_words hrne hr h4ne h4w]
  dsimp only
  rw [splitOff_words h4ne h4w h6ne h6w]
  dsimp only
  rw [splitOff_words h6ne h6w h10ne h10w]
  dsimp only
  rw [splitKey_word h10ne h10w, Option.getD_some]
  dsimp only
  rw [hp4, hp6, hp10, hread, hread4]
  dsimp only
  rw [if_neg hred]
  split
  · rfl
  · rfl

end

/-! ## The gauge lines of a file -/

section

variable {F : Type} (lib : Libc F) (band : Band F)

/-- A gauge line as it stands in the file: the metric it starts with, and the
text where its key is read. -/
structure Entry (F : Type) where
  metric : PromMetric F
  red : Reduction
  text : List UInt8

def Entry.line (e : Entry F) : List UInt8 := gaugeHead lib band e.metric e.red ++ e.text

def Entry.key (e : Entry F) : List UInt8 := e.text.dropWhile isBlank

/-- A line without its newline, with the line behind it. -/
def Entry.glue (e : Entry F) : List (Entry F) → List (Entry F)
  | [] => [e]
  | e' :: es => { e with text := e.text ++ e'.line lib band } :: es

/-- The gauge lines of a file, from the metrics they are written for: a key that
does not fit is cut, and the line behind it follows in the same line. -/
def entries : List (PromMetric F × Reduction) → List (Entry F)
  | [] => []
  | (m, red) :: ms =>
      let head := gaugeHead lib band m red
      let key := cstr (gaugeKey m)
      if head.length + key.length < lineRoom then ⟨m, red, key⟩ :: entries ms
      else Entry.glue lib band ⟨m, red, key.take (lineRoom - head.length)⟩ (entries ms)

variable {lib band}

theorem map_line_glue (e : Entry F) (es : List (Entry F)) :
    (Entry.glue lib band e es).map (Entry.line lib band)
      = Scan.glue (e.line lib band) (es.map (Entry.line lib band)) := by
  cases es with
  | nil => rfl
  | cons e' es =>
      have hline : ({ e with text := e.text ++ e'.line lib band } : Entry F).line lib band
          = e.line lib band ++ e'.line lib band := (List.append_assoc ..).symm
      rw [Entry.glue, List.map_cons, List.map_cons, Scan.glue, hline]

theorem pieces_gaugeLines {ms : List (PromMetric F × Reduction)}
    (hms : ∀ p ∈ ms, newline ∉ cstr (gaugeKey p.1)) :
    pieces newline (ms.flatMap fun p => gaugeLine lib band p.1 p.2)
      = (entries lib band ms).map (Entry.line lib band) := by
  induction ms with
  | nil => exact pieces_nil
  | cons p ms ih =>
      obtain ⟨m, red⟩ := p
      have hkey : newline ∉ cstr (gaugeKey m) := hms _ List.mem_cons_self
      have hhead := newline_notMem_gaugeHead lib band m red
      have hroom := length_gaugeHead lib band m red
      have ih := ih fun p hp => hms p (List.mem_cons_of_mem _ hp)
      rw [List.flatMap_cons, entries, gaugeLine]
      dsimp only
      by_cases hfit : (gaugeHead lib band m red).length + (cstr (gaugeKey m)).length < lineRoom
      · have hwhole : newline ∉ gaugeHead lib band m red ++ cstr (gaugeKey m) := by
          rw [List.mem_append, not_or]
          exact ⟨hhead, hkey⟩
        have hlen : (gaugeHead lib band m red ++ cstr (gaugeKey m) ++ [newline]).length
            ≤ lineRoom := by
          rw [List.length_append, List.length_append]
          exact hfit
        rw [if_pos hfit, List.take_of_length_le hlen, List.append_assoc _ [newline],
          List.singleton_append, pieces_append hwhole, ih, List.map_cons, Entry.line]
      · rw [lineRoom] at hfit
        have hcut : (gaugeHead lib band m red ++ cstr (gaugeKey m) ++ [newline]).take lineRoom
            = gaugeHead lib band m red
              ++ (cstr (gaugeKey m)).take (lineRoom - (gaugeHead lib band m red).length) := by
          rw [List.take_append_of_le_length (by rw [List.length_append, lineRoom]; omega),
            List.take_append, List.take_of_length_le (by rw [lineRoom]; omega)]
        have hnone : newline ∉ gaugeHead lib band m red
            ++ (cstr (gaugeKey m)).take (lineRoom - (gaugeHead lib band m red).length) := by
          rw [List.mem_append, not_or]
          exact ⟨hhead, fun h => hkey (List.mem_of_mem_take h)⟩
        have hne : gaugeHead lib band m red
            ++ (cstr (gaugeKey m)).take (lineRoom - (gaugeHead lib band m red).length) ≠ [] := by
          rw [gaugeHead_append]
          exact List.append_ne_nil_of_right_ne_nil _ (List.cons_ne_nil _ _)
        rw [if_neg (by rw [lineRoom]; exact hfit), hcut, pieces_glue hne hnone, ih, map_line_glue, Entry.line]

theorem mem_of_mem_entries {ms : List (PromMetric F × Reduction)} {e : Entry F}
    (h : e ∈ entries lib band ms) : (e.metric, e.red) ∈ ms := by
  induction ms generalizing e with
  | nil => exact absurd h List.not_mem_nil
  | cons p ms ih =>
      obtain ⟨m, red⟩ := p
      rw [entries] at h
      split at h
      · rcases List.mem_cons.mp h with rfl | h
        · exact List.mem_cons_self
        · exact List.mem_cons_of_mem _ (ih h)
      · cases hes : entries lib band ms with
        | nil =>
            rw [hes, Entry.glue] at h
            obtain rfl := List.mem_singleton.mp h
            exact List.mem_cons_self
        | cons e' es =>
            rw [hes, Entry.glue] at h
            rcases List.mem_cons.mp h with rfl | h
            · exact List.mem_cons_self
            · exact List.mem_cons_of_mem _ (ih (hes ▸ List.mem_cons_of_mem _ h))

theorem entries_eq_nil_iff {ms : List (PromMetric F × Reduction)} :
    entries lib band ms = [] ↔ ms = [] := by
  cases ms with
  | nil => exact ⟨fun _ => rfl, fun _ => rfl⟩
  | cons p ms =>
      refine ⟨fun h => ?_, fun h => absurd h (List.cons_ne_nil _ _)⟩
      rw [entries] at h
      split at h
      · exact absurd h (List.cons_ne_nil _ _)
      · cases hes : entries lib band ms with
        | nil =>
            rw [hes] at h
            exact absurd h (List.cons_ne_nil _ _)
        | cons e es =>
            rw [hes] at h
            exact absurd h (List.cons_ne_nil _ _)

theorem entries_eq_map {ms : List (PromMetric F × Reduction)}
    (hms : ∀ p ∈ ms, (gaugeHead lib band p.1 p.2).length + (cstr (gaugeKey p.1)).length < lineRoom) :
    entries lib band ms = ms.map fun p => ⟨p.1, p.2, cstr (gaugeKey p.1)⟩ := by
  induction ms with
  | nil => rfl
  | cons p ms ih =>
      rw [entries]
      rw [if_pos (hms p List.mem_cons_self), ih fun q hq => hms q (List.mem_cons_of_mem _ hq),
        List.map_cons]

/-! ## Reading the lines -/

/-- The lines are read without an error. -/
def Reads (lib : Libc F) (ls : List (List UInt8)) (n : Nat) (g : Golden F) (n' : Nat)
    (g' : Golden F) : Prop :=
  ∀ rest, readGoldenLines lib n g (ls ++ rest) = readGoldenLines lib n' g' rest

theorem Reads.nil (n : Nat) (g : Golden F) : Reads lib [] n g n g := fun _ => rfl

theorem Reads.append {ls ls' : List (List UInt8)} {n n' n'' : Nat} {g g' g'' : Golden F}
    (h : Reads lib ls n g n' g') (h' : Reads lib ls' n' g' n'' g'') :
    Reads lib (ls ++ ls') n g n'' g'' := by
  intro rest
  rw [List.append_assoc, h, h']

theorem Reads.cons {l : List UInt8} {ls : List (List UInt8)} {n n' : Nat} {g g' g'' : Golden F}
    (h : readGoldenLine lib n g l = .ok g') (h' : Reads lib ls (n + 1) g' n' g'') :
    Reads lib (l :: ls) n g n' g'' := by
  intro rest
  rw [List.cons_append, readGoldenLines, h]
  exact h' rest

/-- What the check needs of a golden, apart from its gauges. -/
structure Golden.Same (g g' : Golden F) : Prop where
  version : g'.version = g.version
  workload : g'.workload = g.workload
  classes : g'.classes = g.classes
  gauges : g'.gauges = g.gauges

theorem Golden.Same.trans {g g' g'' : Golden F} (h : g.Same g') (h' : g'.Same g'') : g.Same g'' :=
  ⟨h'.version.trans h.version, h'.workload.trans h.workload, h'.classes.trans h.classes,
    h'.gauges.trans h.gauges⟩

variable (lib) in
theorem readGoldenLine_key {w : List UInt8} (hkey : keyword w = true) (n : Nat) (g : Golden F)
    (rest : List UInt8) :
    readGoldenLine lib n g (w ++ 0x20 :: rest) = readKeyed lib n g w (rest.dropWhile isBlank) := by
  obtain ⟨hne, hw⟩ := word_of_keyword hkey
  have hstart : ¬ (w ++ 0x20 :: rest = [] ∨ (w ++ 0x20 :: rest).head? = some 0x23) := by
    rintro (h | h)
    · exact absurd h (List.append_ne_nil_of_right_ne_nil _ (List.cons_ne_nil _ _))
    · rw [List.head?_append_of_ne_nil _ hne] at h
      exact head_of_keyword hkey h
  rw [readGoldenLine, if_neg hstart, splitKey_word hne hw]

variable (lib) in
theorem reads_same {ls : List (List UInt8)}
    (h : ∀ l ∈ ls, ∀ n (g : Golden F), ∃ g', readGoldenLine lib n g l = .ok g' ∧ g.Same g') :
    ∀ n (g : Golden F), ∃ n' g', Reads lib ls n g n' g' ∧ g.Same g' := by
  induction ls with
  | nil => exact fun n g => ⟨n, g, Reads.nil n g, ⟨rfl, rfl, rfl, rfl⟩⟩
  | cons l ls ih =>
      intro n g
      obtain ⟨g₁, hread, hsame⟩ := h l List.mem_cons_self n g
      obtain ⟨n', g', hreads, hsame'⟩ := ih (fun l' hl' => h l' (List.mem_cons_of_mem _ hl')) (n + 1) g₁
      exact ⟨n', g', hreads.cons hread, hsame.trans hsame'⟩

theorem readEnv_same (what : List UInt8)
    (hwhat : what = spelling "kernel" ∨ what = spelling "cpu" ∨ what = spelling "cores")
    (val : List UInt8) (n : Nat) (g : Golden F) :
    ∃ g', readGoldenLine lib n g (spelling "env" ++ 0x20 :: (what ++ 0x20 :: val)) = .ok g'
      ∧ g.Same g' := by
  have hword : what ≠ [] ∧ ∀ c ∈ what, wordByte c = true := by
    rcases hwhat with rfl | rfl | rfl
    · exact word_of_keyword rfl
    · exact word_of_keyword rfl
    · exact word_of_keyword rfl
  have henv : ∀ rest, readKeyed lib n g (spelling "env") rest = readEnv n g rest := fun _ => rfl
  rw [readGoldenLine_key lib rfl, dropWhile_word hword.1 hword.2, henv, readEnv,
    splitKey_word hword.1 hword.2, Option.getD_some]
  rcases hwhat with rfl | rfl | rfl
  · exact ⟨_, rfl, ⟨rfl, rfl, rfl, rfl⟩⟩
  · exact ⟨_, rfl, ⟨rfl, rfl, rfl, rfl⟩⟩
  · exact ⟨_, rfl, ⟨rfl, rfl, rfl, rfl⟩⟩

theorem readEnvLines_same (host : Environment) :
    ∀ l ∈ envLines host, ∀ n (g : Golden F), ∃ g', readGoldenLine lib n g l = .ok g' ∧ g.Same g' := by
  have hone : ∀ {v l p : List UInt8}, l ∈ (if v ≠ [] then [p ++ v] else []) → l = p ++ v := by
    intro v l p hl
    split at hl
    · exact List.mem_singleton.mp hl
    · exact absurd hl List.not_mem_nil
  intro l hl n g
  rw [envLines, List.mem_append, List.mem_append] at hl
  rcases hl with (hl | hl) | hl
  · rw [hone hl]
    exact readEnv_same (spelling "kernel") (Or.inl rfl) host.kernel n g
  · rw [hone hl]
    exact readEnv_same (spelling "cpu") (Or.inr (Or.inl rfl)) host.cpu n g
  · rw [hone hl]
    exact readEnv_same (spelling "cores") (Or.inr (Or.inr rfl)) host.cores n g

theorem readPair_words {name tok : List UInt8} (hne : name ≠ [])
    (hname : ∀ c ∈ name, wordByte c = true) (htne : tok ≠ [])
    (htok : ∀ c ∈ tok, wordByte c = true) (error : GoldenError) :
    readPair error (name ++ 0x20 :: tok) = .ok (name, tok) := by
  have hdrop := dropWhile_word htne htok []
  rw [List.append_nil] at hdrop
  rw [readPair, splitKey_word hne hname, Option.getD_some, hdrop]
  dsimp only
  rw [if_neg (not_or.mpr ⟨hne, htne⟩)]

variable (lib) in
/-- The lines of the reports give back the classes that were frozen. -/
theorem reads_reports {active : List Report}
    (hnames : ∀ r ∈ active, r.name ≠ [] ∧ ∀ c ∈ r.name, wordByte c = true)
    (hclasses : ∀ r ∈ active, ∀ c ∈ r.klass, wordByte c = true) :
    ∀ n (g : Golden F), ∃ n' g', Reads lib (active.flatMap reportLine) n g n' g'
      ∧ g'.version = g.version ∧ g'.workload = g.workload ∧ g'.gauges = g.gauges
      ∧ g'.classes = g.classes ++ (active.filter Report.frozen).map fun r => (r.name, r.klass) := by
  induction active with
  | nil => exact fun n g => ⟨n, g, Reads.nil n g, rfl, rfl, rfl, (List.append_nil _).symm⟩
  | cons r active ih =>
      intro n g
      obtain ⟨hne, hname⟩ := hnames r List.mem_cons_self
      have hklass := hclasses r List.mem_cons_self
      have ih := ih (fun r' hr' => hnames r' (List.mem_cons_of_mem _ hr'))
        fun r' hr' => hclasses r' (List.mem_cons_of_mem _ hr')
      rw [List.flatMap_cons, reportLine]
      by_cases hempty : r.klass = []
      · have hnot : r.frozen = false := by rw [Report.frozen, hempty]; rfl
        rw [if_pos hempty, List.nil_append, List.filter_cons_of_neg (by rw [hnot]; exact Bool.false_ne_true)]
        exact ih n g
      · have hpair := readPair_words hne hname hempty hklass
        have hdrop := dropWhile_word hne hname (0x20 :: r.klass)
        rw [if_neg hempty]
        by_cases hlimit : isCaptureLimitation r.klass = true
        · have hnot : r.frozen = false := by
            rw [Report.frozen, hlimit]
            exact Bool.and_false _
          have hread : readGoldenLine lib n g (spelling "skipped " ++ r.name ++ 0x20 :: r.klass)
              = .ok { g with skipped := g.skipped ++ [(r.name, r.klass)] } := by
            have hkey : ∀ rest, readKeyed lib n g (spelling "skipped") rest
                = (readPair (.skippedNeeds n) rest).map fun pair =>
                  { g with skipped := g.skipped ++ [pair] } := fun _ => rfl
            have hline : spelling "skipped " ++ r.name ++ 0x20 :: r.klass
                = spelling "skipped" ++ 0x20 :: (r.name ++ 0x20 :: r.klass) := by
              rw [List.append_assoc]
              rfl
            rw [hline, readGoldenLine_key lib rfl, hdrop, hkey, hpair]
            rfl
          obtain ⟨n', g', hreads, hv, hw, hg, hc⟩ :=
            ih (n + 1) { g with skipped := g.skipped ++ [(r.name, r.klass)] }
          rw [if_pos hlimit, List.filter_cons_of_neg (by rw [hnot]; exact Bool.false_ne_true)]
          exact ⟨n', g', Reads.cons hread hreads, hv, hw, hg, hc⟩
        · have hyes : r.frozen = true := by
            rw [Bool.not_eq_true] at hlimit
            rw [Report.frozen, hlimit, Bool.not_false, Bool.and_true]
            exact decide_eq_true hempty
          have hread : readGoldenLine lib n g (spelling "class " ++ r.name ++ 0x20 :: r.klass)
              = .ok { g with classes := g.classes ++ [(r.name, r.klass)] } := by
            have hkey : ∀ rest, readKeyed lib n g (spelling "class") rest
                = (readPair (.classNeeds n) rest).map fun pair =>
                  { g with classes := g.classes ++ [pair] } := fun _ => rfl
            have hline : spelling "class " ++ r.name ++ 0x20 :: r.klass
                = spelling "class" ++ 0x20 :: (r.name ++ 0x20 :: r.klass) := by
              rw [List.append_assoc]
              rfl
            rw [hline, readGoldenLine_key lib rfl, hdrop, hkey, hpair]
            rfl
          obtain ⟨n', g', hreads, hv, hw, hg, hc⟩ :=
            ih (n + 1) { g with classes := g.classes ++ [(r.name, r.klass)] }
          rw [if_neg hlimit, List.filter_cons_of_pos hyes, List.map_cons]
          refine ⟨n', g', Reads.cons hread hreads, hv, hw, hg, ?_⟩
          rw [hc, List.append_assoc, List.singleton_append]

theorem reads_front {host : Environment} {label : List UInt8} {cap : Capture}
    {active : List Report} (hlabel : label.dropWhile isBlank = label)
    (hnames : ∀ r ∈ active, r.name ≠ [] ∧ ∀ c ∈ r.name, wordByte c = true)
    (hclasses : ∀ r ∈ active, ∀ c ∈ r.klass, wordByte c = true) :
    ∃ n g, Reads lib (frontLines lib host label cap active) 1 {} n g
      ∧ g.version = goldenFormat ∧ g.workload = label ∧ g.gauges = []
      ∧ g.classes = (active.filter Report.frozen).map fun r => (r.name, r.klass) := by
  have hworkload : ∀ n (g : Golden F), readGoldenLine lib n g (spelling "workload " ++ label)
      = .ok { g with workload := label } := by
    intro n g
    have hkey : ∀ rest, readKeyed lib n g (spelling "workload") rest
        = .ok { g with workload := rest } := fun _ => rfl
    have hline := readGoldenLine_key lib (w := spelling "workload") rfl n g label
    rw [hlabel, hkey] at hline
    exact hline
  have hversion : ∀ n (g : Golden F), readGoldenLine lib n g (spelling "montauk_version " ++ host.version)
      = .ok { g with montaukVersion := host.version.dropWhile isBlank } :=
    fun n g => (readGoldenLine_key lib (w := spelling "montauk_version") rfl n g
      host.version).trans rfl
  have hcomplete : ∀ n (g : Golden F),
      readGoldenLine lib n g (spelling "completeness " ++ completenessText lib cap)
        = .ok { g with completeness := (completenessText lib cap).dropWhile isBlank } :=
    fun n g => (readGoldenLine_key lib (w := spelling "completeness") rfl n g
      (completenessText lib cap)).trans rfl
  have hhead : Reads lib [spelling "# montauk behavioral golden -- one frozen fact per line.",
      spelling "# Hand-editable: per-key tolerance is editing one gauge line.",
      spelling "golden_version 2", spelling "workload " ++ label,
      spelling "montauk_version " ++ host.version] 1 {} 6
        { version := 2, workload := label, montaukVersion := host.version.dropWhile isBlank } :=
    .cons rfl (.cons rfl (.cons rfl (.cons (hworkload _ _) (.cons (hversion _ _) (.nil _ _)))))
  obtain ⟨n₁, g₁, henv, hsame⟩ := reads_same lib (readEnvLines_same host) 6
    { version := 2, workload := label, montaukVersion := host.version.dropWhile isBlank }
  obtain ⟨n₂, g₂, hreports, hv, hw, hg, hc⟩ := reads_reports lib hnames hclasses (n₁ + 1)
    { g₁ with completeness := (completenessText lib cap).dropWhile isBlank }
  refine ⟨n₂, g₂, ((hhead.append henv).append (.cons (hcomplete _ _) (.nil _ _))).append hreports,
    hv.trans hsame.version, hw.trans hsame.workload, hg.trans hsame.gauges, ?_⟩
  rw [hc]
  change g₁.classes ++ _ = _
  rw [hsame.classes, List.nil_append]

theorem newline_notMem_front {host : Environment} {label : List UInt8} {cap : Capture}
    {active : List Report} (hlabel : newline ∉ label)
    (hhost : ∀ l ∈ [host.kernel, host.cpu, host.cores, host.version], newline ∉ l)
    (hnames : ∀ r ∈ active, r.name ≠ [] ∧ ∀ c ∈ r.name, wordByte c = true)
    (hclasses : ∀ r ∈ active, ∀ c ∈ r.klass, wordByte c = true) :
    ∀ l ∈ frontLines lib host label cap active, newline ∉ l := by
  have happ : ∀ {p v : List UInt8}, newline ∉ p → newline ∉ v → newline ∉ p ++ v := by
    intro p v hp hv
    rw [List.mem_append, not_or]
    exact ⟨hp, hv⟩
  have hcomplete : newline ∉ completenessText lib cap := by
    rw [completenessText]
    split
    · exact newline_notMem_word fun c hc => ((word_fixed6 lib _).2 c hc).1
    · decide
  intro l hl
  rw [frontLines, List.mem_append, List.mem_append, List.mem_append] at hl
  rcases hl with ((hl | hl) | hl) | hl
  · simp only [List.mem_cons, List.not_mem_nil, or_false] at hl
    rcases hl with rfl | rfl | rfl | rfl | rfl
    · decide
    · decide
    · decide
    · exact happ (by decide) hlabel
    · exact happ (by decide) (hhost _ (by simp))
  · have hone : ∀ {v l p : List UInt8}, newline ∉ p → newline ∉ v →
        l ∈ (if v ≠ [] then [p ++ v] else []) → newline ∉ l := by
      intro v l p hp hv hl
      split at hl
      · obtain rfl := List.mem_singleton.mp hl
        exact happ hp hv
      · exact absurd hl List.not_mem_nil
    rw [envLines, List.mem_append, List.mem_append] at hl
    rcases hl with (hl | hl) | hl
    · exact hone (by decide) (hhost _ (by simp)) hl
    · exact hone (by decide) (hhost _ (by simp)) hl
    · exact hone (by decide) (hhost _ (by simp)) hl
  · obtain rfl := List.mem_singleton.mp hl
    exact happ (by decide) hcomplete
  · obtain ⟨r, hr, hl⟩ := List.mem_flatMap.mp hl
    have hname := newline_notMem_word (hnames r hr).2
    have hklass : newline ∉ 0x20 :: r.klass :=
      happ (p := [0x20]) (by decide) (newline_notMem_word (hclasses r hr))
    rw [reportLine] at hl
    split at hl
    · exact absurd hl List.not_mem_nil
    · split at hl
      · obtain rfl := List.mem_singleton.mp hl
        exact happ (happ (by decide) hname) hklass
      · obtain rfl := List.mem_singleton.mp hl
        exact happ (happ (by decide) hname) hklass

/-! ### The gauges -/

def Entry.frozen (lib : Libc F) (band : Band F) (e : Entry F) : GoldenGauge F :=
  frozenGauge lib band e.metric e.red e.key

theorem readGoldenLine_entry {e : Entry F} (htol : lib.decimals4 band.tolPct)
    (hfloor : lib.finite band.floor) (hvalue : lib.digits10 e.metric.value) (n : Nat) (g : Golden F) :
    readGoldenLine lib n g (e.line lib band) =
      if e.key = [] then .error (.gaugeNeeds n)
      else .ok { g with gauges := g.gauges ++ [e.frozen lib band] } :=
  readGoldenLine_gauge lib band e.metric e.red htol hfloor hvalue n g e.text

theorem readGoldenLines_entries {es : List (Entry F)} (htol : lib.decimals4 band.tolPct)
    (hfloor : lib.finite band.floor) (hvalues : ∀ e ∈ es, lib.digits10 e.metric.value)
    (hkeys : ∀ e ∈ es, e.key ≠ []) :
    ∀ n (g : Golden F), readGoldenLines lib n g (es.map (Entry.line lib band))
      = .ok { g with gauges := g.gauges ++ es.map (Entry.frozen lib band) } := by
  induction es with
  | nil =>
      intro n g
      rw [List.map_nil, List.map_nil, List.append_nil]
      rfl
  | cons e es ih =>
      intro n g
      rw [List.map_cons, readGoldenLines, readGoldenLine_entry htol hfloor (hvalues e List.mem_cons_self),
        if_neg (hkeys e List.mem_cons_self)]
      refine (ih (fun e' he' => hvalues e' (List.mem_cons_of_mem _ he'))
        (fun e' he' => hkeys e' (List.mem_cons_of_mem _ he')) (n + 1) _).trans ?_
      rw [List.append_assoc, List.singleton_append, List.map_cons]

theorem key_ne_nil_of_readGoldenLines {es : List (Entry F)} (htol : lib.decimals4 band.tolPct)
    (hfloor : lib.finite band.floor) (hvalues : ∀ e ∈ es, lib.digits10 e.metric.value) {n : Nat}
    {g g' : Golden F} (h : readGoldenLines lib n g (es.map (Entry.line lib band)) = .ok g') :
    ∀ e ∈ es, e.key ≠ [] := by
  induction es generalizing n g with
  | nil => exact fun e he => absurd he List.not_mem_nil
  | cons e es ih =>
      rw [List.map_cons, readGoldenLines, readGoldenLine_entry htol hfloor (hvalues e List.mem_cons_self)] at h
      by_cases hkey : e.key = []
      · rw [if_pos hkey] at h
        exact absurd h nofun
      · rw [if_neg hkey] at h
        intro e' he'
        rcases List.mem_cons.mp he' with rfl | he'
        · exact hkey
        · exact ih (fun e' he' => hvalues e' (List.mem_cons_of_mem _ he')) h e' he'

/-! ## The check -/

theorem checkAll_eq_nil_iff {α β : Type} {check : α → Option (List β)} {l : List α} :
    checkAll check l = some [] ↔ ∀ a ∈ l, check a = some [] := by
  induction l with
  | nil => exact ⟨fun _ a ha => absurd ha List.not_mem_nil, fun _ => rfl⟩
  | cons a l ih =>
      rw [List.forall_mem_cons, ← ih, checkAll, Option.bind_eq_some_iff]
      constructor
      · rintro ⟨x, hx, hrest⟩
        obtain ⟨y, hy, hxy⟩ := Option.map_eq_some_iff.mp hrest
        obtain ⟨rfl, rfl⟩ := List.append_eq_nil_iff.mp hxy
        exact ⟨hx, hy⟩
      · rintro ⟨ha, hl⟩
        exact ⟨[], ha, by rw [hl]; rfl⟩

theorem rc_checkGolden_iff {g : Golden F} {active : List Report} {prom : List (PromMetric F)}
    {cap : Capture} {allowUnknown : Bool} (hgate : completenessGate lib cap allowUnknown = 0)
    (hsome : g.classes ≠ [] ∨ g.gauges ≠ []) :
    (checkGolden lib g (!g.classes.isEmpty) (!g.gauges.isEmpty) active prom cap allowUnknown).rc = 0 ↔
      (∀ c ∈ g.classes, checkClass (F := F) active c = some [])
        ∧ ∀ gauge ∈ g.gauges, checkGauge lib prom gauge = some [] := by
  have hlane : ∀ {α : Type} (l : List α), (if (!l.isEmpty) = true then l else []) = l := by
    intro α l
    cases l with
    | nil => rfl
    | cons a l => rfl
  have hperf : ¬ ((!g.gauges.isEmpty) = true ∧ g.gauges = []) := by
    rintro ⟨hne, hnil⟩
    rw [hnil] at hne
    exact absurd hne Bool.false_ne_true
  have hsum : g.classes.length + g.gauges.length ≠ 0 := by
    rcases hsome with hne | hne
    · have := List.length_pos_iff.mpr hne
      omega
    · have := List.length_pos_iff.mpr hne
      omega
  rw [← checkAll_eq_nil_iff, ← checkAll_eq_nil_iff, checkGolden, if_neg (not_not.mpr hgate)]
  dsimp only
  rw [hlane, hlane]
  cases hmoved : checkAll (checkClass (F := F) active) g.classes with
  | none => exact ⟨fun h => absurd (show (2 : Nat) = 0 from h) nofun, fun h => absurd h.1 nofun⟩
  | some moved =>
      dsimp only
      rw [if_neg hperf]
      cases hmore : checkAll (checkGauge lib prom) g.gauges with
      | none => exact ⟨fun h => absurd (show (2 : Nat) = 0 from h) nofun, fun h => absurd h.2 nofun⟩
      | some more =>
          dsimp only
          rw [if_neg hsum, CheckResult.rc, Option.some.injEq, Option.some.injEq,
            ← List.append_eq_nil_iff]
          split
          · rename_i h
            exact ⟨fun _ => h, fun _ => rfl⟩
          · rename_i h
            exact ⟨fun h1 => absurd h1 Nat.one_ne_zero, fun h0 => absurd h0 h⟩

theorem failed_of_rc {r : CheckResult F} (h : r.rc = 0) : r.failed = [] := by
  cases r with
  | declined => exact nomatch (show (2 : Nat) = 0 from h)
  | done checked failed =>
      rw [CheckResult.rc] at h
      split at h
      · rename_i hnil
        exact hnil
      · exact absurd h Nat.one_ne_zero

theorem checkClass_self {active : List Report} (hdistinct : (active.map Report.name).Nodup)
    {r : Report} (hr : r ∈ active) (hne : r.klass ≠ []) :
    checkClass (F := F) active (r.name, r.klass) = some [] := by
  have hsome : (active.find? fun r' => r.name = r'.name).isSome = true := by
    rw [List.find?_isSome]
    exact ⟨r, hr, decide_eq_true rfl⟩
  obtain ⟨r', hr'⟩ := Option.isSome_iff_exists.mp hsome
  have hname : r.name = r'.name := by simpa using List.find?_some hr'
  have hself : r = r' :=
    List.inj_on_of_nodup_map hdistinct hr (List.mem_of_find?_eq_some hr') hname
  rw [checkClass, hr', ← hself]
  dsimp only
  rw [if_neg hne, if_pos rfl]

end

/-! ## Freezing and checking agree -/

/-- What a golden is frozen from: the arguments of `write_golden`, and what it
finds on the machine. Lines hold no newline, names and classes are words. -/
structure Setup {F : Type} (lib : Libc F) where
  host : Environment
  label : List UInt8
  active : List Report
  prom : List (PromMetric F)
  watch : List (List UInt8)
  band : Band F
  cap : Capture
  allowUnknown : Bool
  reductions : List Reduction
  host_lines : ∀ l ∈ [host.kernel, host.cpu, host.cores, host.version], newline ∉ l
  label_line : newline ∉ label
  label_ne : label ≠ []
  label_head : ∀ c ∈ label.head?, isBlank c = false
  label_last : ∀ c ∈ label.getLast?, isBlank c = false
  names : ∀ r ∈ active, r.name ≠ [] ∧ ∀ c ∈ r.name, wordByte c = true
  classes : ∀ r ∈ active, ∀ c ∈ r.klass, wordByte c = true
  distinct : (active.map Report.name).Nodup
  metric_lines : ∀ m ∈ prom, newline ∉ m.name ∧ 0 ∉ m.name ∧ newline ∉ m.labels
  values : ∀ m ∈ prom, lib.digits10 m.value
  tolPct : lib.decimals4 band.tolPct ∧ lib.le lib.zero band.tolPct = true
  floor : lib.finite band.floor ∧ lib.le lib.zero band.floor = true

namespace Setup

variable {F : Type} {lib : Libc F} (s : Setup lib)

def write : Option (List UInt8) :=
  writeGolden lib s.host s.label s.active s.prom s.watch s.band s.cap s.allowUnknown s.reductions

/-- The check of the same run, in the lanes that have something frozen. -/
def check (g : Golden F) : CheckResult F :=
  checkGolden lib g (!g.classes.isEmpty) (!g.gauges.isEmpty) s.active s.prom s.cap s.allowUnknown

/-- The file is read, and the run it was frozen from passes. -/
def Agrees (text : List UInt8) : Prop :=
  ∃ g, readGolden lib text = .ok g ∧ (s.check g).rc = 0 ∧ (s.check g).failed = []

def watched : List (PromMetric F × Reduction) :=
  (withReductions s.reductions s.prom).filter fun p => watches s.watch p.1

/-- Every key, cut to the room of its line, is the key of some metric, and the
first metric with it has the value that was frozen, or one in the band around
it, whose floor has six significant digits left. -/
def Found : Prop :=
  ∀ e ∈ entries lib s.band s.watched, e.key ≠ [] ∧
    ∃ p, s.prom.find? (fun p => gaugeKey p = e.key) = some p ∧
      (p.value = e.metric.value
        ∨ inBand lib e.metric.value s.band.tolPct (sixDigits lib s.band.floor) p.value = true)

/-- The watched keys fit their lines, hold no NUL, start with no blank, and
belong to one value each. -/
structure Plain : Prop where
  short : ∀ p ∈ s.watched, (gaugeHead lib s.band p.1 p.2).length + (gaugeKey p.1).length < lineRoom
  word : ∀ p ∈ s.watched, gaugeKey p.1 ≠ [] ∧ 0 ∉ gaugeKey p.1
    ∧ ∀ c ∈ (gaugeKey p.1).head?, isBlank c = false
  one : ∀ p ∈ s.watched, ∀ q ∈ s.prom, gaugeKey q = gaugeKey p.1 → q.value = p.1.value

variable {s}

theorem mem_prom {p : PromMetric F × Reduction} (hp : p ∈ s.watched) : p.1 ∈ s.prom := by
  obtain ⟨hp, -⟩ := List.mem_filter.mp hp
  obtain ⟨⟨m, mi⟩, hm, rfl⟩ := List.mem_map.mp hp
  exact (List.mem_zipIdx hm).2.2 ▸ List.getElem_mem _

theorem newline_notMem_key {m : PromMetric F} (hm : m ∈ s.prom) : newline ∉ cstr (gaugeKey m) := by
  obtain ⟨hname, -, hlabels⟩ := s.metric_lines m hm
  intro h
  have h := List.takeWhile_subset _ h
  rw [gaugeKey] at h
  split at h
  · rcases List.mem_append.mp h with h | h
    · exact hname h
    · rcases List.mem_cons.mp h with h | h
      · exact absurd h (by decide)
      · rcases List.mem_append.mp h with h | h
        · exact hlabels h
        · exact absurd (List.mem_singleton.mp h) (by decide)
  · exact hname h

theorem write_eq {text : List UInt8} (h : s.write = some text) :
    completenessGate lib s.cap s.allowUnknown = 0
      ∧ (s.active.filter Report.frozen ≠ [] ∨ s.watched ≠ [])
      ∧ text = (frontLines lib s.host s.label s.cap s.active).flatMap (fun line => line ++ [newline])
        ++ s.watched.flatMap fun p => gaugeLine lib s.band p.1 p.2 := by
  rw [write, writeGolden] at h
  split at h
  · exact absurd h nofun
  · rename_i hgate
    dsimp only at h
    split at h
    · exact absurd h nofun
    · split at h
      · exact absurd h nofun
      · rename_i hsome
        refine ⟨not_not.mp hgate, ?_, (Option.some.inj h).symm⟩
        rwa [not_and_or] at hsome

theorem readGolden_write {text : List UInt8} (h : s.write = some text) :
    ∃ n g, g.version = goldenFormat ∧ g.workload = s.label ∧ g.gauges = []
      ∧ g.classes = (s.active.filter Report.frozen).map (fun r => (r.name, r.klass))
      ∧ readGoldenLines lib 1 {} (pieces newline text)
        = readGoldenLines lib n g ((entries lib s.band s.watched).map (Entry.line lib s.band)) := by
  obtain ⟨-, -, rfl⟩ := write_eq h
  have hlabel : s.label.dropWhile isBlank = s.label := by
    obtain ⟨c, rest, hcons⟩ := List.exists_cons_of_ne_nil s.label_ne
    have hc : isBlank c = false := s.label_head c (by rw [hcons]; rfl)
    rw [hcons, List.dropWhile_cons_of_neg (by rw [hc]; exact Bool.false_ne_true)]
  obtain ⟨n, g, hreads, hv, hw, hg, hc⟩ :=
    @reads_front F lib s.host s.label s.cap s.active hlabel s.names s.classes
  refine ⟨n, g, hv, hw, hg, hc, ?_⟩
  rw [pieces_lines (newline_notMem_front s.label_line s.host_lines s.names s.classes),
    pieces_gaugeLines fun p hp => newline_notMem_key (mem_prom hp), hreads]

theorem values_entries : ∀ e ∈ entries lib s.band s.watched, lib.digits10 e.metric.value :=
  fun _ he => s.values _ (mem_prom (mem_of_mem_entries he))

theorem inBand_self {v : F} (hv : lib.digits10 v) :
    inBand lib v s.band.tolPct (sixDigits lib s.band.floor) v = true := by
  have hfinite := lib.digits10_finite v hv
  rw [inBand, lib.sub_self v hfinite, lib.fabs_zero, Libc.max]
  split
  · exact lib.general6_nonneg _ s.floor.1 s.floor.2
  · exact lib.percent_nonneg v _ hfinite (lib.decimals4_finite _ s.tolPct.1) s.tolPct.2

theorem checkGauge_frozen {e : Entry F} (he : e ∈ entries lib s.band s.watched) :
    checkGauge lib s.prom (e.frozen lib s.band) = some [] ↔
      ∃ p, s.prom.find? (fun p => gaugeKey p = e.key) = some p ∧
        (p.value = e.metric.value
          ∨ inBand lib e.metric.value s.band.tolPct (sixDigits lib s.band.floor) p.value = true) := by
  have hkey : (e.frozen lib s.band).key = e.key := rfl
  rw [checkGauge, hkey]
  cases s.prom.find? fun p => gaugeKey p = e.key with
  | none => exact ⟨nofun, fun ⟨_, h, _⟩ => nomatch h⟩
  | some p =>
      dsimp only
      split
      · rename_i hin
        exact ⟨fun _ => ⟨p, rfl, .inr hin⟩, fun _ => rfl⟩
      · rename_i hout
        refine ⟨fun h => absurd (Option.some.inj h) (List.cons_ne_nil _ _), ?_⟩
        rintro ⟨p', hp', hvalue | hin⟩
        · cases hp'
          rw [hvalue] at hout
          exact absurd (inBand_self (values_entries e he)) hout
        · cases hp'
          exact absurd hin hout

theorem checkClass_frozen :
    ∀ c ∈ (s.active.filter Report.frozen).map (fun r => (r.name, r.klass)),
      checkClass (F := F) s.active c = some [] := by
  intro c hc
  obtain ⟨r, hr, rfl⟩ := List.mem_map.mp hc
  obtain ⟨hr, hfrozen⟩ := List.mem_filter.mp hr
  rw [Report.frozen, Bool.and_eq_true, decide_eq_true_eq] at hfrozen
  exact checkClass_self s.distinct hr hfrozen.1

theorem readGolden_eq {text : List UInt8} {g : Golden F}
    (hlines : readGoldenLines lib 1 {} (pieces newline text) = .ok g) (hv : g.version = goldenFormat)
    (hw : g.workload ≠ []) : readGolden lib text = .ok g := by
  rw [readGolden, hlines]
  dsimp only
  rw [if_neg (not_not.mpr hv), if_neg hw]

theorem rc_check_iff {text : List UInt8} (h : s.write = some text)
    (hkeys : ∀ e ∈ entries lib s.band s.watched, e.key ≠ []) :
    ∃ g, readGolden lib text = .ok g ∧ ((s.check g).rc = 0 ↔
      ∀ e ∈ entries lib s.band s.watched, checkGauge lib s.prom (e.frozen lib s.band) = some []) := by
  obtain ⟨hgate, hsome, -⟩ := write_eq h
  obtain ⟨n, g, hv, hw, hg, hc, hread⟩ := readGolden_write h
  have hall := readGoldenLines_entries s.tolPct.1 s.floor.1 values_entries hkeys n g
  rw [hg, List.nil_append] at hall
  refine ⟨_, readGolden_eq (hread.trans hall) hv (hw ▸ s.label_ne), ?_⟩
  have hfrozen : g.classes ≠ [] ∨
      (entries lib s.band s.watched).map (Entry.frozen lib s.band) ≠ [] := by
    rw [hc]
    refine hsome.imp (fun hne => ?_) fun hne => ?_
    · exact fun hnil => hne (List.map_eq_nil_iff.mp hnil)
    · exact fun hnil => hne (entries_eq_nil_iff.mp (List.map_eq_nil_iff.mp hnil))
  rw [check, rc_checkGolden_iff hgate hfrozen]
  dsimp only
  rw [hc, List.forall_mem_map (f := Entry.frozen lib s.band)]
  exact and_iff_right checkClass_frozen

theorem found_of_agrees {text : List UInt8} (h : s.write = some text) (hag : s.Agrees text) :
    s.Found := by
  obtain ⟨g, hg, hrc, -⟩ := hag
  have hkeys : ∀ e ∈ entries lib s.band s.watched, e.key ≠ [] := by
    obtain ⟨n, g₀, -, -, -, -, hread⟩ := readGolden_write h
    rw [readGolden, hread] at hg
    cases hlines : readGoldenLines lib n g₀
        ((entries lib s.band s.watched).map (Entry.line lib s.band)) with
    | error e =>
        rw [hlines] at hg
        exact absurd hg nofun
    | ok g₁ => exact key_ne_nil_of_readGoldenLines s.tolPct.1 s.floor.1 values_entries hlines
  obtain ⟨g', hg', hcheck⟩ := rc_check_iff h hkeys
  rw [hg] at hg'
  cases hg'
  exact fun e he => ⟨hkeys e he, (checkGauge_frozen he).mp (hcheck.mp hrc e he)⟩

theorem agrees_of_found {text : List UInt8} (h : s.write = some text) (hfound : s.Found) :
    s.Agrees text := by
  obtain ⟨g, hg, hcheck⟩ := rc_check_iff h fun e he => (hfound e he).1
  have hrc := hcheck.mpr fun e he => (checkGauge_frozen he).mpr (hfound e he).2
  exact ⟨g, hg, hrc, failed_of_rc hrc⟩

theorem found_of_plain (hplain : s.Plain) : s.Found := by
  have hcstr : ∀ p ∈ s.watched, cstr (gaugeKey p.1) = gaugeKey p.1 :=
    fun p hp => cstr_eq_self (hplain.word p hp).2.1
  have hentries : entries lib s.band s.watched
      = s.watched.map fun p => ⟨p.1, p.2, cstr (gaugeKey p.1)⟩ :=
    entries_eq_map fun p hp => by
      rw [hcstr p hp]
      exact hplain.short p hp
  intro e he
  rw [hentries] at he
  obtain ⟨p, hp, rfl⟩ := List.mem_map.mp he
  obtain ⟨hne, -, hhead⟩ := hplain.word p hp
  have hkey : (Entry.mk p.1 p.2 (cstr (gaugeKey p.1))).key = gaugeKey p.1 := by
    obtain ⟨c, rest, hcons⟩ := List.exists_cons_of_ne_nil hne
    have hc : isBlank c = false := hhead c (by rw [hcons]; rfl)
    rw [Entry.key, hcstr p hp, hcons,
      List.dropWhile_cons_of_neg (by rw [hc]; exact Bool.false_ne_true)]
  rw [hkey]
  have hsome : (s.prom.find? fun q => gaugeKey q = gaugeKey p.1).isSome = true := by
    rw [List.find?_isSome]
    exact ⟨p.1, mem_prom hp, decide_eq_true rfl⟩
  obtain ⟨q, hq⟩ := Option.isSome_iff_exists.mp hsome
  have hqkey : gaugeKey q = gaugeKey p.1 := by simpa using List.find?_some hq
  exact ⟨hne, q, hq, .inl (hplain.one p hp q (List.mem_of_find?_eq_some hq) hqkey)⟩

/-- **Freezing and checking** agree exactly when every gauge line leads back to
a metric with its value or one in its band; plain keys do. -/
theorem agrees_iff (s : Setup lib) (text : List UInt8) (h : s.write = some text) :
    (s.Agrees text ↔ s.Found) ∧ (s.Plain → s.Agrees text) :=
  ⟨⟨found_of_agrees h, agrees_of_found h⟩, fun hplain => agrees_of_found h (found_of_plain hplain)⟩

end Setup

/-! ### One metric -/

/-- A number as the library of the example writes it. -/
def numeral (s : List UInt8) : Bool :=
  !s.isEmpty && s.all fun c => wordByte c && c != 0

theorem word_of_numeral {s : List UInt8} (h : numeral s = true) :
    s ≠ [] ∧ ∀ c ∈ s, wordByte c = true ∧ c ≠ 0 := by
  rw [numeral, Bool.and_eq_true, Bool.not_eq_true', List.isEmpty_eq_false_iff] at h
  refine ⟨h.1, fun c hc => ?_⟩
  have hboth := List.all_eq_true.mp h.2 c hc
  rw [Bool.and_eq_true] at hboth
  exact ⟨hboth.1, bne_iff_ne.mp hboth.2⟩

def zeroLibc : Libc Unit where
  fixed4 _ := spelling "0.0000"
  fixed6 _ := spelling "0.000000"
  general6 _ := [0x30]
  general10 _ := [0x30]
  strtod s := ((), if s.head? = some 0x30 then s.length else 0)
  zero := ()
  one := ()
  hundred := ()
  whole := ()
  ofUInt64 _ := ()
  sub _ _ := ()
  mul _ _ := ()
  div _ _ := ()
  fabs _ := ()
  lt _ _ := false
  le _ _ := true
  finite _ := True
  digits10 _ := True
  decimals4 _ := True
  words _ s hs :=
    have hall : [spelling "0.0000", spelling "0.000000", [0x30], [0x30]].all numeral = true := rfl
    word_of_numeral (List.all_eq_true.mp hall s hs)
  fixed4_length _ := by decide
  general6_length _ := by decide
  general10_length _ := by decide
  strtod_fixed4 _ _ := rfl
  strtod_general6 _ _ := rfl
  strtod_general10 _ _ := rfl
  general6_nonneg _ _ _ := rfl
  digits10_finite _ _ := trivial
  decimals4_finite _ _ := trivial
  sub_self _ _ := rfl
  fabs_zero := rfl
  percent_nonneg _ _ _ _ _ := rfl

/-- A run with one metric `x`, which is watched. -/
def setupX (labels : List UInt8) (hlabels : newline ∉ labels) : Setup zeroLibc where
  host := ⟨[], [], [], []⟩
  label := [0x77]
  active := []
  prom := [⟨[0x78], labels, ()⟩]
  watch := [[0x78]]
  band := ⟨(), ()⟩
  cap := ⟨1, none⟩
  allowUnknown := true
  reductions := []
  host_lines := by decide
  label_line := by decide
  label_ne := List.cons_ne_nil _ _
  label_head := by
    rintro c hc
    obtain rfl := Option.some.inj hc
    rfl
  label_last := by
    rintro c hc
    obtain rfl := Option.some.inj hc
    decide
  names _ h := absurd h List.not_mem_nil
  classes _ h := absurd h List.not_mem_nil
  distinct := List.nodup_nil
  metric_lines := by
    intro m hm
    obtain rfl := List.mem_singleton.mp hm
    have hname : newline ∉ [(0x78 : UInt8)] ∧ 0 ∉ [(0x78 : UInt8)] := by decide
    exact ⟨hname.1, hname.2, hlabels⟩
  values _ _ := trivial
  tolPct := ⟨trivial, rfl⟩
  floor := ⟨trivial, rfl⟩

/-- Without labels the metric is found again. -/
theorem agrees_plain :
    ∃ text, (setupX [] List.not_mem_nil).write = some text
      ∧ (setupX [] List.not_mem_nil).Agrees text := by
  refine ⟨_, rfl, (Setup.agrees_iff _ _ rfl).1.mpr fun e he => ?_⟩
  obtain rfl := List.mem_singleton.mp he
  exact ⟨List.cons_ne_nil _ _, _, rfl, .inl rfl⟩

def longLabels : List UInt8 := spelling "comm=\"" ++ List.replicate 600 0x61 ++ [0x22]

theorem newline_notMem_longLabels : newline ∉ longLabels := by
  rw [longLabels, List.mem_append, List.mem_append, not_or, not_or]
  exact ⟨⟨by decide, fun h => absurd (List.eq_of_mem_replicate h) (by decide)⟩, by decide⟩

theorem length_text_le {F : Type} {lib : Libc F} {band : Band F} {m : PromMetric F}
    {red : Reduction} {e : Entry F} (h : e ∈ entries lib band [(m, red)]) :
    e.text.length ≤ lineRoom := by
  rw [entries, entries] at h
  split at h
  · rename_i hfit
    rw [List.mem_singleton.mp h]
    dsimp only
    omega
  · rw [Entry.glue, List.mem_singleton] at h
    rw [h, List.length_take]
    omega

/-- With a label of 600 bytes the run that was frozen does not pass: its gauge
line is cut, and no metric has the key that is left. -/
theorem not_agrees_long :
    ¬ ∀ (F : Type) (lib : Libc F) (s : Setup lib) (text : List UInt8),
      s.write = some text → s.Agrees text := by
  intro h
  have hfound := Setup.found_of_agrees rfl
    (h Unit zeroLibc (setupX longLabels newline_notMem_longLabels) _ rfl)
  have hwatched : (setupX longLabels newline_notMem_longLabels).watched
      = [(⟨[0x78], longLabels, ()⟩, .point)] := rfl
  have hne : entries zeroLibc ⟨(), ()⟩ [(⟨[0x78], longLabels, ()⟩, .point)] ≠ [] :=
    fun hnil => absurd (entries_eq_nil_iff.mp hnil) (List.cons_ne_nil _ _)
  obtain ⟨e, es, hes⟩ := List.exists_cons_of_ne_nil hne
  have he : e ∈ entries zeroLibc ⟨(), ()⟩ [(⟨[0x78], longLabels, ()⟩, .point)] :=
    hes ▸ List.mem_cons_self
  rw [Setup.Found, hwatched] at hfound
  obtain ⟨-, p, hp, -⟩ := hfound e he
  have hmem := List.mem_of_find?_eq_some hp
  obtain rfl : p = ⟨[0x78], longLabels, ()⟩ := List.mem_singleton.mp hmem
  have hkey : gaugeKey ⟨[0x78], longLabels, ()⟩ = e.key := by simpa using List.find?_some hp
  have hlong : 600 ≤ (gaugeKey (⟨[0x78], longLabels, ()⟩ : PromMetric Unit)).length := by
    have hlen : longLabels.length = 607 := by
      rw [longLabels, List.length_append, List.length_append, List.length_replicate]
      rfl
    have hsome : longLabels ≠ [] := fun hnil => by
      rw [hnil] at hlen
      exact absurd hlen (by decide)
    rw [gaugeKey, if_pos hsome]
    simp only [List.length_append, List.length_cons, hlen]
    omega
  have hcut := length_text_le he
  have hdrop : e.key.length ≤ e.text.length := (List.dropWhile_suffix _).length_le
  rw [hkey] at hlong
  rw [lineRoom] at hcut
  omega

end Montauk.Tools
