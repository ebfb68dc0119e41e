import Montauk.Collect.Provider

/-!
# The population reader

The part of `parse_file` that reads a line of a capture: a sample with its
labels, the family of a histogram, or nothing. The label block ends at the
first `}` outside quotes, and `parse_labels` closes a value at the first quote
that no backslash escapes; the values stay escaped.
-/

namespace Montauk.Tools

open Emit Scan Ch Collect

def strip (s : List UInt8) : List UInt8 := trim isSpace isSpace s

/-- The value up to its closing quote, and what is behind the quote. -/
def closeQuote : List UInt8 → Option (List UInt8 × List UInt8)
  | [] => none
  | [c] => if c = dquote then some ([], []) else none
  | c :: d :: s =>
      if c = backslash then (closeQuote s).map fun p => (c :: d :: p.1, p.2)
      else if c = dquote then some ([], d :: s)
      else (closeQuote (d :: s)).map fun p => (c :: p.1, p.2)

theorem length_closeQuote {s a b : List UInt8} (h : closeQuote s = some (a, b)) :
    b.length < s.length := by
  induction s using closeQuote.induct generalizing a with
  | case1 => cases h
  | case2 =>
    cases h
    decide
  | case3 c hc =>
    rw [closeQuote, if_neg hc] at h
    cases h
  | case4 d s ih =>
    rw [closeQuote, if_pos rfl] at h
    obtain ⟨p, hp, he⟩ := Option.map_eq_some_iff.mp h
    cases he
    have := ih hp
    simp only [List.length_cons]
    omega
  | case5 d s hb =>
    rw [closeQuote, if_neg hb, if_pos rfl] at h
    cases h
    simp
  | case6 c d s hb hq ih =>
    rw [closeQuote, if_neg hb, if_neg hq] at h
    obtain ⟨p, hp, he⟩ := Option.map_eq_some_iff.mp h
    cases he
    have := ih hp
    simp only [List.length_cons] at this ⊢
    omega

/-- One pass of the loop in `parse_labels`: the key, the value and what is
behind the closing quote. -/
def nextLabel (s : List UInt8) : Option (List UInt8 × List UInt8 × List UInt8) := do
  let (key, behindEq) ← cutAt equals s
  let (_, behindQuote) ← cutAt dquote behindEq
  let (value, rest) ← closeQuote behindQuote
  return (strip key, value, rest)

theorem length_nextLabel {s k v rest : List UInt8} (h : nextLabel s = some (k, v, rest)) :
    rest.length < s.length := by
  obtain ⟨⟨key, behindEq⟩, hkey, h⟩ := Option.bind_eq_some_iff.mp h
  obtain ⟨⟨pad, behindQuote⟩, hpad, h⟩ := Option.bind_eq_some_iff.mp h
  obtain ⟨⟨value, rest'⟩, hval, h⟩ := Option.bind_eq_some_iff.mp h
  cases h
  have h1 := length_cutAt hkey
  have h2 := length_cutAt hpad
  have h3 := length_closeQuote hval
  omega

def parseLabels (s : List UInt8) : List (List UInt8 × List UInt8) :=
  match h : nextLabel s with
  | none => []
  | some (key, value, rest) =>
      have : rest.length < s.length := length_nextLabel h
      let more :=
        match hc : cutAt comma rest with
        | none => []
        | some p =>
            have : p.2.length < rest.length := length_cutAt hc
            parseLabels p.2
      if key = [] then more else (key, value) :: more
termination_by s.length

/-- The label block up to its closing brace, and what is behind it: a brace in
quotes closes nothing. -/
def closeBrace : Bool → List UInt8 → Option (List UInt8 × List UInt8)
  | _, [] => none
  | true, [_] => none
  | true, c :: d :: s =>
      if c = backslash then (closeBrace true s).map fun p => (c :: d :: p.1, p.2)
      else (closeBrace (c ≠ dquote) (d :: s)).map fun p => (c :: p.1, p.2)
  | false, c :: s =>
      if c = dquote then (closeBrace true s).map fun p => (c :: p.1, p.2)
      else if c = rbrace then some ([], s)
      else (closeBrace false s).map fun p => (c :: p.1, p.2)

/-- A sample, its labels still escaped. -/
structure PopSample (D : Type) where
  name : List UInt8
  labels : List (List UInt8 × List UInt8)
  value : D

/-- What a line is to `parse_file`. -/
inductive PromLine (D : Type) where
  | skip
  | histogram (family : List UInt8)
  | sample (s : PopSample D)

def words (s : List UInt8) : List (List UInt8) :=
  (s.splitOnP isSpace).filter fun w => !w.isEmpty

section

variable {D : Type} (lib : DoubleText D)

/-- A comment names the family of a histogram, `# TYPE <name> histogram`. -/
def readComment (s : List UInt8) : PromLine D :=
  if "# TYPE".toUTF8.toList.isPrefixOf s then
    match words s with
    | _ :: _ :: family :: kind :: _ =>
        if kind = "histogram".toUTF8.toList then .histogram family else .skip
    | _ => .skip
  else .skip

/-- The value is the number in front; what is behind it is not looked at. -/
def readSample (name labels value : List UInt8) : PromLine D :=
  match lib.strtod (cstr value) with
  | none => .skip
  | some (v, _) =>
      if lib.isFinite v then .sample { name, labels := parseLabels labels, value := v } else .skip

/-- A line in `parse_file`. -/
def readLine (line : List UInt8) : PromLine D :=
  let s := strip line
  if s = [] then .skip
  else if s.head? = some 0x23 then readComment s
  else
    match cutAt lbrace s with
    | some (name, tail) =>
        match closeBrace false tail with
        | some (labels, rest) => readSample lib name labels (strip rest)
        | none => .skip
    | none =>
        let name := s.takeWhile fun c => !isBlank c
        match s.dropWhile fun c => !isBlank c with
        | [] => .skip
        | _ :: rest => readSample lib (strip name) [] (strip rest)

/-- The lines of a file, as `parse_file` reads them. -/
def readLines (text : List UInt8) : List (PromLine D) :=
  (pieces newline text).map (readLine lib)

theorem readLines_cons {line : List UInt8} (h : newline ∉ line) (rest : List UInt8) :
    readLines lib (line ++ newline :: rest) = readLine lib line :: readLines lib rest := by
  unfold readLines
  rw [pieces_append h, List.map_cons]

end

/-! ## Quotes -/

theorem closeQuote_escape (d : UInt8) (s : List UInt8) :
    closeQuote (backslash :: d :: s)
      = (closeQuote s).map fun p => (backslash :: d :: p.1, p.2) := by
  rw [closeQuote, if_pos rfl]

theorem closeQuote_quote (s : List UInt8) : closeQuote (dquote :: s) = some ([], s) := by
  have hb : dquote ≠ backslash := by decide
  cases s with
  | nil => rfl
  | cons d s => rw [closeQuote, if_neg hb, if_pos rfl]

theorem closeQuote_plain {c : UInt8} (hb : c ≠ backslash) (hq : c ≠ dquote) (s : List UInt8) :
    closeQuote (c :: s) = (closeQuote s).map fun p => (c :: p.1, p.2) := by
  cases s with
  | nil => simp [closeQuote, hq]
  | cons d s => rw [closeQuote, if_neg hb, if_neg hq]

theorem closeQuote_escaped (v s : List UInt8) :
    closeQuote (escaped v ++ dquote :: s) = some (escaped v, s) := by
  induction v with
  | nil => exact closeQuote_quote s
  | cons c v ih =>
    rw [escaped_cons]
    rcases escapeByte_cases c with ⟨d, hd, -⟩ | ⟨hc, hb, hq, -⟩
    · rw [hd]
      simp only [List.cons_append, List.nil_append]
      rw [closeQuote_escape, ih]
      rfl
    · rw [hc]
      simp only [List.cons_append, List.nil_append]
      rw [closeQuote_plain hb hq, ih]
      rfl

theorem closeBrace_escape (d : UInt8) (s : List UInt8) :
    closeBrace true (backslash :: d :: s)
      = (closeBrace true s).map fun p => (backslash :: d :: p.1, p.2) := by
  rw [closeBrace, if_pos rfl]

theorem closeBrace_quoted {c : UInt8} (hb : c ≠ backslash) (s : List UInt8) :
    closeBrace true (c :: s) = (closeBrace (c ≠ dquote) s).map fun p => (c :: p.1, p.2) := by
  cases s with
  | nil =>
    rw [closeBrace]
    cases decide (c ≠ dquote) <;> rfl
  | cons d s => rw [closeBrace, if_neg hb]

/-- Within quotes an escaped value is passed over, whatever is in it. -/
theorem closeBrace_escaped (v s : List UInt8) :
    closeBrace true (escaped v ++ s)
      = (closeBrace true s).map fun p => (escaped v ++ p.1, p.2) := by
  induction v with
  | nil => simp
  | cons c v ih =>
    rw [escaped_cons]
    rcases escapeByte_cases c with ⟨d, hd, -⟩ | ⟨hc, hb, hq, -⟩
    · rw [hd]
      simp only [List.cons_append, List.nil_append]
      rw [closeBrace_escape, ih, Option.map_map]
      rfl
    · rw [hc]
      simp only [List.cons_append, List.nil_append]
      rw [closeBrace_quoted hb, decide_eq_true hq, ih, Option.map_map]
      rfl

theorem closeBrace_plain {a : List UInt8} (h : ∀ c ∈ a, c ≠ dquote ∧ c ≠ rbrace)
    (s : List UInt8) :
    closeBrace false (a ++ s) = (closeBrace false s).map fun p => (a ++ p.1, p.2) := by
  induction a with
  | nil => simp
  | cons c a ih =>
    obtain ⟨⟨hq, hr⟩, ha⟩ := List.forall_mem_cons.mp h
    rw [List.cons_append, closeBrace, if_neg hq, if_neg hr, ih ha, Option.map_map]
    rfl

/-! ## The label block -/

theorem ident_plain (i : Ident) :
    ∀ c ∈ i.bytes, c ≠ dquote ∧ c ≠ rbrace ∧ isSpace c = false := by
  intro c hc
  refine ⟨fun he => notMem_ident (by decide) i (he ▸ hc),
    fun he => notMem_ident (by decide) i (he ▸ hc), ?_⟩
  exact (identByte_plain (i.valid c hc)).2.2.2.2.2

theorem closeBrace_label (l : Label) (s : List UInt8) :
    closeBrace false (l.text ++ s) = (closeBrace false s).map fun p => (l.text ++ p.1, p.2) := by
  have hkey : ∀ c ∈ l.key.bytes ++ [equals], c ≠ dquote ∧ c ≠ rbrace := by
    intro c hc
    rcases List.mem_append.mp hc with hc | hc
    · exact ⟨(ident_plain l.key c hc).1, (ident_plain l.key c hc).2.1⟩
    · rw [List.mem_singleton.mp hc]
      decide
  have hopen : ∀ t, closeBrace false (dquote :: t)
      = (closeBrace true t).map fun p => (dquote :: p.1, p.2) := fun t => by
    rw [closeBrace, if_pos rfl]
  have hshut : ∀ t, closeBrace true (dquote :: t)
      = (closeBrace false t).map fun p => (dquote :: p.1, p.2) := fun t =>
    closeBrace_quoted (by decide) t
  have htext : l.text ++ s
      = (l.key.bytes ++ [equals]) ++ dquote :: (escaped l.value ++ dquote :: s) := by
    simp [Label.text]
  rw [htext, closeBrace_plain hkey, hopen, closeBrace_escaped, hshut]
  cases closeBrace false s with
  | none => rfl
  | some p => simp [Label.text]

theorem closeBrace_labelsText (ls : List Label) (s : List UInt8) :
    closeBrace false (labelsText ls ++ rbrace :: s) = some (labelsText ls, s) := by
  have hend : closeBrace false (rbrace :: s) = some ([], s) := by
    rw [closeBrace, if_neg (by decide), if_pos rfl]
  have htail : ∀ ls : List Label, closeBrace false ((ls.flatMap fun l => comma :: l.text) ++ rbrace :: s)
      = some (ls.flatMap fun l => comma :: l.text, s) := by
    intro ls
    induction ls with
    | nil => exact hend
    | cons l ls ih =>
      have hcomma : ∀ t, closeBrace false (comma :: t)
          = (closeBrace false t).map fun p => (comma :: p.1, p.2) := fun t => by
        rw [closeBrace, if_neg (by decide), if_neg (by decide)]
      rw [List.flatMap_cons, List.append_assoc, List.cons_append, hcomma, closeBrace_label, ih]
      rfl
  cases ls with
  | nil => exact hend
  | cons l ls =>
    rw [labelsText, List.append_assoc, closeBrace_label, htail]
    rfl

/-- A label as `parse_labels` hands it on. -/
def spelled (l : Label) : List UInt8 × List UInt8 := (l.key.bytes, escaped l.value)

theorem nextLabel_text (l : Label) (s : List UInt8) :
    nextLabel (l.text ++ s) = some (l.key.bytes, escaped l.value, s) := by
  have heq : equals ∉ l.key.bytes := notMem_ident (by decide) l.key
  have hstrip : strip l.key.bytes = l.key.bytes :=
    trim_eq_self l.key.nonempty ((ident_plain l.key _ (List.head_mem _)).2.2)
      ((ident_plain l.key _ (List.getLast_mem _)).2.2)
  have htext : l.text ++ s
      = l.key.bytes ++ equals :: ([] ++ dquote :: (escaped l.value ++ dquote :: s)) := by
    simp [Label.text]
  unfold nextLabel
  rw [htext, cutAt_append heq]
  simp only [Option.bind_eq_bind, Option.bind_some]
  rw [cutAt_append List.not_mem_nil]
  simp only [Option.bind_some]
  rw [closeQuote_escaped]
  simp [hstrip]

theorem parseLabels_nil : parseLabels [] = [] := by
  rw [parseLabels]
  rfl

theorem parseLabels_text (l : Label) : parseLabels l.text = [spelled l] := by
  have hnext := nextLabel_text l []
  rw [List.append_nil] at hnext
  rw [parseLabels]
  split
  · rename_i hn
    rw [hnext] at hn
    cases hn
  · rename_i key value rest hn
    rw [hnext] at hn
    cases hn
    rw [if_neg l.key.nonempty]
    rfl

theorem parseLabels_more (l : Label) (s : List UInt8) :
    parseLabels (l.text ++ comma :: s) = spelled l :: parseLabels s := by
  have hnext := nextLabel_text l (comma :: s)
  rw [parseLabels]
  split
  · rename_i hn
    rw [hnext] at hn
    cases hn
  · rename_i key value rest hn
    rw [hnext] at hn
    cases hn
    have hcut : cutAt comma (comma :: s) = some ([], s) := cutAt_append List.not_mem_nil s
    rw [if_neg l.key.nonempty]
    split
    · rename_i hc
      rw [hcut] at hc
      cases hc
    · rename_i p hc
      rw [hcut] at hc
      cases hc
      rfl

theorem parseLabels_labelsText (ls : List Label) :
    parseLabels (labelsText ls) = ls.map spelled := by
  cases ls with
  | nil => exact parseLabels_nil
  | cons l ls =>
    rw [labelsText]
    induction ls generalizing l with
    | nil => simp [parseLabels_text]
    | cons m ls ih =>
      rw [List.flatMap_cons, List.cons_append, parseLabels_more, ih m]
      rfl

/-! ## A line of the sink -/

section

variable {D : Type} (lib : DoubleText D) (name : Ident) (labels : List Label) (v : MetricValue D)

theorem strip_value : strip (v.text lib) = v.text lib ∧
    strip (0x20 :: v.text lib) = v.text lib := by
  have hsp : ∀ c ∈ v.text lib, isSpace c = false := fun c hc =>
    (numByte_plain (numByte_value lib v c hc)).2.2.2.2.2
  have hself : strip (v.text lib) = v.text lib :=
    trim_eq_self (value_ne_nil lib v) (hsp _ (List.head_mem _)) (hsp _ (List.getLast_mem _))
  refine ⟨hself, ?_⟩
  have hdrop : (0x20 :: v.text lib).dropWhile isSpace = (v.text lib).dropWhile isSpace :=
    List.dropWhile_cons_of_pos (by decide)
  rw [strip, trim, hdrop]
  exact hself

theorem readLine_sampleLine :
    readLine lib (labeledLine name labels ++ v.text lib)
      = readSample lib name.bytes (labelsText labels) (v.text lib) := by
  have hlb : lbrace ∉ name.bytes := notMem_ident (by decide) name
  have hvl : lbrace ∉ v.text lib := fun h => (numByte_plain (numByte_value lib v _ h)).2.1 rfl
  obtain ⟨hstrip, hstrip'⟩ := strip_value lib v
  have hhead := not_or.mp (head_sampleLine lib name labels v)
  have hline : strip (labeledLine name labels ++ v.text lib)
      = labeledLine name labels ++ v.text lib :=
    trim_sampleLine lib name labels v (fun c hc => (identByte_plain hc).2.2.2.2.2)
      (fun c hc => (numByte_plain hc).2.2.2.2.2)
  have hne : labeledLine name labels ++ v.text lib ≠ [] := fun hnil =>
    hhead.1 (by rw [hnil]; rfl)
  unfold readLine
  simp only [hline]
  rw [if_neg hne, if_neg hhead.2]
  unfold labeledLine
  by_cases hl : labels = []
  · rw [if_pos hl, List.append_assoc, List.singleton_append]
    have hnone : cutAt lbrace (name.bytes ++ 0x20 :: v.text lib) = none := by
      refine cutAt_none ?_
      simp [hlb, hvl, lbrace]
    have hblank : ∀ c ∈ name.bytes, (!isBlank c) = true := fun c hc => by
      simp [(identByte_plain (name.valid c hc)).2.2.2.2.1]
    have hstripName : strip name.bytes = name.bytes :=
      trim_eq_self name.nonempty ((ident_plain name _ (List.head_mem _)).2.2)
        ((ident_plain name _ (List.getLast_mem _)).2.2)
    rw [hnone]
    simp only [List.takeWhile_append_of_pos hblank, List.dropWhile_append_of_pos hblank]
    have hstop : (!isBlank 0x20) = false := by decide
    simp only [List.takeWhile_cons, List.dropWhile_cons, hstop, Bool.false_eq_true, if_false,
      List.append_nil, hstripName, hstrip]
    rw [hl]
    rfl
  · rw [if_neg hl, List.append_assoc, List.cons_append, List.append_assoc, cutAt_append hlb]
    simp only [List.cons_append, List.nil_append]
    rw [closeBrace_labelsText]
    simp only [hstrip']

end

end Montauk.Tools
