import Montauk.Emit.PrometheusLine
import Montauk.Machine.Scan

/-!
# Providers

`ProviderCollector`: the text of a provider is read from its socket until the
end of file (`readProviderSocket`), and taken line by line as a Prometheus
exposition (`parsePrometheus`). A provider is kept when its text holds at least
one sample. Nothing bounds the length of the text.
-/

namespace Montauk.Collect

open Emit Scan Ch

/-! ## The socket -/

/-- The size of the buffer each `read` fills. -/
def readBufSize : Nat := 4096

/-- What one `read` on the socket does. With `EAGAIN` goes whether the `poll`
behind it finds the socket readable in time. -/
inductive ReadResult where
  | data (buf : List UInt8) (fits : 0 < buf.length ∧ buf.length ≤ readBufSize)
  | eof
  | again (ready : Bool)
  | interrupted
  | error

/-- The read loop of `read_provider_socket`, over the results of the reads;
`none` where it gives the provider up. -/
def readLoop : List ReadResult → List UInt8 → Option (List UInt8)
  | [], _ => none
  | .data buf _ :: rs, text => readLoop rs (text ++ buf)
  | .eof :: _, text => some text
  | .again ready :: rs, text => if ready then readLoop rs text else none
  | .interrupted :: rs, text => readLoop rs text
  | .error :: _, _ => none

/-- `read_provider_socket` on a socket that was connected. -/
def readProviderSocket (rs : List ReadResult) : Option (List UInt8) := readLoop rs []

/-! ## The text -/

/-- `struct ProviderMetric`. -/
structure ProviderMetric (D : Type) where
  name : List UInt8
  labels : List UInt8
  value : D

def isBlank (c : UInt8) : Bool := c = 0x20 || c = 0x09

/-- The blanks and the carriage returns at the end of a line. -/
def isLineEnd (c : UInt8) : Bool := c = 0x20 || c = 0x09 || c = 0x0d

section

variable {D : Type} (lib : DoubleText D)

/-- The value field: it ends at a blank, and has to be a number as a whole. -/
def parseValue (name labels rest : List UInt8) : Option (ProviderMetric D) :=
  let rest := rest.dropWhile isBlank
  if name = [] ∨ rest = [] then none
  else
    match lib.strtod (cstr (rest.takeWhile fun c => !isBlank c)) with
    | some (value, []) => some { name, labels, value }
    | _ => none

/-- One line in `parse_prometheus`. The labels end at the first `}`. -/
def parseLine (line : List UInt8) : Option (ProviderMetric D) :=
  let line := trim isBlank isLineEnd line
  if line.head? = none ∨ line.head? = some 0x23 then none
  else
    match cutAt lbrace line with
    | some (name, tail) =>
        match cutAt rbrace tail with
        | some (labels, rest) => parseValue lib name labels rest
        | none => none
    | none =>
        match cutAt 0x20 line with
        | some (name, _) => parseValue lib name [] (line.drop name.length)
        | none => none

def parsePrometheus (text : List UInt8) : List (ProviderMetric D) :=
  (pieces newline text).filterMap (parseLine lib)

/-- `struct Provider`, as `sample` keeps it. -/
structure Provider (D : Type) where
  name : List UInt8
  rawText : List UInt8
  metrics : List (ProviderMetric D)

/-- `ProviderCollector::sample` at one socket: the provider is skipped when it
cannot be read or when nothing in its text is a sample. -/
def sampleProvider (name : List UInt8) (rs : List ReadResult) : Option (Provider D) :=
  match readProviderSocket rs with
  | none => none
  | some rawText =>
      let metrics := parsePrometheus lib rawText
      if metrics.length = 0 then none else some { name, rawText, metrics }

theorem parsePrometheus_cons {line : List UInt8} (h : newline ∉ line) (rest : List UInt8) :
    parsePrometheus lib (line ++ newline :: rest)
      = (parseLine lib line).toList ++ parsePrometheus lib rest := by
  unfold parsePrometheus
  rw [pieces_append h, List.filterMap_cons]
  cases parseLine lib line <;> rfl

end

/-! ## Bytes that end nothing -/

theorem numByte_plain {c : UInt8} (h : numByte c = true) :
    c ≠ 0 ∧ c ≠ lbrace ∧ c ≠ newline ∧ isBlank c = false ∧ isLineEnd c = false ∧
      isSpace c = false := by
  revert h
  refine forall_byte (P := fun c => numByte c = true → c ≠ 0 ∧ c ≠ lbrace ∧ c ≠ newline ∧
    isBlank c = false ∧ isLineEnd c = false ∧ isSpace c = false) ?_ c
  decide +kernel

theorem identByte_plain {c : UInt8} (h : identByte c = true) :
    c ≠ lbrace ∧ c ≠ rbrace ∧ c ≠ 0x23 ∧ c ≠ 0x20 ∧ isBlank c = false ∧ isSpace c = false := by
  revert h
  refine forall_byte (P := fun c => identByte c = true → c ≠ lbrace ∧ c ≠ rbrace ∧ c ≠ 0x23 ∧
    c ≠ 0x20 ∧ isBlank c = false ∧ isSpace c = false) ?_ c
  decide +kernel

theorem cstr_number {s : List UInt8} (h : ∀ c ∈ s, numByte c = true) : cstr s = s :=
  cstr_eq_self fun h0 => (numByte_plain (h 0 h0)).1 rfl

theorem rbrace_mem_labelText (l : Label) : rbrace ∈ l.text ↔ rbrace ∈ l.value := by
  have hkey : rbrace ∉ l.key.bytes := notMem_ident (by decide) l.key
  have hval := mem_escaped (c := rbrace) (by decide) l.value
  simp [Label.text, hkey, hval, rbrace, equals, dquote]

theorem rbrace_mem_labelsText (ls : List Label) :
    rbrace ∈ labelsText ls ↔ ∃ l ∈ ls, rbrace ∈ l.value := by
  have hsep : rbrace ≠ comma := by decide
  cases ls with
  | nil => simp [labelsText]
  | cons l ls => simp [labelsText, rbrace_mem_labelText, hsep]

/-! ## A line of the sink -/

section

variable {D : Type} (lib : DoubleText D) (name : Ident) (labels : List Label) (v : MetricValue D)

/-- The line begins with the name and ends in the value, so nothing is trimmed
off it. -/
theorem trim_sampleLine {p q : UInt8 → Bool} (hp : ∀ c, identByte c = true → p c = false)
    (hq : ∀ c, numByte c = true → q c = false) :
    trim p q (labeledLine name labels ++ v.text lib) = labeledLine name labels ++ v.text lib := by
  have hne : labeledLine name labels ++ v.text lib ≠ [] :=
    List.append_ne_nil_of_right_ne_nil _ (value_ne_nil lib v)
  obtain ⟨c, rest, hname⟩ := List.exists_cons_of_ne_nil name.nonempty
  have hc : identByte c = true := name.valid c (by rw [hname]; exact List.mem_cons_self)
  refine trim_eq_self hne ?_ ?_
  · have hhead : (labeledLine name labels ++ v.text lib).head hne = c := by
      unfold labeledLine
      split <;> simp [hname]
    rw [hhead]
    exact hp c hc
  · rw [List.getLast_append_of_ne_nil _ (value_ne_nil lib v)]
    exact hq _ (numByte_value lib v _ (List.getLast_mem _))

theorem head_sampleLine :
    ¬((labeledLine name labels ++ v.text lib).head? = none ∨
      (labeledLine name labels ++ v.text lib).head? = some 0x23) := by
  obtain ⟨c, rest, hname⟩ := List.exists_cons_of_ne_nil name.nonempty
  have hc : identByte c = true := name.valid c (by rw [hname]; exact List.mem_cons_self)
  have hhead : (labeledLine name labels ++ v.text lib).head? = some c := by
    unfold labeledLine
    split <;> simp [hname]
  rw [hhead]
  simp [(identByte_plain hc).2.2.1]

theorem parseValue_text (text : List UInt8) :
    parseValue lib name.bytes text (0x20 :: v.text lib)
      = (lib.strtod (v.text lib)).bind fun p =>
          if p.2 = [] then some { name := name.bytes, labels := text, value := p.1 } else none := by
  have hplain : ∀ c ∈ v.text lib, isBlank c = false := fun c hc =>
    (numByte_plain (numByte_value lib v c hc)).2.2.2.1
  have hdrop : (0x20 :: v.text lib).dropWhile isBlank = v.text lib := by
    rw [List.dropWhile_cons_of_pos (by decide)]
    obtain ⟨c, rest, hv⟩ := List.exists_cons_of_ne_nil (value_ne_nil lib v)
    rw [hv, List.dropWhile_cons_of_neg]
    simp [hplain c (by rw [hv]; exact List.mem_cons_self)]
  have htake : (v.text lib).takeWhile (fun c => !isBlank c) = v.text lib :=
    List.takeWhile_eq_self_iff.mpr fun c hc => by simp [hplain c hc]
  unfold parseValue
  simp only [hdrop, htake, cstr_number (numByte_value lib v)]
  rw [if_neg (not_or.mpr ⟨name.nonempty, value_ne_nil lib v⟩)]
  cases lib.strtod (v.text lib) with
  | none => rfl
  | some p =>
    obtain ⟨d, rest⟩ := p
    cases rest <;> rfl

/-- A line of the sink, as `parse_prometheus` takes it: the labels end at the
first `}` of all. -/
theorem parseLine_sampleLine :
    parseLine lib (labeledLine name labels ++ v.text lib)
      = if labels = [] then parseValue lib name.bytes [] (0x20 :: v.text lib)
        else (cutAt rbrace (labelsText labels ++ rbrace :: 0x20 :: v.text lib)).bind fun p =>
          parseValue lib name.bytes p.1 p.2 := by
  have hlb : lbrace ∉ name.bytes := notMem_ident (by decide) name
  have hsp : (0x20 : UInt8) ∉ name.bytes := notMem_ident (by decide) name
  have hvl : lbrace ∉ v.text lib := fun h => (numByte_plain (numByte_value lib v _ h)).2.1 rfl
  unfold parseLine
  simp only [trim_sampleLine lib name labels v
    (p := isBlank) (q := isLineEnd) (fun c hc => (identByte_plain hc).2.2.2.2.1)
    (fun c hc => (numByte_plain hc).2.2.2.2.1)]
  rw [if_neg (head_sampleLine lib name labels v)]
  unfold labeledLine
  by_cases hl : labels = []
  · rw [if_pos hl, if_pos hl, List.append_assoc, List.singleton_append]
    have hnone : cutAt lbrace (name.bytes ++ 0x20 :: v.text lib) = none := by
      refine cutAt_none ?_
      simp [hlb, hvl, lbrace]
    rw [hnone, cutAt_append hsp]
    simp
  · rw [if_neg hl, if_neg hl, List.append_assoc, List.cons_append, List.append_assoc,
      cutAt_append hlb]
    simp only [List.cons_append, List.nil_append]
    cases cutAt rbrace (labelsText labels ++ rbrace :: 0x20 :: v.text lib) <;> rfl

end

end Montauk.Collect
