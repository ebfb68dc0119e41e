import Montauk.Tools.PromPopulation

/-!
# Labels through the exposition

Both readers of the repository against the line that the sink writes. The
population reader takes the label block to end at the first `}` outside quotes,
and reads every line back whose value is a finite double. `parse_prometheus`
takes the first `}` of all, so that a label value with a brace in it is cut
(`labels_survive_brace`).
-/

namespace Montauk.Tools

open Emit Scan Ch Collect

section

variable {D : Type} (lib : DoubleText D) (name : Ident) (labels : List Label) (v : MetricValue D)

/-- The line is read back by both readers, in front of any text: the name, the
labels with their values escaped, and the value. No other labels are spelled
the same. -/
structure Survives : Prop where
  population : ∀ rest, ∃ d, v.Is lib d ∧
    readLines lib (sampleLine lib name labels v ++ rest)
      = .sample { name := name.bytes, labels := labels.map spelled, value := d }
        :: readLines lib rest
  provider : ∀ rest, ∃ d, v.Is lib d ∧
    parsePrometheus lib (sampleLine lib name labels v ++ rest)
      = { name := name.bytes, labels := labelsText labels, value := d }
        :: parsePrometheus lib rest
  spelled_inj : ∀ other : List Label, other.map spelled = labels.map spelled → other = labels
  text_inj : ∀ other : List Label, labelsText other = labelsText labels → other = labels

theorem sampleLine_append (rest : List UInt8) :
    sampleLine lib name labels v ++ rest
      = (labeledLine name labels ++ v.text lib) ++ newline :: rest := by
  simp [sampleLine]

theorem newline_notMem_line : newline ∉ labeledLine name labels ++ v.text lib := by
  rw [List.mem_append, not_or]
  exact ⟨newline_notMem_labeledLine name labels,
    fun h => (numByte_plain (numByte_value lib v _ h)).2.2.1 rfl⟩

theorem readLines_sampleLine (rest : List UInt8) :
    readLines lib (sampleLine lib name labels v ++ rest)
      = readSample lib name.bytes (labelsText labels) (v.text lib) :: readLines lib rest := by
  rw [sampleLine_append, readLines_cons lib (newline_notMem_line lib name labels v),
    readLine_sampleLine]

theorem parsePrometheus_sampleLine (rest : List UInt8) :
    parsePrometheus lib (sampleLine lib name labels v ++ rest)
      = (parseLine lib (labeledLine name labels ++ v.text lib)).toList
        ++ parsePrometheus lib rest := by
  rw [sampleLine_append, parsePrometheus_cons lib (newline_notMem_line lib name labels v)]

theorem spelled_injective {l m : Label} (h : spelled l = spelled m) : l = m := by
  obtain ⟨hkey, hval⟩ := Prod.mk.inj h
  cases l
  cases m
  obtain rfl := Ident.ext_bytes hkey
  obtain rfl := escaped_injective hval
  rfl

/-! ## What each reader makes of the line -/

theorem readSample_exact (h : v.exact lib = true) :
    ∃ d, v.Is lib d ∧ readSample lib name.bytes (labelsText labels) (v.text lib)
      = .sample { name := name.bytes, labels := labels.map spelled, value := d } := by
  obtain ⟨d, hd, hfin, his⟩ := strtod_value lib h
  refine ⟨d, his, ?_⟩
  unfold readSample
  rw [cstr_number (numByte_value lib v), hd, parseLabels_labelsText]
  simp [hfin]

theorem isFinite_readSample {name labels value : List UInt8} {s : PopSample D}
    (h : readSample lib name labels value = .sample s) : lib.isFinite s.value = true := by
  unfold readSample at h
  split at h
  · cases h
  · split at h
    · rename_i hfin
      cases h
      exact hfin
    · cases h

theorem parseValue_labels {name labels rest : List UInt8} {m : ProviderMetric D}
    (h : parseValue lib name labels rest = some m) : m.labels = labels := by
  unfold parseValue at h
  dsimp only at h
  split at h
  · cases h
  · split at h
    · cases h
      rfl
    · cases h

/-- The provider reader takes a line with an exact value and no brace in its
label values. -/
theorem parseLine_exact (hbrace : ∀ l ∈ labels, rbrace ∉ l.value) (h : v.exact lib = true) :
    ∃ d, v.Is lib d ∧ parseLine lib (labeledLine name labels ++ v.text lib)
      = some { name := name.bytes, labels := labelsText labels, value := d } := by
  obtain ⟨d, hd, -, his⟩ := strtod_value lib h
  refine ⟨d, his, ?_⟩
  rw [parseLine_sampleLine]
  by_cases hl : labels = []
  · rw [if_pos hl, parseValue_text, hd, hl]
    rfl
  · have hno : rbrace ∉ labelsText labels := by
      rw [rbrace_mem_labelsText]
      rintro ⟨l, hmem, hr⟩
      exact hbrace l hmem hr
    rw [if_neg hl, cutAt_append hno]
    simp only [Option.bind_some]
    rw [parseValue_text, hd]
    rfl

theorem parseLine_brace (hbrace : ∃ l ∈ labels, rbrace ∈ l.value) {m : ProviderMetric D}
    (h : parseLine lib (labeledLine name labels ++ v.text lib) = some m) :
    m.labels.length < (labelsText labels).length := by
  have hmem := (rbrace_mem_labelsText labels).mpr hbrace
  have hl : labels ≠ [] := by
    obtain ⟨l, hl, -⟩ := hbrace
    exact List.ne_nil_of_mem hl
  obtain ⟨a, b, hcut⟩ := exists_cutAt hmem
  rw [parseLine_sampleLine, if_neg hl, cutAt_append_of_mem hmem, hcut] at h
  rw [parseValue_labels lib h]
  have htext := (cutAt_some hcut).1
  rw [htext, List.length_append, List.length_cons]
  simp only
  omega

variable {lib name labels v} in
theorem Survives.no_brace (h : Survives lib name labels v) : ∀ l ∈ labels, rbrace ∉ l.value := by
  intro l hl hr
  obtain ⟨d, -, hread⟩ := h.provider []
  rw [parsePrometheus_sampleLine] at hread
  cases hp : parseLine lib (labeledLine name labels ++ v.text lib) with
  | none =>
    rw [hp] at hread
    have hlen := congrArg List.length hread
    simp at hlen
  | some m =>
    have hshort := parseLine_brace lib name labels v ⟨l, hl, hr⟩ hp
    rw [hp] at hread
    have hm := (List.cons.inj hread).1
    rw [hm] at hshort
    exact absurd hshort (Nat.lt_irrefl _)

/-- A line survives if and only if no label value has a `}` in it and the value
is a finite double. -/
theorem labels_survive_iff :
    Survives lib name labels v ↔ (∀ l ∈ labels, rbrace ∉ l.value) ∧ v.exact lib = true := by
  constructor
  · intro h
    refine ⟨h.no_brace, ?_⟩
    obtain ⟨d, his, hread⟩ := h.population []
    rw [readLines_sampleLine] at hread
    exact exact_of_is lib his (isFinite_readSample lib (List.cons.inj hread).1)
  · rintro ⟨hbrace, hexact⟩
    constructor
    · intro rest
      obtain ⟨d, his, hread⟩ := readSample_exact lib name labels v hexact
      exact ⟨d, his, by rw [readLines_sampleLine, hread]⟩
    · intro rest
      obtain ⟨d, his, hread⟩ := parseLine_exact lib name labels v hbrace hexact
      refine ⟨d, his, ?_⟩
      rw [parsePrometheus_sampleLine, hread]
      rfl
    · exact fun other h => List.map_injective_iff.mpr (fun _ _ => spelled_injective) h
    · exact fun other h => labelsText_injective h

end

/-- A process whose name has a brace in it: `x{comm="}"} 1`. -/
theorem labels_survive_brace :
    ¬ ∀ (D : Type) (lib : DoubleText D) (name : Ident) (labels : List Label) (v : MetricValue D),
      Survives lib name labels v := by
  intro h
  have hs := h Unit oneText ⟨[0x78], by decide +kernel, by decide +kernel⟩
    [{ key := ⟨[0x63, 0x6f, 0x6d, 0x6d], by decide +kernel, by decide +kernel⟩, value := [rbrace] }]
    (.u64 1)
  exact hs.no_brace _ List.mem_cons_self List.mem_cons_self

end Montauk.Tools
