import Montauk.Tools.CellKey

/-!
# Cells of the population

`parse_file` adds the version, the commit, the capture and the group to the
labels of a sample, takes the axis value out of them and puts the sample into
the cell of its family and of its `cell_key`. Which labels make up the key
depends on the axis, on the options and on whether the sample is a bucket of a
histogram or a plain gauge.

Two samples are of one series when their labels, without the dropped ones, are
the same in some order. Samples whose labels have neither commas nor NULs meet
in a cell exactly if they are of one series (`cellKey_separates_iff`); with one
of the two bytes there are series that meet, or one that falls apart.
-/

namespace Montauk.Tools

open Emit Scan Ch Collect Montauk.Sort

/-! ## The options and the names -/

/-- What `parse_file` reads of the options. -/
structure PopOptions where
  compareAxis : List UInt8
  dropLabels : List (List UInt8)
  fileGroup : List (List UInt8 × List UInt8)
  familyAlias : List (List UInt8 × List UInt8)

/-- `version` -/
def versionKey : List UInt8 := [0x76, 0x65, 0x72, 0x73, 0x69, 0x6f, 0x6e]

/-- `commit` -/
def commitKey : List UInt8 := [0x63, 0x6f, 0x6d, 0x6d, 0x69, 0x74]

/-- `capture` -/
def captureKey : List UInt8 := [0x63, 0x61, 0x70, 0x74, 0x75, 0x72, 0x65]

/-- `group` -/
def groupKey : List UInt8 := [0x67, 0x72, 0x6f, 0x75, 0x70]

/-- `le` -/
def leKey : List UInt8 := [0x6c, 0x65]

def labelGet (labels : LabelVec) (key : List UInt8) : List UInt8 := (labels.lookup key).getD []

def aliasFamily (n : List UInt8) (opt : PopOptions) : List UInt8 := (opt.familyAlias.lookup n).getD n

/-- `isdigit` -/
def isDecimal (c : UInt8) : Bool := 0x30 ≤ c && c ≤ 0x39

/-- `YYYYMMDD-HHMMSS` -/
def isStamp (w : List UInt8) : Bool :=
  (w.take 8).all isDecimal && w[8]? = some 0x2d && (w.drop 9).all isDecimal

def captureKeyFromPath (path : List UInt8) : List UInt8 :=
  let base := path.rtakeWhile fun c => c ≠ 0x2f
  let base := if ".prom".toUTF8.toList.isSuffixOf base then base.rdrop 5 else base
  let found := ((List.range (base.length - 14)).map fun i => (base.drop i).take 15).filter isStamp
  found.getLast?.getD base

/-! ## The labels that are dropped -/

/-- A histogram's buckets or a plain gauge. -/
inductive SampleKind where
  | bucket
  | gauge
deriving DecidableEq

def builtinDrop (opt : PopOptions) : List (List UInt8) :=
  [opt.compareAxis, leKey, captureKey]
    ++ (if opt.compareAxis = versionKey then [commitKey] else [])
    ++ (if opt.compareAxis = commitKey then [versionKey] else [])

/-- `drop_for_cell` and `drop_for_gauge`: a gauge keeps its `le`. -/
def dropFor (opt : PopOptions) : SampleKind → List (List UInt8)
  | .bucket => builtinDrop opt ++ opt.dropLabels
  | .gauge => (builtinDrop opt).filter (fun l => l ≠ leKey) ++ opt.dropLabels

/-! ## Reading a file -/

/-- A sample on its way into a cell. -/
structure Routed (D : Type) where
  kind : SampleKind
  family : List UInt8
  labels : LabelVec
  axis : List UInt8
  value : D

/-- What a file has said so far. -/
structure FileState where
  histFamilies : List (List UInt8)
  version : List UInt8
  commit : List UInt8

def FileState.start : FileState :=
  { histFamilies := [], version := "unknown".toUTF8.toList, commit := "unknown".toUTF8.toList }

/-- The name without the suffix, if there is something in front of it. -/
def stem (name suffix : List UInt8) : Option (List UInt8) :=
  if suffix.length < name.length ∧ suffix.isSuffixOf name then some (name.rdrop suffix.length) else none

def isHistPart (opt : PopOptions) (st : FileState) (name suffix : List UInt8) : Option (List UInt8) :=
  ((stem name suffix).map fun base => aliasFamily base opt).filter fun base =>
    st.histFamilies.contains base && !base.isEmpty

section

variable {D : Type}

/-- An `_info` sample names the version and the commit. -/
def FileState.readInfo (st : FileState) (s : PopSample D) : FileState :=
  let v := labelGet s.labels versionKey
  let c := labelGet s.labels "git_commit".toUTF8.toList
  { st with version := if v ≠ [] then v else st.version, commit := if c ≠ [] then c else st.commit }

/-- The labels of a sample with those of its file. -/
def fullLabels (st : FileState) (capture group : List UInt8) (s : PopSample D) : LabelVec :=
  s.labels ++ [(versionKey, st.version), (commitKey, st.commit), (captureKey, capture)]
    ++ (if group ≠ [] then [(groupKey, group)] else [])

def place (opt : PopOptions) (kind : SampleKind) (family : List UInt8) (labels : LabelVec) (value : D) :
    Option (Routed D) :=
  let axis := labelGet labels opt.compareAxis
  if axis = [] then none else some { kind, family, labels, axis, value }

/-- Where a sample goes: a bucket of a known histogram, nowhere, or as a gauge. -/
def route (opt : PopOptions) (st : FileState) (capture group : List UInt8) (s : PopSample D) :
    Option (Routed D) :=
  let labels := fullLabels st capture group s
  match isHistPart opt st s.name "_bucket".toUTF8.toList with
  | some hb => place opt .bucket hb labels s.value
  | none =>
      if (isHistPart opt st s.name "_sum".toUTF8.toList).isSome
          || (isHistPart opt st s.name "_count".toUTF8.toList).isSome then none
      else place opt .gauge (aliasFamily s.name opt) labels s.value

/-- The samples of a file's lines, each with what the lines in front have said. -/
def routeLines (opt : PopOptions) (capture group : List UInt8) : FileState → List (PromLine D) → List (Routed D)
  | _, [] => []
  | st, .skip :: lines => routeLines opt capture group st lines
  | st, .histogram family :: lines =>
      routeLines opt capture group
        { st with histFamilies := aliasFamily family opt :: st.histFamilies } lines
  | st, .sample s :: lines =>
      if (stem s.name "_info".toUTF8.toList).isSome then
        routeLines opt capture group (st.readInfo s) lines
      else (route opt st capture group s).toList ++ routeLines opt capture group st lines

abbrev PromFile := List UInt8 × List UInt8

def routed (lib : DoubleText D) (opt : PopOptions) (file : PromFile) : List (Routed D) :=
  routeLines opt (captureKeyFromPath file.1) ((opt.fileGroup.lookup file.1).getD []) .start
    (readLines lib file.2)

/-! ## Putting the samples away -/

variable (order : List (List UInt8) → List (List UInt8))

def Routed.cell (opt : PopOptions) (r : Routed D) : List UInt8 := cellKey order r.labels (dropFor opt r.kind)

/-- `data[family].cells[key].runs[axis]` -/
abbrev Runs (D : Type) := List UInt8 → List UInt8 → List UInt8 → List D

/-- A gauge goes behind the runs of its axis value; the buckets are kept apart
until the file ends. -/
def Runs.push (opt : PopOptions) (data : Runs D) (r : Routed D) : Runs D :=
  match r.kind with
  | .bucket => data
  | .gauge => fun family cell axis =>
      if r.family = family ∧ r.cell order opt = cell ∧ r.axis = axis then data family cell axis ++ [r.value]
      else data family cell axis

/-- `parse_file`, on the runs. -/
def parseFile (lib : DoubleText D) (opt : PopOptions) (data : Runs D) (file : PromFile) : Runs D :=
  (routed lib opt file).foldl (Runs.push order opt) data

def parseFiles (lib : DoubleText D) (opt : PopOptions) (files : List PromFile) : Runs D :=
  files.foldl (parseFile order lib opt) fun _ _ _ => []

end

/-! ## What is in a cell -/

section

variable {D : Type} {order : List (List UInt8) → List (List UInt8)} {lib : DoubleText D} {opt : PopOptions}

theorem runs_push (data : Runs D) (r : Routed D) (family cell axis : List UInt8) :
    Runs.push order opt data r family cell axis = data family cell axis
      ++ ([r].filter fun r => r.kind = .gauge ∧ r.family = family ∧ r.cell order opt = cell ∧ r.axis = axis).map
        Routed.value := by
  rw [Runs.push, List.filter_singleton]
  cases hk : r.kind with
  | bucket => simp
  | gauge =>
      by_cases h : r.family = family ∧ r.cell order opt = cell ∧ r.axis = axis
      · simp [h]
      · simp [h]

theorem runs_foldl_push (rs : List (Routed D)) (data : Runs D) (family cell axis : List UInt8) :
    rs.foldl (Runs.push order opt) data family cell axis = data family cell axis
      ++ (rs.filter fun r => r.kind = .gauge ∧ r.family = family ∧ r.cell order opt = cell ∧ r.axis = axis).map
        Routed.value := by
  induction rs generalizing data with
  | nil => rw [List.foldl_nil, List.filter_nil, List.map_nil, List.append_nil]
  | cons r rs ih =>
      rw [List.foldl_cons, ih, runs_push, ← List.singleton_append (l := rs), List.filter_append, List.map_append,
        List.append_assoc]

/-- **A cell's runs** are the gauges with its family, its key and its axis
value, in the order they are read. -/
theorem runs_parseFiles (files : List PromFile) (family cell axis : List UInt8) :
    parseFiles order lib opt files family cell axis = ((files.flatMap (routed lib opt)).filter fun r =>
      r.kind = .gauge ∧ r.family = family ∧ r.cell order opt = cell ∧ r.axis = axis).map Routed.value := by
  have hrun : ∀ data : Runs D, files.foldl (parseFile order lib opt) data
      = (files.flatMap (routed lib opt)).foldl (Runs.push order opt) data := by
    intro data
    rw [List.foldl_flatMap]
    rfl
  rw [parseFiles, hrun, runs_foldl_push, List.nil_append]

/-! ## The labels of a routed sample -/

theorem plainKeys_fullLabels {st : FileState} {capture group : List UInt8} {s : PopSample D}
    (h : PlainKeys s.labels) : PlainKeys (fullLabels st capture group s) := by
  intro kv hkv
  rcases List.mem_append.mp hkv with hkv | hkv
  · rcases List.mem_append.mp hkv with hkv | hkv
    · exact h kv hkv
    · simp only [List.mem_cons, List.not_mem_nil, or_false] at hkv
      rcases hkv with rfl | rfl | rfl
      · show equals ∉ versionKey
        decide
      · show equals ∉ commitKey
        decide
      · show equals ∉ captureKey
        decide
  · split at hkv
    · rw [List.mem_singleton.mp hkv]
      show equals ∉ groupKey
      decide
    · exact absurd hkv List.not_mem_nil

theorem labels_place {kind : SampleKind} {family : List UInt8} {labels : LabelVec} {value : D} {r : Routed D}
    (h : place opt kind family labels value = some r) : r.labels = labels := by
  rw [place] at h
  split at h
  · exact absurd h nofun
  · cases h
    rfl

theorem labels_route {st : FileState} {capture group : List UInt8} {s : PopSample D} {r : Routed D}
    (h : route opt st capture group s = some r) : r.labels = fullLabels st capture group s := by
  rw [route] at h
  split at h
  · exact labels_place h
  · split at h
    · exact absurd h nofun
    · exact labels_place h

theorem plainKeys_routeLines {capture group : List UInt8} {st : FileState} {lines : List (PromLine D)}
    (h : ∀ s, PromLine.sample s ∈ lines → PlainKeys s.labels) :
    ∀ r ∈ routeLines opt capture group st lines, PlainKeys r.labels := by
  induction lines generalizing st with
  | nil => exact nofun
  | cons line lines ih =>
      have htail := fun st' => @ih st' fun s hs => h s (List.mem_cons_of_mem _ hs)
      cases line with
      | skip => exact htail st
      | histogram family => exact htail _
      | sample s =>
          intro r hr
          rw [routeLines] at hr
          split at hr
          · exact htail _ r hr
          · rcases List.mem_append.mp hr with hr | hr
            · rw [labels_route (Option.mem_toList.mp hr)]
              exact plainKeys_fullLabels (h s List.mem_cons_self)
            · exact htail _ r hr

/-- The labels of a line are what `parse_labels` makes of some text. -/
theorem plainKeys_readLine {line : List UInt8} {s : PopSample D} (h : readLine lib line = .sample s) :
    PlainKeys s.labels := by
  have hsample : ∀ {name labels value : List UInt8}, readSample lib name labels value = .sample s →
      s.labels = parseLabels labels := by
    intro name labels value h
    rw [readSample] at h
    split at h
    · exact absurd h nofun
    · split at h
      · cases h
        rfl
      · exact absurd h nofun
  have hcomment : ∀ {t : List UInt8}, readComment t ≠ PromLine.sample s := by
    intro t h
    rw [readComment] at h
    split at h
    · split at h
      · split at h <;> exact absurd h nofun
      · exact absurd h nofun
    · exact absurd h nofun
  rw [readLine] at h
  split at h
  · exact absurd h nofun
  · split at h
    · exact absurd h hcomment
    · split at h
      · split at h
        · rw [hsample h]
          exact plainKeys_parseLabels _
        · exact absurd h nofun
      · split at h
        · exact absurd h nofun
        · rw [hsample h]
          exact plainKeys_parseLabels _

theorem plainKeys_routed {file : PromFile} : ∀ r ∈ routed lib opt file, PlainKeys r.labels := by
  refine plainKeys_routeLines fun s hs => ?_
  obtain ⟨line, -, hline⟩ := List.mem_map.mp hs
  exact plainKeys_readLine hline

end

/-! ## Telling series apart -/

/-- The labels that tell a sample's series: those that are not dropped. -/
def Routed.series {D : Type} (opt : PopOptions) (r : Routed D) : LabelVec := kept (dropFor opt r.kind) r.labels

variable (order : List (List UInt8) → List (List UInt8)) (A : Set UInt8)

/-- Two vectors of labels made of `A` get the same key exactly if they are the
same without the dropped keys, up to their order. -/
def KeyInjective : Prop :=
  ∀ (s t : List UInt8) (drop : List (List UInt8)), MadeOf A (kept drop (parseLabels s)) →
    MadeOf A (kept drop (parseLabels t)) →
    (cellKey order (parseLabels s) drop = cellKey order (parseLabels t) drop
      ↔ (kept drop (parseLabels s)).Perm (kept drop (parseLabels t)))

/-- No cell holds two series made of `A`, and none is spread over two: samples
of one kind share a cell exactly if they are of one series, and a cell's runs
are the values of one series. -/
def KeepsApart : Prop :=
  ∀ (D : Type) (lib : DoubleText D) (opt : PopOptions) (files : List PromFile),
    (∀ r ∈ files.flatMap (routed lib opt), MadeOf A (r.series opt)) →
    ∀ r ∈ files.flatMap (routed lib opt),
      (∀ q ∈ files.flatMap (routed lib opt), q.kind = r.kind →
        (q.cell order opt = r.cell order opt ↔ (q.series opt).Perm (r.series opt)))
      ∧ (r.kind = .gauge → ∀ axis, parseFiles order lib opt files r.family (r.cell order opt) axis
          = ((files.flatMap (routed lib opt)).filter fun q => q.kind = .gauge ∧ q.family = r.family
              ∧ (q.series opt).Perm (r.series opt) ∧ q.axis = axis).map Routed.value)

variable {order A}

theorem keyInjective (horder : OrdersStrings order) (hcomma : comma ∉ A) (hnul : 0 ∉ A) :
    KeyInjective order A :=
  fun s t _ hs ht =>
    cellKey_eq_iff horder hcomma hnul (plainKeys_parseLabels s) (plainKeys_parseLabels t) hs ht

theorem keepsApart (horder : OrdersStrings order) (hcomma : comma ∉ A) (hnul : 0 ∉ A) :
    KeepsApart order A := by
  intro D lib opt files hA r hr
  have hplain : ∀ q ∈ files.flatMap (routed lib opt), PlainKeys q.labels := by
    intro q hq
    obtain ⟨file, -, hq⟩ := List.mem_flatMap.mp hq
    exact plainKeys_routed q hq
  have hcell : ∀ q ∈ files.flatMap (routed lib opt),
      q.cell order opt = r.cell order opt ↔ (q.series opt).Perm (r.series opt) := fun q hq =>
    cellKey_eq_iff horder hcomma hnul (hplain q hq) (hplain r hr) (hA q hq) (hA r hr)
  refine ⟨fun q hq _ => hcell q hq, fun _ axis => ?_⟩
  rw [runs_parseFiles]
  refine congrArg (List.map Routed.value) (List.filter_congr fun q hq => ?_)
  simp only [hcell q hq]

/-! ## Commas and NULs -/

theorem kept_nil (labels : LabelVec) : kept [] labels = labels :=
  List.filter_eq_self.mpr fun _ _ => by simp

theorem KeyInjective.of_parsed (h : KeyInjective order A) {s t : List UInt8} {u v : LabelVec}
    (hu : parseLabels s = u) (hv : parseLabels t = v) (hAu : MadeOf A u) (hAv : MadeOf A v) :
    cellKey order u [] = cellKey order v [] ↔ u.Perm v := by
  have hiff := h s t []
  rw [hu, hv, kept_nil, kept_nil] at hiff
  exact hiff hAu hAv

theorem cellKey_pair (horder : OrdersStrings order) {a b : List UInt8 × List UInt8}
    (h : cstrKey (part a) ≤ cstrKey (part b)) :
    cellKey order [a, b] [] = part a ++ comma :: part b := by
  rw [cellKey, kept_nil]
  have hsorted : Ascending cstrKey [part a, part b] := List.pairwise_pair.mpr h
  rw [List.map_cons, List.map_cons, List.map_nil, order_eq_self horder hsorted, joined_cons (part_ne_nil a),
    List.flatMap_singleton]

theorem parseLabels_pair {s : List UInt8} (t : List UInt8) {a b : List UInt8 × List UInt8} (ha : a.1 ≠ [])
    (hb : b.1 ≠ []) (hs : nextLabel s = some (a.1, a.2, comma :: t)) (ht : nextLabel t = some (b.1, b.2, [])) :
    parseLabels s = [a, b] := by
  have hrest : cutAt comma (comma :: t) = some ([], t) := cutAt_append List.not_mem_nil t
  rw [parseLabels_of_nextLabel hs, if_neg ha, hrest, Option.map_some, Option.getD_some,
    parseLabels_of_nextLabel ht, if_neg hb, cutAt_none List.not_mem_nil]
  rfl

theorem not_keyInjective_comma (horder : OrdersStrings order) (h : comma ∈ A) : ¬ KeyInjective order A := by
  intro hinj
  have hu : parseLabels [comma, comma, equals, dquote, comma, dquote, comma, comma, equals, dquote, dquote]
      = [([comma, comma], [comma]), ([comma], [])] :=
    parseLabels_pair [comma, equals, dquote, dquote] (by decide) (by decide) (by decide) (by decide)
  have hv : parseLabels [comma, comma, equals, dquote, dquote, comma, comma, comma, equals, dquote, dquote]
      = [([comma, comma], []), ([comma, comma], [])] :=
    parseLabels_pair [comma, comma, equals, dquote, dquote] (by decide) (by decide) (by decide) (by decide)
  have hmade : ∀ {w : LabelVec}, (∀ kv ∈ w, ∀ c ∈ kv.1 ++ kv.2, c = comma) → MadeOf A w :=
    fun hw kv hkv c hc => hw kv hkv c hc ▸ h
  have hiff := hinj.of_parsed hu hv (hmade (by simp)) (hmade (by simp))
  rw [cellKey_pair horder (by decide), cellKey_pair horder (by decide)] at hiff
  exact absurd (hiff.mp (by decide)) (by decide)

theorem not_keyInjective_nul (horder : OrdersStrings order) (h : 0 ∈ A) : ¬ KeyInjective order A := by
  intro hinj
  have hu : parseLabels [0, equals, dquote, dquote, comma, 0, equals, dquote, 0, dquote]
      = [([0], []), ([0], [0])] :=
    parseLabels_pair [0, equals, dquote, 0, dquote] (by decide) (by decide) (by decide) (by decide)
  have hv : parseLabels [0, equals, dquote, 0, dquote, comma, 0, equals, dquote, dquote]
      = [([0], [0]), ([0], [])] :=
    parseLabels_pair [0, equals, dquote, dquote] (by decide) (by decide) (by decide) (by decide)
  have hmade : ∀ {w : LabelVec}, (∀ kv ∈ w, ∀ c ∈ kv.1 ++ kv.2, c = 0) → MadeOf A w :=
    fun hw kv hkv c hc => hw kv hkv c hc ▸ h
  have hiff := hinj.of_parsed hu hv (hmade (by simp)) (hmade (by simp))
  rw [cellKey_pair horder (by decide), cellKey_pair horder (by decide)] at hiff
  exact absurd (hiff.mpr (List.Perm.swap ..)) (by decide)

/-- **Series are told apart exactly without commas and NULs**: for labels made
of a set of bytes the key is injective up to the order of the labels, and every
cell holds one series, if and only if neither byte is in the set. -/
theorem cellKey_separates_iff (horder : OrdersStrings order) :
    KeyInjective order A ∧ KeepsApart order A ↔ comma ∉ A ∧ 0 ∉ A := by
  constructor
  · rintro ⟨hinj, -⟩
    exact ⟨fun h => not_keyInjective_comma horder h hinj, fun h => not_keyInjective_nul horder h hinj⟩
  · rintro ⟨hcomma, hnul⟩
    exact ⟨keyInjective horder hcomma hnul, keepsApart horder hcomma hnul⟩

def orderCstr (v : List (List UInt8)) : List (List UInt8) :=
  (insertionSort (fun s t => cstrKey t < cstrKey s) v).getD v

theorem ordersStrings_orderCstr : OrdersStrings orderCstr := by
  intro v
  obtain ⟨out, hrun, hsort⟩ := insertionSort_stable cstrKey v
  have hrun' : insertionSort (fun s t => cstrKey t < cstrKey s) v = some out := by convert hrun
  rwa [orderCstr, hrun']

/-- Letters and digits alone are safe. -/
theorem cellKey_separates_letters :
    KeyInjective orderCstr {c | 0x30 ≤ c} ∧ KeepsApart orderCstr {c | 0x30 ≤ c} :=
  (cellKey_separates_iff ordersStrings_orderCstr).mpr ⟨by decide, by decide⟩

/-- `a="1,b=2"` and `a="1",b="2"` are one cell. -/
theorem not_keyInjective_bytes : ¬ (KeyInjective orderCstr Set.univ ∧ KeepsApart orderCstr Set.univ) := by
  rintro ⟨hinj, -⟩
  have hu : parseLabels [0x61, equals, dquote, 0x31, comma, 0x62, equals, 0x32, dquote]
      = [([0x61], [0x31, comma, 0x62, equals, 0x32])] := by
    have hnext : nextLabel [0x61, equals, dquote, 0x31, comma, 0x62, equals, 0x32, dquote]
        = some ([0x61], [0x31, comma, 0x62, equals, 0x32], []) := by decide
    rw [parseLabels_of_nextLabel hnext]
    rfl
  have hv : parseLabels [0x61, equals, dquote, 0x31, dquote, comma, 0x62, equals, dquote, 0x32, dquote]
      = [([0x61], [0x31]), ([0x62], [0x32])] :=
    parseLabels_pair [0x62, equals, dquote, 0x32, dquote] (by decide) (by decide) (by decide) (by decide)
  have hiff := hinj.of_parsed hu hv (fun _ _ _ _ => trivial) (fun _ _ _ _ => trivial)
  exact absurd (hiff.mp (by decide)) (by decide)

end Montauk.Tools
