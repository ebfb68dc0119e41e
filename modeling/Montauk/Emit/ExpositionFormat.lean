import Mathlib.Data.List.Triplewise
import Montauk.Emit.PrometheusLine
import Montauk.Machine.Scan

/-!
# The exposition format

What a Prometheus text is, apart from any program that writes one: its lines
(`# HELP`, `# TYPE`, samples and other comments), and the rule that a family's
headers stand once and in front, that its samples stand together, and that no
two of them have the same name and the same labels. A text is read as lines in
one way only (`exposition_injective`), so the rule is one about the text.

A writer that emits whole families (`Block`) keeps the rule if and only if no
family is emitted twice and no family repeats a label set
(`wellGrouped_blocks`).
-/

namespace Montauk.Emit

open Json (utf8)
open Ch Scan

/-! ## Lines -/

/-- A text that is part of one line. -/
structure OneLine where
  bytes : List UInt8
  plain : newline ∉ bytes
deriving DecidableEq

/-- `MetricKind`. -/
inductive MetricKind where
  | gauge
  | counter
deriving DecidableEq

/-- The type as `# TYPE` spells it: `gauge` or `counter`. -/
def MetricKind.bytes : MetricKind → List UInt8
  | .gauge => [0x67, 0x61, 0x75, 0x67, 0x65]
  | .counter => [0x63, 0x6f, 0x75, 0x6e, 0x74, 0x65, 0x72]

def sharp : UInt8 := 0x23

/-- `# HELP `. -/
def helpMark : List UInt8 := [sharp, 0x20, 0x48, 0x45, 0x4c, 0x50, 0x20]

/-- `# TYPE `. -/
def typeMark : List UInt8 := [sharp, 0x20, 0x54, 0x59, 0x50, 0x45, 0x20]

/-- A line that the format has no use for: an empty one, or a comment that is
no header. -/
structure Remark where
  bytes : List UInt8
  plain : newline ∉ bytes
  idle : bytes = [] ∨
    bytes.head? = some sharp ∧ ¬ helpMark <+: bytes ∧ ¬ typeMark <+: bytes

inductive Line where
  | help (name : Ident) (text : OneLine)
  | type (name : Ident) (kind : MetricKind)
  | sample (name : Ident) (labels : List Label) (value : OneLine)
  | remark (text : Remark)

def Line.bytes : Line → List UInt8
  | .help name text => helpMark ++ (name.bytes ++ 0x20 :: text.bytes)
  | .type name kind => typeMark ++ (name.bytes ++ 0x20 :: kind.bytes)
  | .sample name labels value => labeledLine name labels ++ value.bytes
  | .remark text => text.bytes

def exposition (ls : List Line) : List UInt8 := ls.flatMap fun l => l.bytes ++ [newline]

@[simp] theorem exposition_nil : exposition [] = [] := rfl

@[simp] theorem exposition_cons (l : Line) (ls : List Line) :
    exposition (l :: ls) = l.bytes ++ newline :: exposition ls := by
  simp [exposition]

@[simp] theorem exposition_append (ls ms : List Line) :
    exposition (ls ++ ms) = exposition ls ++ exposition ms := List.flatMap_append

/-! ## A text has one list of lines -/

theorem newline_notMem_bytes (l : Line) : newline ∉ l.bytes := by
  have hname : ∀ i : Ident, newline ∉ i.bytes := notMem_ident (by decide)
  cases l with
  | help name text =>
    have htext := text.plain
    have hmark : newline ∉ helpMark := by decide
    simp [Line.bytes, hmark, hname, htext, newline]
  | type name kind =>
    have hkind : newline ∉ kind.bytes := by
      cases kind <;> decide
    have hmark : newline ∉ typeMark := by decide
    simp [Line.bytes, hmark, hname, hkind, newline]
  | sample name labels value =>
    have hline := newline_notMem_labeledLine name labels
    have hvalue := value.plain
    simp [Line.bytes, hline, hvalue]
  | remark text => exact text.plain

theorem head_labeledLine (name : Ident) (labels : List Label) (s : List UInt8) :
    ∃ c, (labeledLine name labels ++ s).head? = some c ∧ identByte c = true := by
  obtain ⟨c, rest, hname⟩ := List.exists_cons_of_ne_nil name.nonempty
  have hc : identByte c = true := name.valid c (hname ▸ List.mem_cons_self)
  refine ⟨c, ?_, hc⟩
  unfold labeledLine
  split <;> rw [hname] <;> rfl

theorem head_sample (name : Ident) (labels : List Label) (value : OneLine) :
    (Line.sample name labels value).bytes ≠ [] ∧
      (Line.sample name labels value).bytes.head? ≠ some sharp := by
  obtain ⟨c, hhead, hc⟩ := head_labeledLine name labels value.bytes
  constructor
  · intro hnil
    rw [Line.bytes] at hnil
    rw [hnil] at hhead
    cases hhead
  · intro hsharp
    rw [Line.bytes, hhead] at hsharp
    cases hsharp
    revert hc
    decide

theorem Remark.not_help (r : Remark) (s : List UInt8) : r.bytes ≠ helpMark ++ s := by
  intro h
  rcases r.idle with hnil | ⟨-, hhelp, -⟩
  · rw [hnil] at h
    cases h
  · exact hhelp (h ▸ List.prefix_append _ _)

theorem Remark.not_type (r : Remark) (s : List UInt8) : r.bytes ≠ typeMark ++ s := by
  intro h
  rcases r.idle with hnil | ⟨-, -, htype⟩
  · rw [hnil] at h
    cases h
  · exact htype (h ▸ List.prefix_append _ _)

theorem Remark.not_sample (r : Remark) (name : Ident) (labels : List Label) (value : OneLine) :
    r.bytes ≠ (Line.sample name labels value).bytes := by
  intro h
  obtain ⟨hne, hhead⟩ := head_sample name labels value
  rcases r.idle with hnil | ⟨hsharp, -⟩
  · exact hne (h.symm.trans hnil)
  · exact hhead (h ▸ hsharp)

theorem OneLine.ext_bytes {a b : OneLine} (h : a.bytes = b.bytes) : a = b := by
  cases a
  cases b
  cases h
  rfl

theorem Remark.ext_bytes {a b : Remark} (h : a.bytes = b.bytes) : a = b := by
  cases a
  cases b
  cases h
  rfl

theorem MetricKind.bytes_injective {a b : MetricKind} (h : a.bytes = b.bytes) : a = b := by
  cases a <;> cases b <;> first | rfl | exact absurd h (by decide)

/-- What kind of line it is, and what stands in it, can be read from it. -/
theorem line_injective {l m : Line} (h : l.bytes = m.bytes) : l = m := by
  have hblank : identByte 0x20 = false := by decide
  have hsharp : ∀ s t : List UInt8, (sharp :: s ++ t).head? = some sharp := fun _ _ => rfl
  have hmarks : ∀ s t, helpMark ++ s ≠ typeMark ++ t := by
    intro s t h
    simp [helpMark, typeMark] at h
  cases l with
  | help name text =>
    cases m with
    | help name' text' =>
      obtain ⟨rfl, -, htext⟩ := ident_append_inj hblank hblank (List.append_cancel_left h)
      rw [OneLine.ext_bytes htext]
    | type name' kind =>
      exact absurd h (hmarks _ _)
    | sample name' labels value =>
      exact absurd (h ▸ hsharp _ _) (head_sample name' labels value).2
    | remark text' => exact absurd h.symm (text'.not_help _)
  | type name kind =>
    cases m with
    | help name' text =>
      exact absurd h.symm (hmarks _ _)
    | type name' kind' =>
      obtain ⟨rfl, -, hkind⟩ := ident_append_inj hblank hblank (List.append_cancel_left h)
      rw [MetricKind.bytes_injective hkind]
    | sample name' labels value =>
      exact absurd (h ▸ hsharp _ _) (head_sample name' labels value).2
    | remark text => exact absurd h.symm (text.not_type _)
  | sample name labels value =>
    cases m with
    | help name' text =>
      exact absurd (h ▸ hsharp _ _) (head_sample name labels value).2
    | type name' kind =>
      exact absurd (h ▸ hsharp _ _) (head_sample name labels value).2
    | sample name' labels' value' =>
      obtain ⟨rfl, rfl, hvalue⟩ := labeledLine_append_inj h
      rw [OneLine.ext_bytes hvalue]
    | remark text => exact absurd h.symm (text.not_sample name labels value)
  | remark text =>
    cases m with
    | help name text' => exact absurd h (text.not_help _)
    | type name kind => exact absurd h (text.not_type _)
    | sample name labels value => exact absurd h (text.not_sample name labels value)
    | remark text' => rw [Remark.ext_bytes h]

theorem exposition_injective {ls ms : List Line} (h : exposition ls = exposition ms) :
    ls = ms := by
  induction ls generalizing ms with
  | nil =>
    cases ms with
    | nil => rfl
    | cons m ms =>
      rw [exposition_nil, exposition_cons] at h
      exact absurd h.symm (by simp)
  | cons l ls ih =>
    cases ms with
    | nil =>
      rw [exposition_nil, exposition_cons] at h
      exact absurd h (by simp)
    | cons m ms =>
      rw [exposition_cons, exposition_cons] at h
      have hcut := cutAt_append (newline_notMem_bytes l) (exposition ls)
      rw [h, cutAt_append (newline_notMem_bytes m)] at hcut
      obtain ⟨hline, hrest⟩ := Prod.mk.inj (Option.some.inj hcut)
      rw [line_injective hline.symm, ih hrest.symm]

/-! ## The rule -/

/-- The family of a `# HELP` line. -/
def Line.help? : Line → Option Ident
  | .help name _ => some name
  | _ => none

/-- The family of a `# TYPE` line. -/
def Line.type? : Line → Option Ident
  | .type name _ => some name
  | _ => none

def Line.sample? : Line → Option Ident
  | .sample name _ _ => some name
  | _ => none

def SameLabels (ls ms : List Label) : Prop := ∀ l, l ∈ ls ↔ l ∈ ms

/-- Two samples of one name and one label set. -/
def Line.SameSeries : Line → Line → Prop
  | .sample name ls _, .sample name' ms _ => name = name' ∧ SameLabels ls ms
  | _, _ => False

/-- Each family has at most one `# HELP` and at most one `# TYPE`, which
precede its samples; its samples are contiguous; and no two samples have the
same name and label set. -/
structure WellGrouped (ls : List Line) : Prop where
  help_once : ls.Pairwise fun x y => ∀ n, x.help? = some n → y.help? ≠ some n
  type_once : ls.Pairwise fun x y => ∀ n, x.type? = some n → y.type? ≠ some n
  header_first : ls.Pairwise fun x y =>
    ∀ n, x.sample? = some n → y.help? ≠ some n ∧ y.type? ≠ some n
  contiguous : ls.Triplewise fun x y z =>
    ∀ n, x.sample? = some n → z.sample? = some n → y.sample? = some n
  distinct : ls.Pairwise fun x y => ¬ x.SameSeries y

def ValidExposition (s : List UInt8) : Prop := ∃ ls, exposition ls = s ∧ WellGrouped ls

theorem validExposition_iff (ls : List Line) :
    ValidExposition (exposition ls) ↔ WellGrouped ls := by
  constructor
  · rintro ⟨ms, hms, hwell⟩
    rwa [← exposition_injective hms]
  · exact fun h => ⟨ls, rfl, h⟩

/-! ## Whole families -/

def Line.family? : Line → Option Ident
  | .help name _ => some name
  | .type name _ => some name
  | .sample name _ _ => some name
  | .remark _ => none

/-- A family as it is written: its headers and its samples. -/
structure Family where
  name : Ident
  help : OneLine
  kind : MetricKind
  samples : List (List Label × OneLine)

def Family.lines (f : Family) : List Line :=
  .help f.name f.help :: .type f.name f.kind :: f.samples.map fun s => .sample f.name s.1 s.2

/-- No label set stands for two samples. -/
def Family.Distinct (f : Family) : Prop :=
  f.samples.Pairwise fun s t => ¬ SameLabels s.1 t.1

/-- What a writer emits at a time. -/
inductive Block where
  | family (f : Family)
  | remark (r : Remark)

def Block.lines : Block → List Line
  | .family f => f.lines
  | .remark r => [.remark r]

def Block.name? : Block → Option Ident
  | .family f => some f.name
  | .remark _ => none

def Block.Distinct : Block → Prop
  | .family f => f.Distinct
  | .remark _ => True

/-- No family twice, and in each family no label set twice. -/
structure Apart (bs : List Block) : Prop where
  names : (bs.filterMap Block.name?).Nodup
  samples : ∀ b ∈ bs, b.Distinct

theorem family_of_mem_lines {b : Block} {l : Line} (h : l ∈ b.lines) : l.family? = b.name? := by
  cases b with
  | remark r =>
    obtain rfl := List.mem_singleton.mp h
    rfl
  | family f =>
    rcases List.mem_cons.mp h with rfl | h
    · rfl
    rcases List.mem_cons.mp h with rfl | h
    · rfl
    obtain ⟨s, -, rfl⟩ := List.mem_map.mp h
    rfl

theorem names_pairwise {bs : List Block} :
    (bs.filterMap Block.name?).Nodup ↔
      bs.Pairwise fun a b => ∀ n, a.name? = some n → b.name? ≠ some n := by
  rw [List.Nodup, List.pairwise_filterMap]
  constructor
  · intro h
    refine h.imp ?_
    intro a b hab n ha hb
    exact hab n ha n hb rfl
  · intro h
    refine h.imp ?_
    rintro a b hab n ha m hb rfl
    exact hab n ha hb

/-- A rule that asks nothing of two families has to be seen to in each block
only. -/
theorem pairwise_lines {R : Line → Line → Prop} {bs : List Block}
    (hR : ∀ x y : Line, (∀ n, x.family? = some n → y.family? ≠ some n) → R x y)
    (hnames : (bs.filterMap Block.name?).Nodup) (hin : ∀ b ∈ bs, b.lines.Pairwise R) :
    (bs.flatMap Block.lines).Pairwise R := by
  refine List.pairwise_flatMap.mpr ⟨hin, (names_pairwise.mp hnames).imp ?_⟩
  intro a b hab x hx y hy
  refine hR x y ?_
  rw [family_of_mem_lines hx, family_of_mem_lines hy]
  exact hab

theorem family_of_help {l : Line} {n : Ident} (h : l.help? = some n) : l.family? = some n := by
  cases l <;> first | exact h | cases h

theorem family_of_type {l : Line} {n : Ident} (h : l.type? = some n) : l.family? = some n := by
  cases l <;> first | exact h | cases h

theorem family_of_sample {l : Line} {n : Ident} (h : l.sample? = some n) :
    l.family? = some n := by
  cases l <;> first | exact h | cases h

theorem family_of_sameSeries {x y : Line} (h : x.SameSeries y) :
    ∃ n, x.family? = some n ∧ y.family? = some n := by
  cases x with
  | sample name ls value =>
    cases y with
    | sample name' ms value' => exact ⟨name, rfl, congrArg some h.1.symm⟩
    | _ => cases h
  | _ => cases h

theorem pairwise_family {R : Line → Line → Prop} {f : Family}
    (hheads : R (.help f.name f.help) (.type f.name f.kind))
    (hhelp : ∀ s : List Label × OneLine, R (.help f.name f.help) (.sample f.name s.1 s.2))
    (htype : ∀ s : List Label × OneLine, R (.type f.name f.kind) (.sample f.name s.1 s.2))
    (hsamples : f.samples.Pairwise fun s t =>
      R (.sample f.name s.1 s.2) (.sample f.name t.1 t.2)) : f.lines.Pairwise R := by
  refine List.pairwise_cons.mpr ⟨?_, List.pairwise_cons.mpr ⟨?_, List.pairwise_map.mpr hsamples⟩⟩
  · intro l hl
    rcases List.mem_cons.mp hl with rfl | hl
    · exact hheads
    · obtain ⟨s, -, rfl⟩ := List.mem_map.mp hl
      exact hhelp s
  · intro l hl
    obtain ⟨s, -, rfl⟩ := List.mem_map.mp hl
    exact htype s

theorem pairwise_block {R : Line → Line → Prop} {b : Block}
    (h : ∀ f, b = .family f → f.lines.Pairwise R) : b.lines.Pairwise R := by
  cases b with
  | family f => exact h f rfl
  | remark r => exact List.pairwise_singleton R _

/-- Between two samples of a family that is written once stands no other
line. -/
theorem contiguous_lines {bs : List Block} (hnames : (bs.filterMap Block.name?).Nodup) :
    (bs.flatMap Block.lines).Triplewise fun x y z =>
      ∀ n, x.sample? = some n → z.sample? = some n → y.sample? = some n := by
  induction bs with
  | nil => exact .nil
  | cons b bs ih =>
    rw [names_pairwise] at hnames
    obtain ⟨hb, hbs⟩ := List.pairwise_cons.mp hnames
    -- a sample of this block and one of a later block are of two families
    have hcross : ∀ x ∈ b.lines, ∀ z ∈ bs.flatMap Block.lines, ∀ n,
        x.sample? = some n → z.sample? ≠ some n := by
      intro x hx z hz n hxn hzn
      obtain ⟨c, hc, hz⟩ := List.mem_flatMap.mp hz
      refine hb c hc n ?_ ?_
      · rw [← family_of_mem_lines hx, family_of_sample hxn]
      · rw [← family_of_mem_lines hz, family_of_sample hzn]
    rw [List.flatMap_cons, List.triplewise_append]
    refine ⟨?_, ih (names_pairwise.mpr hbs), ?_, ?_⟩
    · cases b with
      | remark r => exact List.triplewise_singleton _ _
      | family f =>
        have hsamples : ∀ l ∈ f.samples.map (fun s => Line.sample f.name s.1 s.2),
            l.sample? = some f.name := by
          intro l hl
          obtain ⟨s, -, rfl⟩ := List.mem_map.mp hl
          rfl
        refine .cons ?_ (.cons ?_ ?_)
        · exact List.pairwise_of_forall_mem_list fun y _ z _ n hx => by cases hx
        · exact List.pairwise_of_forall_mem_list fun y _ z _ n hx => by cases hx
        · refine List.triplewise_iff_getElem.mpr ?_
          intro i j k hij hjk hk n hx hz
          have hi := hsamples _ (List.getElem_mem (by omega : i < _))
          rw [hx] at hi
          obtain rfl := Option.some.inj hi
          exact hsamples _ (List.getElem_mem (by omega))
    · intro x hx
      refine List.pairwise_of_forall_mem_list ?_
      intro y _ z hz n hxn hzn
      exact absurd hzn (hcross x hx z hz n hxn)
    · intro z hz
      refine List.pairwise_of_forall_mem_list ?_
      intro x hx y _ n hxn hzn
      exact absurd hzn (hcross x hx z hz n hxn)

/-- A text of whole families is well grouped if and only if each family is
written once and repeats no label set. -/
theorem wellGrouped_blocks (bs : List Block) :
    WellGrouped (bs.flatMap Block.lines) ↔ Apart bs := by
  constructor
  · intro h
    constructor
    · refine names_pairwise.mpr ((List.pairwise_flatMap.mp h.help_once).2.imp ?_)
      intro a b hab n ha hb
      cases a with
      | remark r => cases ha
      | family f =>
        cases b with
        | remark r => cases hb
        | family g =>
          exact hab _ List.mem_cons_self _ List.mem_cons_self n ha hb
    · intro b hb
      cases b with
      | remark r => trivial
      | family f =>
        have hlines : f.lines.Pairwise fun x y => ¬ x.SameSeries y :=
          (List.pairwise_flatMap.mp h.distinct).1 _ hb
        have hsamples := List.pairwise_map.mp
          (List.pairwise_cons.mp (List.pairwise_cons.mp hlines).2).2
        exact hsamples.imp fun hne hsame => hne ⟨rfl, hsame⟩
  · rintro ⟨hnames, hsamples⟩
    constructor
    · refine pairwise_lines ?_ hnames fun b _ => pairwise_block fun f _ => ?_
      · intro x y hxy n hx hy
        exact hxy n (family_of_help hx) (family_of_help hy)
      · exact pairwise_family (by rintro n - ⟨⟩) (by rintro s n - ⟨⟩) (by rintro s n ⟨⟩)
          (List.pairwise_of_forall_mem_list fun _ _ _ _ n hn => by cases hn)
    · refine pairwise_lines ?_ hnames fun b _ => pairwise_block fun f _ => ?_
      · intro x y hxy n hx hy
        exact hxy n (family_of_type hx) (family_of_type hy)
      · exact pairwise_family (by rintro n ⟨⟩) (by rintro s n ⟨⟩) (by rintro s n - ⟨⟩)
          (List.pairwise_of_forall_mem_list fun _ _ _ _ n hn => by cases hn)
    · refine pairwise_lines ?_ hnames fun b _ => pairwise_block fun f _ => ?_
      · intro x y hxy n hx
        exact ⟨fun hy => hxy n (family_of_sample hx) (family_of_help hy),
          fun hy => hxy n (family_of_sample hx) (family_of_type hy)⟩
      · refine pairwise_family (by rintro n ⟨⟩) (by rintro s n ⟨⟩) (by rintro s n ⟨⟩) ?_
        exact List.pairwise_of_forall_mem_list fun _ _ _ _ n _ => ⟨by rintro ⟨⟩, by rintro ⟨⟩⟩
    · exact contiguous_lines hnames
    · refine pairwise_lines ?_ hnames fun b hb => pairwise_block ?_
      · intro x y hxy hsame
        obtain ⟨n, hx, hy⟩ := family_of_sameSeries hsame
        exact hxy n hx hy
      · rintro f rfl
        refine pairwise_family (by rintro ⟨⟩) (by rintro s ⟨⟩) (by rintro s ⟨⟩) ?_
        exact List.Pairwise.imp (fun hne hsame => hne hsame.2) (hsamples _ hb)

end Montauk.Emit
