import Montauk.Emit.ExpositionFormat

/-!
# The Prometheus sink

`PrometheusSink`, which the renderers call once for each field. Outside a
collection a call writes its family at once, headers and sample. Inside one
the labelled samples are kept by family and written at the end, each family's
headers in front of its samples; `info_line` is not kept, it writes headers
wherever it is called.

A walk of a renderer (`Walk`) leaves the families `Walk.blocks` says in the
text (`text_walks`).
-/

namespace Montauk.Emit

open Ch

/-! ## The sink -/

/-- `MetricDesc`, with a Prometheus name. A call without one is for the other
sink and does nothing here. -/
structure MetricDesc where
  prom_name : Ident
  help : OneLine
  kind : MetricKind

/-- `emit_header`. -/
def emit_header (name : Ident) (help : OneLine) (kind : MetricKind) : List UInt8 :=
  helpMark ++ (name.bytes ++ 0x20 :: help.bytes) ++ [newline] ++
    (typeMark ++ (name.bytes ++ 0x20 :: kind.bytes) ++ [newline])

namespace PrometheusSink

/-- `PrometheusSink::Family`. -/
structure Family where
  name : Ident
  help : OneLine
  kind : MetricKind
  lines : List (List UInt8)

end PrometheusSink

structure PrometheusSink where
  out : List UInt8
  collection_depth : Int
  pending : List PrometheusSink.Family

/-- What a renderer asks of the sink inside or outside a collection. -/
inductive SinkCall (D : Type) where
  | scalar (d : MetricDesc) (v : MetricValue D)
  | labeled (d : MetricDesc) (labels : List Label) (v : MetricValue D)
  | info_line (prom_name : Ident) (help : OneLine) (labels : List Label)
  | provider (raw_text : List UInt8)
  | raw_comment (lines : List Remark)

/-- A call, or a collection with its entries. -/
inductive Walk (D : Type) where
  | call (c : SinkCall D)
  | collection (entries : List (List (SinkCall D)))

namespace PrometheusSink

def init : PrometheusSink where
  out := []
  collection_depth := 0
  pending := []

/-- `family_for`, and the line kept there. -/
def keep (d : MetricDesc) (line : List UInt8) : List Family → List Family
  | [] => [{ name := d.prom_name, help := d.help, kind := d.kind, lines := [line] }]
  | f :: fs =>
      if f.name = d.prom_name then { f with lines := f.lines ++ [line] } :: fs
      else f :: keep d line fs

/-- `flush_families`. -/
def flush_families (s : PrometheusSink) : PrometheusSink :=
  { s with
    out := s.pending.foldl
      (fun out f => f.lines.foldl (· ++ ·) (out ++ emit_header f.name f.help f.kind)) s.out
    pending := [] }

def collection_begin (s : PrometheusSink) : PrometheusSink :=
  { s with collection_depth := s.collection_depth + 1 }

def collection_end (s : PrometheusSink) : PrometheusSink :=
  let s := { s with collection_depth := s.collection_depth - 1 }
  if s.collection_depth = 0 then s.flush_families else s

section

variable {D : Type} (lib : DoubleText D)

def call (s : PrometheusSink) : SinkCall D → PrometheusSink
  | .scalar d v =>
      { s with out := s.out ++ emit_header d.prom_name d.help d.kind ++
          (d.prom_name.bytes ++ [0x20] ++ v.text lib ++ [newline]) }
  | .labeled d labels v =>
      let line := labeledLine d.prom_name labels ++ v.text lib ++ [newline]
      if 0 < s.collection_depth then { s with pending := keep d line s.pending }
      else { s with out := s.out ++ emit_header d.prom_name d.help d.kind ++ line }
  | .info_line prom_name help labels =>
      { s with out := s.out ++ emit_header prom_name help .gauge ++
          (labeledLine prom_name labels ++ [0x31, newline]) }
  | .provider raw_text =>
      { s with out := s.out ++ raw_text ++
          if raw_text ≠ [] ∧ raw_text.getLast? ≠ some newline then [newline] else [] }
  | .raw_comment lines => { s with out := s.out ++ exposition (lines.map .remark) }

def walk (s : PrometheusSink) : Walk D → PrometheusSink
  | .call c => s.call lib c
  | .collection entries =>
      (entries.foldl (fun s e => e.foldl (call lib) s) s.collection_begin).collection_end

/-- The text of a renderer's walk: `finish`. -/
def text (ws : List (Walk D)) : List UInt8 := (ws.foldl (walk lib) init).flush_families.out

end

end PrometheusSink

/-! ## The families a walk writes -/

section

variable {D : Type} (lib : DoubleText D)

def MetricValue.oneLine (v : MetricValue D) : OneLine where
  bytes := v.text lib
  plain := fun h => absurd (numByte_value lib v _ h) (by decide)

/-- A call that names a family writes it whole. -/
def SinkCall.blocks : SinkCall D → List Block
  | .scalar d v =>
      [.family { name := d.prom_name, help := d.help, kind := d.kind,
                 samples := [([], v.oneLine lib)] }]
  | .labeled d labels v =>
      [.family { name := d.prom_name, help := d.help, kind := d.kind,
                 samples := [(labels, v.oneLine lib)] }]
  | .info_line prom_name help labels =>
      [.family { name := prom_name, help := help, kind := .gauge,
                 samples := [(labels, ⟨[0x31], by decide⟩)] }]
  | .provider _ => []
  | .raw_comment lines => lines.map .remark

/-- A sample goes to its family, the last if it is new. -/
def addSample (d : MetricDesc) (s : List Label × OneLine) : List Family → List Family
  | [] => [{ name := d.prom_name, help := d.help, kind := d.kind, samples := [s] }]
  | f :: fs =>
      if f.name = d.prom_name then { f with samples := f.samples ++ [s] } :: fs
      else f :: addSample d s fs

/-- What has been written in a collection, and what is kept. -/
structure Gather where
  written : List Block
  kept : List Family

def Gather.call (g : Gather) : SinkCall D → Gather
  | .labeled d labels v => { g with kept := addSample d (labels, v.oneLine lib) g.kept }
  | c => { g with written := g.written ++ c.blocks lib }

def gather (cs : List (SinkCall D)) : Gather :=
  cs.foldl (Gather.call lib) { written := [], kept := [] }

def Walk.blocks : Walk D → List Block
  | .call c => c.blocks lib
  | .collection entries =>
      let g := gather lib entries.flatten
      g.written ++ g.kept.map .family

end

def blocksText (bs : List Block) : List UInt8 := exposition (bs.flatMap Block.lines)

@[simp] theorem blocksText_nil : blocksText [] = [] := rfl

@[simp] theorem blocksText_append (bs cs : List Block) :
    blocksText (bs ++ cs) = blocksText bs ++ blocksText cs := by
  simp [blocksText]

theorem blocksText_family (f : Family) :
    blocksText [.family f] = emit_header f.name f.help f.kind ++
      f.samples.flatMap fun s => labeledLine f.name s.1 ++ s.2.bytes ++ [newline] := by
  simp [blocksText, Block.lines, Family.lines, exposition, emit_header, Line.bytes,
    List.flatMap_map]

theorem blocksText_remarks (rs : List Remark) :
    blocksText (rs.map .remark) = exposition (rs.map .remark) := by
  rw [blocksText, List.flatMap_map, List.map_eq_flatMap]
  rfl

/-! ## The sink writes them -/

section

variable {D : Type} {lib : DoubleText D}

def SinkCall.Silent : SinkCall D → Prop
  | .provider raw_text => raw_text = []
  | _ => True

/-- A kept family as the sink keeps it: with its lines in bytes. -/
def Family.kept (f : Family) : PrometheusSink.Family where
  name := f.name
  help := f.help
  kind := f.kind
  lines := f.samples.map fun s => labeledLine f.name s.1 ++ s.2.bytes ++ [newline]

theorem keep_kept (d : MetricDesc) (labels : List Label) (v : MetricValue D) (fs : List Family) :
    PrometheusSink.keep d (labeledLine d.prom_name labels ++ v.text lib ++ [newline])
        (fs.map Family.kept)
      = (addSample d (labels, v.oneLine lib) fs).map Family.kept := by
  induction fs with
  | nil => rfl
  | cons f fs ih =>
    rw [List.map_cons, PrometheusSink.keep, addSample]
    by_cases hf : f.name = d.prom_name
    · rw [if_pos hf, if_pos (show f.kept.name = d.prom_name from hf), List.map_cons]
      simp [Family.kept, hf, MetricValue.oneLine]
    · rw [if_neg hf, if_neg (show ¬ f.kept.name = d.prom_name from hf), List.map_cons, ih]

theorem foldl_lines (ls : List (List UInt8)) (out : List UInt8) :
    ls.foldl (· ++ ·) out = out ++ ls.flatten := by
  induction ls generalizing out with
  | nil => simp
  | cons l ls ih => rw [List.foldl_cons, ih, List.flatten_cons, List.append_assoc]

theorem flush_kept (s : PrometheusSink) (fs : List Family) (h : s.pending = fs.map Family.kept) :
    s.flush_families
      = { s with out := s.out ++ blocksText (fs.map .family), pending := [] } := by
  have hout : ∀ (fs : List Family) (out : List UInt8),
      (fs.map Family.kept).foldl (fun out f =>
        f.lines.foldl (· ++ ·) (out ++ emit_header f.name f.help f.kind)) out
        = out ++ blocksText (fs.map .family) := by
    intro fs
    induction fs with
    | nil => simp
    | cons f fs ih =>
      intro out
      have hsplit : (f :: fs).map Block.family = [.family f] ++ fs.map .family := rfl
      rw [List.map_cons, List.foldl_cons, ih, foldl_lines, hsplit, blocksText_append,
        blocksText_family]
      simp [Family.kept, List.flatMap, List.append_assoc]
  unfold PrometheusSink.flush_families
  rw [h, hout]

theorem call_outside {s : PrometheusSink} (hdepth : s.collection_depth = 0) {c : SinkCall D}
    (hc : c.Silent) : s.call lib c = { s with out := s.out ++ blocksText (c.blocks lib) } := by
  cases c with
  | scalar d v =>
    simp [PrometheusSink.call, SinkCall.blocks, blocksText_family, MetricValue.oneLine, labeledLine]
  | labeled d labels v =>
    simp [PrometheusSink.call, hdepth, SinkCall.blocks, blocksText_family, MetricValue.oneLine]
  | info_line n h ls => simp [PrometheusSink.call, SinkCall.blocks, blocksText_family]
  | provider raw =>
    cases (show raw = [] from hc)
    simp [PrometheusSink.call, SinkCall.blocks]
  | raw_comment rs => simp [PrometheusSink.call, SinkCall.blocks, blocksText_remarks]

/-- A sink in a collection, against what has been gathered there. -/
structure Gathers (s₀ : PrometheusSink) (s : PrometheusSink) (g : Gather) : Prop where
  out : s.out = s₀.out ++ blocksText g.written
  depth : s.collection_depth = 1
  pending : s.pending = g.kept.map Family.kept

theorem Gathers.call {s₀ s : PrometheusSink} {g : Gather} (h : Gathers s₀ s g) {c : SinkCall D}
    (hc : c.Silent) : Gathers s₀ (s.call lib c) (g.call lib c) := by
  obtain ⟨hout, hdepth, hpending⟩ := h
  cases c with
  | labeled d labels v =>
    refine ⟨?_, ?_, ?_⟩
    · simp [PrometheusSink.call, hdepth, Gather.call, hout]
    · simp [PrometheusSink.call, hdepth]
    · simp only [PrometheusSink.call, hdepth, Int.one_pos, if_true, Gather.call, hpending]
      exact keep_kept d labels v g.kept
  | scalar d v =>
    refine ⟨?_, hdepth, hpending⟩
    simp [PrometheusSink.call, Gather.call, hout, SinkCall.blocks, blocksText_family,
      MetricValue.oneLine, labeledLine]
  | info_line n h ls =>
    refine ⟨?_, hdepth, hpending⟩
    simp [PrometheusSink.call, Gather.call, hout, SinkCall.blocks, blocksText_family]
  | provider raw =>
    cases (show raw = [] from hc)
    refine ⟨?_, hdepth, hpending⟩
    simp [PrometheusSink.call, Gather.call, hout, SinkCall.blocks]
  | raw_comment rs =>
    refine ⟨?_, hdepth, hpending⟩
    simp [PrometheusSink.call, Gather.call, hout, SinkCall.blocks, blocksText_remarks]

theorem Gathers.calls {s₀ s : PrometheusSink} {g : Gather} (h : Gathers s₀ s g)
    (lib : DoubleText D) {cs : List (SinkCall D)} (hcs : ∀ c ∈ cs, c.Silent) :
    Gathers s₀ (cs.foldl (PrometheusSink.call lib) s) (cs.foldl (Gather.call lib) g) := by
  induction cs generalizing s g with
  | nil => exact h
  | cons c cs ih =>
    obtain ⟨hc, hcs⟩ := List.forall_mem_cons.mp hcs
    exact ih (h.call hc) hcs

/-- No provider in the walk has sent anything. -/
def Walk.Silent : Walk D → Prop
  | .call c => c.Silent
  | .collection entries => ∀ c ∈ entries.flatten, c.Silent

theorem walk_blocks {s : PrometheusSink} (hdepth : s.collection_depth = 0) (hp : s.pending = [])
    {w : Walk D} (hw : w.Silent) :
    s.walk lib w = { s with out := s.out ++ blocksText (w.blocks lib) } := by
  cases w with
  | call c => exact call_outside hdepth hw
  | collection entries =>
    have hbegin : Gathers s s.collection_begin { written := [], kept := [] } := by
      refine ⟨by simp [PrometheusSink.collection_begin], ?_, ?_⟩
      · simp [PrometheusSink.collection_begin, hdepth]
      · simp [PrometheusSink.collection_begin, hp]
    obtain ⟨hout, hone, hpending⟩ := hbegin.calls lib hw
    rw [PrometheusSink.walk, ← List.foldl_flatten]
    generalize entries.flatten.foldl (PrometheusSink.call lib) s.collection_begin = t at *
    rw [PrometheusSink.collection_end]
    simp only [hone, Int.sub_self, if_true]
    rw [flush_kept { t with collection_depth := 0 } _ hpending, hout, List.append_assoc,
      ← blocksText_append, ← hdepth]
    cases s
    cases hp
    rfl

theorem text_walks {ws : List (Walk D)} (hws : ∀ w ∈ ws, w.Silent) :
    PrometheusSink.text lib ws = blocksText (ws.flatMap (Walk.blocks lib)) := by
  have hrun : ∀ (ws : List (Walk D)) (s : PrometheusSink), s.collection_depth = 0 →
      s.pending = [] → (∀ w ∈ ws, w.Silent) →
      ws.foldl (PrometheusSink.walk lib) s
        = { s with out := s.out ++ blocksText (ws.flatMap (Walk.blocks lib)) } := by
    intro ws
    induction ws with
    | nil =>
      intro s _ _ _
      simp
    | cons w ws ih =>
      intro s hdepth hp hws
      obtain ⟨hw, hws⟩ := List.forall_mem_cons.mp hws
      rw [List.foldl_cons, walk_blocks hdepth hp hw, ih]
      · simp
      · exact hdepth
      · exact hp
      · exact hws
  rw [PrometheusSink.text, hrun ws _ rfl rfl hws,
    flush_kept _ [] (by simp [PrometheusSink.init])]
  simp [PrometheusSink.init]

end

end Montauk.Emit
