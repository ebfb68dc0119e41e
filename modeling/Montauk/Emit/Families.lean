import Montauk.Emit.PrometheusSink

/-!
# The families of a walk

What a renderer can write and when its families are apart, piece by piece:
`Covers lib ns ws good` says that the walk `ws` writes families named in `ns`
only, and that they are apart exactly if `good`. Scalars are always apart
(`Covers.scalars`), and so are the families of a collection of labelled rows
if no two rows have the same key (`Covers.rows`), in whatever order the rows
first name them; a collection of `info_line`s is apart only as long as it has
one row at most (`Covers.infos`).
-/

namespace Montauk.Emit

open Ch

/-! ## Blocks apart -/

def blockNames (bs : List Block) : List Ident := bs.filterMap Block.name?

theorem apart_append (bs cs : List Block) :
    Apart (bs ++ cs) ↔ Apart bs ∧ Apart cs ∧ ∀ n ∈ blockNames bs, n ∉ blockNames cs := by
  have hnames : (bs ++ cs).filterMap Block.name? = blockNames bs ++ blockNames cs :=
    List.filterMap_append
  constructor
  · rintro ⟨hn, hs⟩
    rw [hnames] at hn
    obtain ⟨hb, hc, hdis⟩ := List.nodup_append.mp hn
    obtain ⟨hsb, hsc⟩ := List.forall_mem_append.mp hs
    exact ⟨⟨hb, hsb⟩, ⟨hc, hsc⟩, fun n hn hm => hdis n hn n hm rfl⟩
  · rintro ⟨⟨hb, hsb⟩, ⟨hc, hsc⟩, hdis⟩
    refine ⟨?_, List.forall_mem_append.mpr ⟨hsb, hsc⟩⟩
    rw [hnames]
    refine List.nodup_append.mpr ⟨hb, hc, ?_⟩
    rintro n hn m hm rfl
    exact hdis n hn hm

/-! ## Labels -/

/-- Labels whose keys are known and different are determined by their set. -/
theorem eq_of_sameLabels {ls ms ls' ms' : List Label} (hpre : ls <+: ls') (hpre' : ms <+: ms')
    (hkeys : ls.map Label.key = ms.map Label.key) (hnd : (ms'.map Label.key).Nodup)
    (h : SameLabels ls' ms') : ls = ms := by
  have hlen : ls.length = ms.length := by
    rw [← List.length_map Label.key, hkeys, List.length_map]
  refine List.ext_getElem hlen ?_
  intro i hi hj
  have hkey : ls[i].key = ms[i].key := by
    have := congrArg (fun ks => ks[i]?) hkeys
    simpa [hi, hj] using this
  have hmem : ls[i] ∈ ms' := (h _).mp (hpre.subset (List.getElem_mem hi))
  have hmem' : ms[i] ∈ ms' := hpre'.subset (List.getElem_mem hj)
  exact List.inj_on_of_nodup_map hnd hmem hmem' hkey

/-! ## What a collection keeps -/

section

variable {D : Type} {lib : DoubleText D}

def SinkCall.kept? : SinkCall D → Option Ident
  | .labeled d _ _ => some d.prom_name
  | _ => none

/-- What a call adds to the family `n`. -/
def SinkCall.sampleOf (lib : DoubleText D) (n : Ident) : SinkCall D → Option (List Label × OneLine)
  | .labeled d labels v => if d.prom_name = n then some (labels, v.oneLine lib) else none
  | _ => none

/-- What a call in a collection writes at once. -/
def SinkCall.written (lib : DoubleText D) : SinkCall D → List Block
  | .labeled _ _ _ => []
  | c => c.blocks lib

theorem names_addSample (d : MetricDesc) (s : List Label × OneLine) (fs : List Family) :
    (addSample d s fs).map Family.name
      = if d.prom_name ∈ fs.map Family.name then fs.map Family.name
        else fs.map Family.name ++ [d.prom_name] := by
  induction fs with
  | nil => rfl
  | cons f fs ih =>
    rw [addSample]
    by_cases hf : f.name = d.prom_name
    · rw [if_pos hf]
      simp [hf]
    · rw [if_neg hf, List.map_cons, ih]
      by_cases hfs : d.prom_name ∈ fs.map Family.name
      · have hin : d.prom_name ∈ (f :: fs).map Family.name := List.mem_cons_of_mem _ hfs
        rw [if_pos hfs, if_pos hin, List.map_cons]
      · have hne : d.prom_name ∉ (f :: fs).map Family.name := by
          rw [List.map_cons, List.mem_cons, not_or]
          exact ⟨Ne.symm hf, hfs⟩
        rw [if_neg hfs, if_neg hne, List.map_cons, List.cons_append]

/-- A family of another name is what it was; the one of this name has the
sample behind what it had. -/
theorem mem_addSample {d : MetricDesc} {s : List Label × OneLine} {fs : List Family}
    (hnd : (fs.map Family.name).Nodup) {f : Family} (h : f ∈ addSample d s fs) :
    (f ∈ fs ∧ f.name ≠ d.prom_name) ∨
      (f.name = d.prom_name ∧ ((∃ g ∈ fs, g.name = d.prom_name ∧ f.samples = g.samples ++ [s]) ∨
        (d.prom_name ∉ fs.map Family.name ∧ f.samples = [s]))) := by
  induction fs with
  | nil =>
    obtain rfl := List.mem_singleton.mp h
    exact .inr ⟨rfl, .inr ⟨List.not_mem_nil, rfl⟩⟩
  | cons g fs ih =>
    rw [addSample] at h
    obtain ⟨hg, hfs⟩ := List.nodup_cons.mp hnd
    by_cases hgd : g.name = d.prom_name
    · rw [if_pos hgd] at h
      rcases List.mem_cons.mp h with rfl | h
      · exact .inr ⟨hgd, .inl ⟨g, List.mem_cons_self, hgd, rfl⟩⟩
      · refine .inl ⟨List.mem_cons_of_mem _ h, ?_⟩
        intro hfd
        exact hg (hgd.trans hfd.symm ▸ List.mem_map_of_mem h)
    · rw [if_neg hgd] at h
      rcases List.mem_cons.mp h with rfl | h
      · exact .inl ⟨List.mem_cons_self, hgd⟩
      · rcases ih hfs h with ⟨hf, hne⟩ | ⟨hf, ⟨e, he, hed, hse⟩ | ⟨hnew, hse⟩⟩
        · exact .inl ⟨List.mem_cons_of_mem _ hf, hne⟩
        · exact .inr ⟨hf, .inl ⟨e, List.mem_cons_of_mem _ he, hed, hse⟩⟩
        · refine .inr ⟨hf, .inr ⟨?_, hse⟩⟩
          rw [List.map_cons, List.mem_cons, not_or]
          exact ⟨Ne.symm hgd, hnew⟩

theorem sampleOf_labeled {d : MetricDesc} {labels : List Label} {v : MetricValue D} {n : Ident}
    {s : List Label × OneLine} (h : (SinkCall.labeled d labels v).sampleOf lib n = some s) :
    d.prom_name = n ∧ s = (labels, v.oneLine lib) := by
  obtain ⟨hd, hs⟩ := Option.ite_none_right_eq_some.mp h
  exact ⟨hd, (Option.some.inj hs).symm⟩

/-- Families against the calls they were kept from: one for each name, with
that name's samples in their order. -/
structure Kept (lib : DoubleText D) (cs : List (SinkCall D)) (fs : List Family) : Prop where
  nodup : (fs.map Family.name).Nodup
  names : ∀ n, n ∈ fs.map Family.name ↔ n ∈ cs.filterMap SinkCall.kept?
  samples : ∀ f ∈ fs, f.samples = cs.filterMap (SinkCall.sampleOf lib f.name)

theorem sampleOf_eq_nil {cs : List (SinkCall D)} {n : Ident} (h : n ∉ cs.filterMap SinkCall.kept?) :
    cs.filterMap (SinkCall.sampleOf lib n) = [] := by
  refine List.filterMap_eq_nil_iff.mpr ?_
  intro c hc
  cases c with
  | labeled d labels v =>
    have hne : d.prom_name ≠ n := by
      rintro rfl
      exact h (List.mem_filterMap.mpr ⟨_, hc, rfl⟩)
    exact if_neg hne
  | _ => rfl

theorem Kept.call {cs : List (SinkCall D)} {g : Gather} (h : Kept lib cs g.kept) (c : SinkCall D) :
    Kept lib (cs ++ [c]) (g.call lib c).kept := by
  obtain ⟨hnd, hnames, hsamples⟩ := h
  cases c with
  | labeled d labels v =>
    refine ⟨?_, ?_, ?_⟩
    · rw [Gather.call, names_addSample]
      split
      · exact hnd
      · rename_i hnew
        refine List.nodup_append.mpr ⟨hnd, List.nodup_singleton _, ?_⟩
        rintro n hn m hm rfl
        obtain rfl := List.mem_singleton.mp hm
        exact hnew hn
    · intro n
      rw [Gather.call, names_addSample, List.filterMap_append, List.mem_append, ← hnames n]
      split
      · rename_i hold
        constructor
        · exact .inl
        · rintro (hn | hn)
          · exact hn
          · obtain rfl := List.mem_singleton.mp hn
            exact hold
      · exact List.mem_append
    · intro f hf
      rw [List.filterMap_append]
      rcases mem_addSample hnd hf with ⟨hmem, hne⟩ | ⟨hname, ⟨e, he, hed, hse⟩ | ⟨hnew, hse⟩⟩
      · rw [hsamples f hmem]
        simp [SinkCall.sampleOf, Ne.symm hne]
      · rw [hse, hsamples e he, hed, hname]
        simp [SinkCall.sampleOf]
      · rw [hnames] at hnew
        rw [hse, hname, sampleOf_eq_nil hnew]
        simp [SinkCall.sampleOf]
  | _ =>
    refine ⟨hnd, ?_, ?_⟩
    · intro n
      refine (hnames n).trans ?_
      simp [SinkCall.kept?]
    · intro f hf
      refine (hsamples f hf).trans ?_
      simp [SinkCall.sampleOf]

theorem gather_kept (lib : DoubleText D) (cs : List (SinkCall D)) : Kept lib cs (gather lib cs).kept := by
  have hrun : ∀ (cs ds : List (SinkCall D)) (g : Gather), Kept lib ds g.kept →
      Kept lib (ds ++ cs) (cs.foldl (Gather.call lib) g).kept := by
    intro cs
    induction cs with
    | nil =>
      intro ds g h
      rwa [List.append_nil]
    | cons c cs ih =>
      intro ds g h
      have hstep := ih (ds ++ [c]) _ (h.call c)
      rwa [List.append_assoc] at hstep
  exact hrun cs [] _ ⟨List.nodup_nil, fun n => Iff.rfl, fun f hf => by cases hf⟩

theorem gather_written (cs : List (SinkCall D)) :
    (gather lib cs).written = cs.flatMap (SinkCall.written lib) := by
  have hrun : ∀ (cs : List (SinkCall D)) (g : Gather),
      (cs.foldl (Gather.call lib) g).written = g.written ++ cs.flatMap (SinkCall.written lib) := by
    intro cs
    induction cs with
    | nil => simp
    | cons c cs ih =>
      intro g
      rw [List.foldl_cons, ih, List.flatMap_cons, ← List.append_assoc]
      cases c <;> simp [Gather.call, SinkCall.written]
  exact hrun cs _

/-! ## Covers -/

/-- The families of a walk are among `ns`, and apart exactly if `good`. -/
structure Covers (lib : DoubleText D) (ns : List Ident) (ws : List (Walk D)) (good : Prop) :
    Prop where
  silent : ∀ w ∈ ws, w.Silent
  names : ∀ n ∈ blockNames (ws.flatMap (Walk.blocks lib)), n ∈ ns
  apart : ns.Nodup → (Apart (ws.flatMap (Walk.blocks lib)) ↔ good)

variable {ns ns' : List Ident} {ws ws' : List (Walk D)} {good good' : Prop}

theorem Covers.congr (h : Covers lib ns ws good) (hg : good ↔ good') : Covers lib ns ws good' :=
  ⟨h.silent, h.names, fun hnd => (h.apart hnd).trans hg⟩

theorem Covers.mono (h : Covers lib ns ws good) (hns : ns.Sublist ns') :
    Covers lib ns' ws good :=
  ⟨h.silent, fun n hn => hns.subset (h.names n hn), fun hnd => h.apart (hns.nodup hnd)⟩

theorem Covers.of_names (h : Covers lib ns ws good) (hns : ns' = ns) (hg : good ↔ good') :
    Covers lib ns' ws good' := hns ▸ h.congr hg

theorem Covers.nil : Covers lib [] [] True :=
  ⟨nofun, nofun, fun _ => ⟨fun _ => trivial, fun _ => ⟨List.nodup_nil, nofun⟩⟩⟩

theorem Covers.append (h : Covers lib ns ws good) (h' : Covers lib ns' ws' good') :
    Covers lib (ns ++ ns') (ws ++ ws') (good ∧ good') := by
  have hsplit : ∀ n ∈ blockNames ((ws ++ ws').flatMap (Walk.blocks lib)),
      n ∈ ns ∨ n ∈ ns' := by
    intro n hn
    rw [List.flatMap_append, blockNames, List.filterMap_append] at hn
    exact (List.mem_append.mp hn).imp (h.names n) (h'.names n)
  refine ⟨List.forall_mem_append.mpr ⟨h.silent, h'.silent⟩,
    fun n hn => List.mem_append.mpr (hsplit n hn), ?_⟩
  intro hnd
  obtain ⟨hns, hns', hdis⟩ := List.nodup_append.mp hnd
  rw [List.flatMap_append, apart_append, h.apart hns, h'.apart hns']
  constructor
  · rintro ⟨hg, hg', -⟩
    exact ⟨hg, hg'⟩
  · rintro ⟨hg, hg'⟩
    exact ⟨hg, hg', fun n hn hn' => hdis n (h.names n hn) n (h'.names n hn') rfl⟩

/-- A walk, or a part of a row, that is not always made. -/
def when {α : Type} (c : Bool) (xs : List α) : List α := if c then xs else []

theorem Covers.when (h : Covers lib ns ws good) (c : Bool) :
    Covers lib ns (when c ws) (c = true → good) := by
  cases c with
  | true => exact h.congr ⟨fun hg _ => hg, fun hg => hg rfl⟩
  | false =>
    exact ⟨nofun, nofun, fun _ => ⟨fun _ => nofun, fun _ => ⟨List.nodup_nil, nofun⟩⟩⟩

theorem apart_single {n : Ident} {help : OneLine} {kind : MetricKind}
    {s : List Label × OneLine} : Apart [.family ⟨n, help, kind, [s]⟩] := by
  refine ⟨List.nodup_singleton n, ?_⟩
  intro b hb
  obtain rfl := List.mem_singleton.mp hb
  exact List.pairwise_singleton _ s

/-- Fields without labels, as a renderer lists them. -/
def scalars (cs : List (MetricDesc × MetricValue D)) : List (Walk D) :=
  cs.map fun c => .call (.scalar c.1 c.2)

theorem Covers.scalars (cs : List (MetricDesc × MetricValue D)) :
    Covers lib (cs.map fun c => c.1.prom_name) (scalars cs) True := by
  induction cs with
  | nil => exact .nil
  | cons c cs ih =>
    have hone : Covers lib [c.1.prom_name] [.call (.scalar c.1 c.2)] True := by
      refine ⟨List.forall_mem_singleton.mpr trivial, ?_, fun _ => ⟨fun _ => trivial, fun _ => ?_⟩⟩
      · intro n hn
        exact hn
      · exact apart_single
    exact (hone.append ih).congr (and_self_iff)

theorem Covers.info (n : Ident) (help : OneLine) (labels : List Label) :
    Covers lib [n] [.call (.info_line n help labels)] True := by
  refine ⟨List.forall_mem_singleton.mpr trivial, fun n hn => hn, fun _ => ?_⟩
  exact ⟨fun _ => trivial, fun _ => apart_single⟩

theorem Covers.remarks (rs : List Remark) : Covers lib [] [.call (.raw_comment rs)] True := by
  have hnames : ∀ rs : List Remark, blockNames (rs.map .remark) = [] := by
    intro rs
    refine List.filterMap_eq_nil_iff.mpr ?_
    intro b hb
    obtain ⟨r, -, rfl⟩ := List.mem_map.mp hb
    rfl
  have hblocks : [Walk.call (D := D) (.raw_comment rs)].flatMap (Walk.blocks lib)
      = rs.map .remark := List.append_nil _
  refine ⟨List.forall_mem_singleton.mpr trivial, ?_, fun _ => ⟨fun _ => trivial, fun _ => ?_⟩⟩
  · intro n hn
    rw [hblocks, hnames] at hn
    exact hn
  · rw [hblocks]
    refine ⟨?_, ?_⟩
    · have hnil := hnames rs
      rw [blockNames] at hnil
      rw [hnil]
      exact List.nodup_nil
    · intro b hb
      obtain ⟨r, -, rfl⟩ := List.mem_map.mp hb
      trivial

theorem Covers.providers {texts : List (List UInt8)} (h : ∀ t ∈ texts, t = []) :
    Covers lib [] [.collection (texts.map fun t => [.provider t])] True := by
  have hcalls : ∀ c ∈ (texts.map fun t => [SinkCall.provider (D := D) t]).flatten,
      c = .provider [] := by
    intro c hc
    obtain ⟨e, he, hc⟩ := List.mem_flatten.mp hc
    obtain ⟨t, ht, rfl⟩ := List.mem_map.mp he
    obtain rfl := List.mem_singleton.mp hc
    rw [h t ht]
  have hblocks : [Walk.collection (texts.map fun t => [SinkCall.provider (D := D) t])].flatMap
      (Walk.blocks lib) = [] := by
    have hwritten :
        (gather lib (texts.map fun t => [SinkCall.provider t]).flatten).written = [] := by
      rw [gather_written]
      refine List.flatMap_eq_nil_iff.mpr ?_
      intro c hc
      rw [hcalls c hc]
      rfl
    have hkept : (gather lib (texts.map fun t => [SinkCall.provider t]).flatten).kept = [] := by
      have hnames := (gather_kept lib
        (texts.map fun t => [SinkCall.provider t]).flatten).names
      refine List.eq_nil_iff_forall_not_mem.mpr ?_
      intro f hf
      obtain ⟨c, hc, hcn⟩ := List.mem_filterMap.mp ((hnames _).mp (List.mem_map_of_mem hf))
      rw [hcalls c hc] at hcn
      cases hcn
    rw [List.flatMap_singleton, Walk.blocks, hwritten, hkept]
    rfl
  refine ⟨List.forall_mem_singleton.mpr ?_, ?_, fun _ => ⟨fun _ => trivial, fun _ => ?_⟩⟩
  · intro c hc
    rw [hcalls c hc]
    rfl
  · rw [hblocks]
    intro n hn
    cases hn
  · rw [hblocks]
    exact ⟨List.nodup_nil, nofun⟩

/-- A collection whose entries call `info_line`: each call writes the headers
again. -/
theorem Covers.infos {R : Type} (n : Ident) (help : OneLine) (rows : List R)
    (labels : R → List Label) :
    Covers lib [n] [.collection (rows.map fun r => [.info_line n help (labels r)])]
      (rows.length ≤ 1) := by
  have hcalls : (rows.map fun r => [SinkCall.info_line (D := D) n help (labels r)]).flatten
      = rows.map fun r => .info_line n help (labels r) := by
    rw [← List.flatMap_def, List.map_eq_flatMap]
  have hblocks : [Walk.collection (rows.map fun r =>
      [SinkCall.info_line (D := D) n help (labels r)])].flatMap (Walk.blocks lib)
      = rows.map fun r => .family ⟨n, help, .gauge, [(labels r, ⟨[0x31], by decide⟩)]⟩ := by
    have hkept :
        (gather lib (rows.map fun r => SinkCall.info_line n help (labels r))).kept = [] := by
      have hnames := (gather_kept lib
        (rows.map fun r => SinkCall.info_line n help (labels r))).names
      refine List.eq_nil_iff_forall_not_mem.mpr ?_
      intro f hf
      obtain ⟨c, hc, hcn⟩ := List.mem_filterMap.mp ((hnames _).mp (List.mem_map_of_mem hf))
      obtain ⟨r, -, rfl⟩ := List.mem_map.mp hc
      cases hcn
    rw [List.flatMap_singleton, Walk.blocks, hcalls, hkept, gather_written, List.flatMap_map,
      List.map_nil, List.append_nil, List.map_eq_flatMap]
    rfl
  have hnames : ∀ rows : List R, blockNames (rows.map fun r =>
      .family ⟨n, help, .gauge, [(labels r, ⟨[0x31], by decide⟩)]⟩)
      = List.replicate rows.length n := by
    intro rows
    induction rows with
    | nil => rfl
    | cons r rows ih => exact congrArg (n :: ·) ih
  refine ⟨List.forall_mem_singleton.mpr ?_, ?_, fun _ => ?_⟩
  · intro c hc
    rw [hcalls] at hc
    obtain ⟨r, -, rfl⟩ := List.mem_map.mp hc
    trivial
  · rw [hblocks, hnames]
    intro m hm
    exact List.mem_singleton.mpr (List.eq_of_mem_replicate hm)
  · rw [hblocks]
    constructor
    · rintro ⟨hnd, -⟩
      rw [← blockNames, hnames] at hnd
      exact List.nodup_replicate.mp hnd
    · intro hlen
      refine ⟨?_, ?_⟩
      · rw [← blockNames, hnames]
        exact List.nodup_replicate.mpr hlen
      · intro b hb
        obtain ⟨r, -, rfl⟩ := List.mem_map.mp hb
        exact List.pairwise_singleton _ _

/-! ## Rows -/

/-- A labelled call whose labels start with a row's key, each label once. -/
def SinkCall.Extends (key : List Label) : SinkCall D → Prop
  | .labeled _ labels _ => key <+: labels ∧ (labels.map Label.key).Nodup
  | _ => False

/-- What the rows of a collection have in common: the families they name are
among `ns`, each once a row; their labels extend the row's key, which is made
of the same names in every row; and the family `first` has a sample with just
the key. -/
structure RowsOf {R : Type} (ns : List Ident) (entry : R → List (SinkCall D))
    (key : R → List Label) : Prop where
  names : ∀ r, ((entry r).filterMap SinkCall.kept?).Sublist ns
  extend : ∀ r, ∀ c ∈ entry r, c.Extends (key r)
  keys : ∀ r r', (key r).map Label.key = (key r').map Label.key
  first : ∃ d, ∀ r, ∃ v, SinkCall.labeled d (key r) v ∈ entry r

section

variable {R : Type} {entry : R → List (SinkCall D)} {key : R → List Label}

theorem RowsOf.labeled (h : RowsOf ns entry key) {r : R} {c : SinkCall D} (hc : c ∈ entry r) :
    ∃ d labels v, c = .labeled d labels v ∧ key r <+: labels ∧
      (labels.map Label.key).Nodup := by
  have hext := h.extend r c hc
  cases c with
  | labeled d labels v => exact ⟨d, labels, v, rfl, hext⟩
  | _ => cases hext

theorem RowsOf.one_sample (h : RowsOf ns entry key) (hns : ns.Nodup) (r : R) (n : Ident)
    {P : List Label × OneLine → List Label × OneLine → Prop} :
    ((entry r).filterMap (SinkCall.sampleOf lib n)).Pairwise P := by
  have hnd := (h.names r).nodup hns
  rw [List.Nodup, List.pairwise_filterMap] at hnd
  refine List.pairwise_filterMap.mpr (hnd.imp_of_mem ?_)
  intro c c' hc hc' hne s hs s' hs'
  obtain ⟨d, labels, v, rfl, -⟩ := h.labeled hc
  obtain ⟨d', labels', v', rfl, -⟩ := h.labeled hc'
  have hd : d.prom_name = d'.prom_name :=
    (sampleOf_labeled hs).1.trans (sampleOf_labeled hs').1.symm
  exact absurd hd (hne _ rfl _ rfl)

/-- The samples of a family are those of the rows, one row after the other. -/
theorem RowsOf.samples_apart (h : RowsOf ns entry key) (lib : DoubleText D) (hns : ns.Nodup)
    (rows : List R) (hkeys : (rows.map key).Nodup) (n : Ident) :
    ((rows.map entry).flatten.filterMap (SinkCall.sampleOf lib n)).Pairwise
      fun s t => ¬ SameLabels s.1 t.1 := by
  rw [← List.flatMap_def, List.filterMap_flatMap]
  refine List.pairwise_flatMap.mpr ⟨fun r _ => h.one_sample hns r n, ?_⟩
  refine (List.pairwise_map.mp hkeys).imp ?_
  intro r r' hne s hs t ht hsame
  obtain ⟨c, hc, hcs⟩ := List.mem_filterMap.mp hs
  obtain ⟨c', hc', hct⟩ := List.mem_filterMap.mp ht
  obtain ⟨d, labels, v, rfl, hpre, -⟩ := h.labeled hc
  obtain ⟨d', labels', v', rfl, hpre', hnd⟩ := h.labeled hc'
  obtain ⟨-, rfl⟩ := sampleOf_labeled hcs
  obtain ⟨-, rfl⟩ := sampleOf_labeled hct
  exact hne (eq_of_sameLabels hpre hpre' (h.keys r r') hnd hsame)

theorem RowsOf.keys_apart (h : RowsOf ns entry key) (lib : DoubleText D) (rows : List R)
    (hapart : ∀ n ∈ (rows.map entry).flatten.filterMap SinkCall.kept?,
      ((rows.map entry).flatten.filterMap (SinkCall.sampleOf lib n)).Pairwise
        fun s t => ¬ SameLabels s.1 t.1) : (rows.map key).Nodup := by
  obtain ⟨d, hfirst⟩ := h.first
  cases hrows : rows with
  | nil => exact List.nodup_nil
  | cons r₀ rest =>
    rw [← hrows]
    obtain ⟨v₀, hv₀⟩ := hfirst r₀
    have hmem : d.prom_name ∈ (rows.map entry).flatten.filterMap SinkCall.kept? := by
      refine List.mem_filterMap.mpr ⟨.labeled d (key r₀) v₀, ?_, rfl⟩
      exact List.mem_flatten_of_mem (List.mem_map_of_mem (hrows ▸ List.mem_cons_self)) hv₀
    have hsamples := hapart _ hmem
    rw [← List.flatMap_def, List.filterMap_flatMap] at hsamples
    refine List.pairwise_map.mpr ((List.pairwise_flatMap.mp hsamples).2.imp ?_)
    intro r r' hne hkey
    obtain ⟨v, hv⟩ := hfirst r
    obtain ⟨v', hv'⟩ := hfirst r'
    have hin : ∀ {r v}, SinkCall.labeled d (key r) v ∈ entry r → (key r, v.oneLine lib) ∈
        (entry r).filterMap (SinkCall.sampleOf lib d.prom_name) := by
      intro r v hv
      exact List.mem_filterMap.mpr ⟨_, hv, if_pos rfl⟩
    refine hne _ (hin hv) _ (hin hv') ?_
    rw [hkey]
    exact fun _ => Iff.rfl

/-- A collection of labelled rows is apart if and only if no two rows have the
same key. -/
theorem Covers.rows (h : RowsOf ns entry key) (rows : List R) :
    Covers lib ns [.collection (rows.map entry)] ((rows.map key).Nodup) := by
  have hcalls : ∀ c ∈ (rows.map entry).flatten, ∃ r ∈ rows, c ∈ entry r := by
    intro c hc
    obtain ⟨e, he, hc⟩ := List.mem_flatten.mp hc
    obtain ⟨r, hr, rfl⟩ := List.mem_map.mp he
    exact ⟨r, hr, hc⟩
  obtain ⟨hkept, hnames, hsamples⟩ := gather_kept lib (rows.map entry).flatten
  have hblocks : [Walk.collection (rows.map entry)].flatMap (Walk.blocks lib)
      = (gather lib (rows.map entry).flatten).kept.map .family := by
    have hwritten : (gather lib (rows.map entry).flatten).written = [] := by
      rw [gather_written]
      refine List.flatMap_eq_nil_iff.mpr ?_
      intro c hc
      obtain ⟨r, -, hc⟩ := hcalls c hc
      obtain ⟨d, labels, v, rfl, -⟩ := h.labeled hc
      rfl
    rw [List.flatMap_singleton, Walk.blocks, hwritten]
    rfl
  have hblockNames : ∀ fs : List Family,
      (fs.map Block.family).filterMap Block.name? = fs.map Family.name := by
    intro fs
    rw [List.filterMap_map, ← List.filterMap_eq_map]
    rfl
  refine ⟨List.forall_mem_singleton.mpr ?_, ?_, fun hns => ?_⟩
  · intro c hc
    obtain ⟨r, -, hc⟩ := hcalls c hc
    obtain ⟨d, labels, v, rfl, -⟩ := h.labeled hc
    trivial
  · intro n hn
    rw [hblocks, blockNames, hblockNames] at hn
    obtain ⟨c, hc, hcn⟩ := List.mem_filterMap.mp ((hnames n).mp hn)
    obtain ⟨r, -, hc⟩ := hcalls c hc
    exact (h.names r).subset (List.mem_filterMap.mpr ⟨c, hc, hcn⟩)
  · rw [hblocks]
    constructor
    · rintro ⟨-, hdistinct⟩
      refine h.keys_apart lib rows ?_
      intro n hn
      obtain ⟨f, hf, rfl⟩ := List.mem_map.mp ((hnames n).mpr hn)
      rw [← hsamples f hf]
      exact hdistinct _ (List.mem_map_of_mem hf)
    · intro hkeys
      refine ⟨?_, ?_⟩
      · rw [hblockNames]
        exact hkept
      · intro b hb
        obtain ⟨f, hf, rfl⟩ := List.mem_map.mp hb
        have hpair := h.samples_apart lib hns rows hkeys f.name
        rw [← hsamples f hf] at hpair
        exact hpair

end

theorem Covers.text_eq (h : Covers lib ns ws good) :
    PrometheusSink.text lib ws = blocksText (ws.flatMap (Walk.blocks lib)) :=
  text_walks h.silent

theorem Covers.valid_iff (h : Covers lib ns ws good) (hns : ns.Nodup) :
    ValidExposition (blocksText (ws.flatMap (Walk.blocks lib))) ↔ good := by
  rw [blocksText, validExposition_iff, wellGrouped_blocks, h.apart hns]

end

end Montauk.Emit
