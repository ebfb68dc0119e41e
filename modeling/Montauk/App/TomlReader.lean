import Montauk.App.MetricsSink
import Montauk.Machine.Lines
import Montauk.Machine.Scan
import Montauk.Machine.Timeline
import Montauk.Text.Bytes

/-!
# The configuration file

`TomlReader`: the sections of a configuration, read from a file line by line and
written back. What is read back under a key is the value up to its first
quote, since the writer quotes but does not escape (`entriesOf_reload`), and the
entries before any header are read back only where they stand first. So a
configuration survives if and only if no value has a quote and no section comes
before entries without a header (`roundTrips_iff`).
-/

namespace Montauk.App

open Lines Scan Timeline

/-! ## The sections -/

/-- `TomlReader`: the sections in the order they first came, and in each the
entries. -/
structure TomlReader where
  sections : List (List UInt8 × List (List UInt8 × List UInt8)) := []

namespace TomlReader

def ensureSection (name : List UInt8) (r : TomlReader) : TomlReader :=
  { sections := adjust name [] id r.sections }

/-- `set`: `ensure_section`, then `Section::set`. -/
def set (section_ key value : List UInt8) (r : TomlReader) : TomlReader :=
  { sections := adjust section_ [] (assign key value) r.sections }

def find? (section_ key : List UInt8) (r : TomlReader) : Option (List UInt8) :=
  (rowOf section_ r.sections).bind (rowOf key)

def getString (section_ key default : List UInt8) (r : TomlReader) : List UInt8 :=
  (r.find? section_ key).getD default

def has (section_ key : List UInt8) (r : TomlReader) : Bool := (r.find? section_ key).isSome

end TomlReader

/-! ## Reading -/

/-- `trim`. -/
def trimmed (s : List UInt8) : List UInt8 := trim isSpace isSpace s

/-- What stands before the first `c` and behind it. -/
def splitAt? (c : UInt8) (s : List UInt8) : Option (List UInt8 × List UInt8) :=
  match s.dropWhile (· ≠ c) with
  | [] => none
  | _ :: rest => some (s.takeWhile (· ≠ c), rest)

/-- The value without its comment: behind the closing quote, or from `#` on. -/
def stripComment (val : List UInt8) : List UInt8 :=
  if val.head? = some 0x22 then
    (splitAt? 0x22 val.tail).elim val fun p => 0x22 :: p.1 ++ [0x22]
  else (splitAt? 0x23 val).elim val fun p => trimmed p.1

/-- The value without the quotes around it. -/
def stripQuotes (val : List UInt8) : List UInt8 :=
  if 2 ≤ val.length ∧ val.head? = some 0x22 ∧ val.getLast? = some 0x22 then val.tail.dropLast else val

/-- The loop over the lines: the sections so far, and the current one. -/
structure TomlLoad where
  reader : TomlReader := {}
  current : List UInt8 := []

def TomlLoad.line (s : TomlLoad) (line : List UInt8) : TomlLoad :=
  let sv := trimmed line
  if sv = [] ∨ sv.head? = some 0x23 then s
  else if sv.head? = some 0x5b ∧ sv.getLast? = some 0x5d then
    let current := trimmed sv.tail.dropLast
    { reader := s.reader.ensureSection current, current }
  else
    match splitAt? 0x3d sv with
    | none => s
    | some (key, val) =>
        { s with reader := s.reader.set s.current (trimmed key) (stripQuotes (stripComment (trimmed val))) }

/-- The lines that `getline` takes from a file. -/
def getlines (file : List UInt8) : List (List UInt8) := (lines 0x0a file).map (chomp 0x0a)

/-- `load`, of a file that may be missing, and whether it was there. -/
def TomlReader.load (file : Option (List UInt8)) (r : TomlReader) : TomlReader × Bool :=
  let r := { r with sections := [] }
  match file with
  | none => (r, false)
  | some bytes => (((getlines bytes).foldl TomlLoad.line { reader := r }).reader, true)

/-! ## Writing -/

def needsQuoting (val : List UInt8) : Bool :=
  if val = [] then true
  else if val = spelling "true" ∨ val = spelling "false" then false
  else
    let start := if val.head? = some 0x2d then 1 else 0
    let allDigits := start < val.length && (val.drop start).all isDigit
    !allDigits

def written (val : List UInt8) : List UInt8 := if needsQuoting val then 0x22 :: val ++ [0x22] else val

def saveEntry (e : List UInt8 × List UInt8) : List UInt8 := e.1 ++ spelling " = " ++ written e.2 ++ [0x0a]

def saveSection (s : List UInt8 × List (List UInt8 × List UInt8)) : List UInt8 :=
  (if s.1 = [] then [] else [0x5b] ++ s.1 ++ [0x5d, 0x0a]) ++ s.2.flatMap saveEntry

/-- `save`: what it writes; a blank line comes before every section but the
first. -/
def TomlReader.save (r : TomlReader) : List UInt8 :=
  match r.sections with
  | [] => []
  | s :: rest => saveSection s ++ rest.flatMap fun s => 0x0a :: saveSection s

/-! ## Pieces of a line -/

/-- There is no blank at either end. -/
structure Tidy (s : List UInt8) : Prop where
  front : ∀ c, s.head? = some c → isSpace c = false
  back : ∀ c, s.getLast? = some c → isSpace c = false

theorem tidy_nil : Tidy [] := ⟨(fun c h => by cases h), (fun c h => by cases h)⟩

theorem Tidy.trimmed_eq {s : List UInt8} (h : Tidy s) : trimmed s = s := by
  cases s with
  | nil => rfl
  | cons c s =>
    exact trim_eq_self (List.cons_ne_nil c s) (h.front c rfl)
      (h.back _ (List.getLast?_eq_some_getLast (List.cons_ne_nil c s)))

theorem trimmed_front (s : List UInt8) : trimmed s <+: s.dropWhile isSpace := List.rdropWhile_prefix _ _

theorem mem_trimmed {c : UInt8} {s : List UInt8} (h : c ∈ trimmed s) : c ∈ s :=
  (List.dropWhile_sublist _).subset ((trimmed_front s).subset h)

theorem tidy_trimmed (s : List UInt8) : Tidy (trimmed s) := by
  refine ⟨fun c hc => ?_, fun c hc => ?_⟩
  · obtain ⟨rest, hrest⟩ := trimmed_front s
    have hhead : (s.dropWhile isSpace).head? = some c := by
      rw [← hrest, List.head?_append, hc]
      rfl
    exact Bool.eq_false_iff.mpr fun hspace => by
      have hnot := List.head?_dropWhile_not isSpace s
      rw [hhead] at hnot
      exact absurd hspace (by simpa using hnot)
  · have hne : trimmed s ≠ [] := by
      rintro hnil
      rw [hnil] at hc
      cases hc
    obtain rfl : (trimmed s).getLast hne = c :=
      Option.some_inj.mp ((List.getLast?_eq_some_getLast hne).symm.trans hc)
    exact Bool.eq_false_iff.mpr (List.rdropWhile_last_not isSpace _ hne)

theorem splitAt?_append {c : UInt8} {a : List UInt8} (h : c ∉ a) (b : List UInt8) :
    splitAt? c (a ++ c :: b) = some (a, b) := by
  have hne : ∀ d ∈ a, decide (d ≠ c) = true := fun d hd => decide_eq_true fun heq => h (heq ▸ hd)
  rw [splitAt?, List.dropWhile_append_of_pos hne, List.takeWhile_append_of_pos hne,
    List.dropWhile_cons_of_neg (by simp), List.takeWhile_cons_of_neg (by simp), List.append_nil]

theorem splitAt?_eq_some {c : UInt8} {s : List UInt8} {p : List UInt8 × List UInt8} (h : splitAt? c s = some p) :
    c ∉ p.1 ∧ s = p.1 ++ c :: p.2 := by
  rw [splitAt?] at h
  split at h
  · cases h
  · rename_i d rest hdrop
    obtain rfl := Option.some_inj.mp h
    have hd : d = c := by
      have hnot := List.head?_dropWhile_not (fun d : UInt8 => decide (d ≠ c)) s
      rw [hdrop] at hnot
      simpa using hnot
    refine ⟨fun hc => ?_, ?_⟩
    · exact absurd (List.mem_takeWhile_imp hc) (by simp)
    · have happ := List.takeWhile_append_dropWhile (p := fun d : UInt8 => decide (d ≠ c)) (l := s)
      rw [hdrop, hd] at happ
      exact happ.symm

theorem splitAt?_eq_none {c : UInt8} {s : List UInt8} (h : c ∉ s) : splitAt? c s = none := by
  cases hs : splitAt? c s with
  | none => rfl
  | some p =>
    obtain ⟨-, rfl⟩ := splitAt?_eq_some hs
    exact absurd (List.mem_append_right _ List.mem_cons_self) h

/-! ## What a configuration looks like -/

/-- The keys that a file can give. -/
structure KeyLike (key : List UInt8) : Prop where
  tidy : Tidy key
  noEquals : 0x3d ∉ key
  noNewline : 0x0a ∉ key
  noHash : key.head? ≠ some 0x23

/-- The names that a file can give. -/
structure NameLike (name : List UInt8) : Prop where
  tidy : Tidy name
  noNewline : 0x0a ∉ name

/-- Each section is there once and each key once in it; names and keys are such
as a file can give. -/
structure TomlReader.Shaped (r : TomlReader) : Prop where
  names : (r.sections.map Prod.fst).Nodup
  name : ∀ s ∈ r.sections, NameLike s.1
  keys : ∀ s ∈ r.sections, (s.2.map Prod.fst).Nodup
  key : ∀ s ∈ r.sections, ∀ e ∈ s.2, KeyLike e.1
  value : ∀ s ∈ r.sections, ∀ e ∈ s.2, 0x0a ∉ e.2

namespace TomlReader

theorem shaped_empty : ({} : TomlReader).Shaped :=
  ⟨List.nodup_nil, (fun _ hs => absurd hs List.not_mem_nil), (fun _ hs => absurd hs List.not_mem_nil),
    (fun _ hs => absurd hs List.not_mem_nil), (fun _ hs => absurd hs List.not_mem_nil)⟩

variable {r : TomlReader}

theorem Shaped.ensureSection (h : r.Shaped) {name : List UInt8} (hname : NameLike name) :
    (r.ensureSection name).Shaped := by
  have hmem : ∀ s ∈ (r.ensureSection name).sections, s ∈ r.sections ∨ s = (name, []) := by
    intro s hs
    rcases mem_adjust hs with hold | ⟨hn, a, ha, hs2⟩
    · exact .inl hold
    · rcases ha with ha | rfl
      · have hold : s = (name, a) := Prod.ext hn hs2
        exact .inl (hold ▸ ha)
      · exact .inr (Prod.ext hn hs2)
  refine ⟨nodup_adjust h.names, fun s hs => ?_, fun s hs => ?_, fun s hs => ?_, fun s hs => ?_⟩
  · rcases hmem s hs with hs | rfl
    · exact h.name s hs
    · exact hname
  · rcases hmem s hs with hs | rfl
    · exact h.keys s hs
    · exact List.nodup_nil
  · rcases hmem s hs with hs | rfl
    · exact h.key s hs
    · exact fun e he => absurd he List.not_mem_nil
  · rcases hmem s hs with hs | rfl
    · exact h.value s hs
    · exact fun e he => absurd he List.not_mem_nil

theorem Shaped.set (h : r.Shaped) {name key value : List UInt8} (hname : NameLike name) (hkey : KeyLike key)
    (hvalue : 0x0a ∉ value) : (r.set name key value).Shaped := by
  have hmem : ∀ s ∈ (r.set name key value).sections, s ∈ r.sections ∨
      s.1 = name ∧ ∃ es, ((name, es) ∈ r.sections ∨ es = []) ∧ s.2 = assign key value es := fun s hs => mem_adjust hs
  have hentry : ∀ es e, e ∈ assign key value es → e ∈ es ∨ e = (key, value) := by
    intro es e he
    rcases mem_adjust he with hold | ⟨hk, a, -, hv⟩
    · exact .inl hold
    · exact .inr (Prod.ext hk hv)
  refine ⟨nodup_adjust h.names, fun s hs => ?_, fun s hs => ?_, fun s hs => ?_, fun s hs => ?_⟩
  · rcases hmem s hs with hs | ⟨hn, -⟩
    · exact h.name s hs
    · exact hn ▸ hname
  · rcases hmem s hs with hs | ⟨-, es, hes, hs2⟩
    · exact h.keys s hs
    · rw [hs2]
      refine nodup_adjust ?_
      rcases hes with hes | rfl
      · exact h.keys _ hes
      · exact List.nodup_nil
  · rcases hmem s hs with hs | ⟨-, es, hes, hs2⟩
    · exact h.key s hs
    · intro e he
      rcases hentry es e (hs2 ▸ he) with he | rfl
      · rcases hes with hes | rfl
        · exact h.key _ hes e he
        · exact absurd he List.not_mem_nil
      · exact hkey
  · rcases hmem s hs with hs | ⟨-, es, hes, hs2⟩
    · exact h.value s hs
    · intro e he
      rcases hentry es e (hs2 ▸ he) with he | rfl
      · rcases hes with hes | rfl
        · exact h.value _ hes e he
        · exact absurd he List.not_mem_nil
      · exact hvalue

end TomlReader

/-! ## What a file gives -/

theorem mem_stripComment {c : UInt8} {val : List UInt8} (h : c ∈ stripComment val) : c ∈ val ∨ c = 0x22 := by
  rw [stripComment] at h
  split at h
  · cases hs : splitAt? 0x22 val.tail with
    | none =>
      rw [hs] at h
      exact .inl h
    | some p =>
      rw [hs] at h
      obtain ⟨-, htail⟩ := splitAt?_eq_some hs
      rcases List.mem_append.mp h with h | h
      · rcases List.mem_cons.mp h with h | h
        · exact .inr h
        · refine .inl (List.mem_of_mem_tail ?_)
          rw [htail]
          exact List.mem_append_left _ h
      · exact .inr (List.mem_singleton.mp h)
  · cases hs : splitAt? 0x23 val with
    | none =>
      rw [hs] at h
      exact .inl h
    | some p =>
      rw [hs] at h
      obtain ⟨-, hval⟩ := splitAt?_eq_some hs
      refine .inl ?_
      rw [hval]
      exact List.mem_append_left _ (mem_trimmed h)

theorem mem_stripQuotes {c : UInt8} {val : List UInt8} (h : c ∈ stripQuotes val) : c ∈ val := by
  rw [stripQuotes] at h
  split at h
  · exact List.mem_of_mem_tail (List.dropLast_subset _ h)
  · exact h

theorem keyLike_of_split {sv : List UInt8} (hsv : Tidy sv) (hnl : 0x0a ∉ sv) (hhash : sv.head? ≠ some 0x23)
    {p : List UInt8 × List UInt8} (hp : splitAt? 0x3d sv = some p) : KeyLike (trimmed p.1) := by
  obtain ⟨heq, hsv'⟩ := splitAt?_eq_some hp
  refine ⟨tidy_trimmed _, fun h => heq (mem_trimmed h), fun h => hnl ?_, fun h => ?_⟩
  · rw [hsv']
    exact List.mem_append_left _ (mem_trimmed h)
  · cases hk : p.1 with
    | nil =>
      rw [hk] at h
      cases h
    | cons c k =>
      have hc : sv.head? = some c := by
        rw [hsv', hk]
        rfl
      obtain ⟨rest, hrest⟩ := trimmed_front p.1
      rw [hk, List.dropWhile_cons_of_neg (by simp [hsv.front c hc]), ← hk] at hrest
      have hfront := congrArg List.head? hrest
      rw [List.head?_append, h, hk] at hfront
      exact hhash (hc.trans hfront.symm)

theorem TomlLoad.shaped_line {s : TomlLoad} (h : s.reader.Shaped) (hcur : NameLike s.current) {line : List UInt8}
    (hline : 0x0a ∉ line) : (s.line line).reader.Shaped ∧ NameLike (s.line line).current := by
  have hnl : 0x0a ∉ trimmed line := fun hmem => hline (mem_trimmed hmem)
  have htidy := tidy_trimmed line
  rw [TomlLoad.line]
  dsimp only
  generalize trimmed line = sv at hnl htidy
  split
  · exact ⟨h, hcur⟩
  · rename_i hkeep
    split
    · have hname : NameLike (trimmed sv.tail.dropLast) :=
        ⟨tidy_trimmed _, fun hmem => hnl (List.mem_of_mem_tail (List.dropLast_subset _ (mem_trimmed hmem)))⟩
      exact ⟨h.ensureSection hname, hname⟩
    · split
      · exact ⟨h, hcur⟩
      · rename_i key val hsplit
        refine ⟨h.set hcur (keyLike_of_split htidy hnl (fun hh => hkeep (.inr hh)) hsplit) fun hmem => ?_, hcur⟩
        rcases mem_stripComment (mem_stripQuotes hmem) with hval | hquote
        · refine hnl ?_
          rw [(splitAt?_eq_some hsplit).2]
          exact List.mem_append_right _ (List.mem_cons_of_mem _ (mem_trimmed hval))
        · exact absurd hquote (by decide)

theorem notMem_chomp {α : Type} [DecidableEq α] {nl : α} {s l : List α} (h : l ∈ lines nl s) : nl ∉ chomp nl l := by
  induction s generalizing l with
  | nil => exact absurd h List.not_mem_nil
  | cons c s ih =>
    rw [lines] at h
    split at h
    · rename_i hc
      rcases List.mem_cons.mp h with rfl | h
      · have hempty : chomp nl [c] = [] := hc ▸ chomp_concat []
        rw [hempty]
        exact List.not_mem_nil
      · exact ih h
    · rename_i hc
      cases hls : lines nl s with
      | nil =>
        rw [hls] at h
        obtain rfl := List.mem_singleton.mp h
        have hkeep : nl ∉ [c] := fun hmem => hc (List.mem_singleton.mp hmem).symm
        rw [chomp_of_notMem hkeep]
        exact hkeep
      | cons l' ls =>
        rw [hls] at h ih
        rcases List.mem_cons.mp h with rfl | h
        · have hl' := ih List.mem_cons_self
          have hne : l' ≠ [] := ne_nil_of_mem_lines (hls ▸ List.mem_cons_self)
          obtain ⟨d, rest, rfl⟩ := List.exists_cons_of_ne_nil hne
          have hcons : chomp nl (c :: d :: rest) = c :: chomp nl (d :: rest) := by
            rw [chomp, chomp, List.getLast?_cons_cons]
            split <;> rfl
          rw [hcons]
          exact List.not_mem_cons_of_ne_of_not_mem (Ne.symm hc) hl'
        · exact ih (List.mem_cons_of_mem _ h)

theorem notMem_getlines {file line : List UInt8} (h : line ∈ getlines file) : 0x0a ∉ line := by
  obtain ⟨l, hl, rfl⟩ := List.mem_map.mp h
  exact notMem_chomp hl

theorem TomlReader.shaped_load (file : Option (List UInt8)) (r : TomlReader) : (r.load file).1.Shaped := by
  cases file with
  | none => exact shaped_empty
  | some bytes =>
    have hfold : ∀ (ls : List (List UInt8)) (s : TomlLoad), (∀ l ∈ ls, 0x0a ∉ l) → s.reader.Shaped →
        NameLike s.current → (ls.foldl TomlLoad.line s).reader.Shaped := by
      intro ls
      induction ls with
      | nil => exact fun s _ h _ => h
      | cons l ls ih =>
        intro s hls h hcur
        obtain ⟨hstep, hcur'⟩ := TomlLoad.shaped_line h hcur (hls l List.mem_cons_self)
        exact ih _ (fun l' hl' => hls l' (List.mem_cons_of_mem _ hl')) hstep hcur'
    exact hfold _ _ (fun l hl => notMem_getlines hl) shaped_empty ⟨tidy_nil, List.not_mem_nil⟩

/-! ## What is reached -/

/-- A file can give the key, or the section. -/
def LoadsKey (key : List UInt8) : Prop := ∃ file name, ((({} : TomlReader).load (some file)).1.find? name key).isSome
def LoadsSection (name : List UInt8) : Prop := ∃ file, name ∈ (({} : TomlReader).load (some file)).1.sections.map Prod.fst

/-- The configurations that loads and sets lead to. -/
inductive Reached : TomlReader → Prop
  | empty : Reached {}
  | load {r : TomlReader} (file : Option (List UInt8)) : Reached r → Reached (r.load file).1
  | set {r : TomlReader} {name key value : List UInt8} : Reached r → LoadsSection name → LoadsKey key → key ≠ [] →
      0x0a ∉ value → Reached (r.set name key value)

theorem LoadsSection.nameLike {name : List UInt8} (h : LoadsSection name) : NameLike name := by
  obtain ⟨file, hmem⟩ := h
  obtain ⟨s, hs, rfl⟩ := List.mem_map.mp hmem
  exact (TomlReader.shaped_load (some file) {}).name s hs

theorem LoadsKey.keyLike {key : List UInt8} (h : LoadsKey key) : KeyLike key := by
  obtain ⟨file, name, hsome⟩ := h
  obtain ⟨value, hvalue⟩ := Option.isSome_iff_exists.mp hsome
  obtain ⟨es, hes, he⟩ := Option.bind_eq_some_iff.mp hvalue
  exact (TomlReader.shaped_load (some file) {}).key _ (mem_of_rowOf hes) _ (mem_of_rowOf he)

theorem Reached.shaped {r : TomlReader} (h : Reached r) : r.Shaped := by
  induction h with
  | empty => exact TomlReader.shaped_empty
  | load file _ _ => exact TomlReader.shaped_load file _
  | set _ hname hkey _ hvalue ih => exact ih.set hname.nameLike hkey.keyLike hvalue

/-! ## What is read back -/

/-- What is read back of a value: what comes before its first quote. -/
def cut (value : List UInt8) : List UInt8 := value.takeWhile (· ≠ 0x22)

/-- The bytes of a value that is written without quotes. -/
def plainByte (c : UInt8) : Bool := isDigit c || c = 0x2d || isLower c

theorem plain_of_unquoted {val : List UInt8} (h : needsQuoting val = false) :
    val ≠ [] ∧ ∀ c ∈ val, plainByte c = true := by
  rw [needsQuoting] at h
  split at h
  · cases h
  · rename_i hne
    refine ⟨hne, ?_⟩
    split at h
    · rename_i hword
      rcases hword with rfl | rfl
      · exact List.all_eq_true.mp (by decide)
      · exact List.all_eq_true.mp (by decide)
    · rw [Bool.not_eq_false', Bool.and_eq_true] at h
      have hdigits := List.all_eq_true.mp h.2
      cases val with
      | nil => exact absurd rfl hne
      | cons c val =>
        intro d hd
        split at hdigits
        · rename_i hminus
          obtain rfl := Option.some_inj.mp hminus
          rcases List.mem_cons.mp hd with rfl | hd
          · rfl
          · rw [plainByte, hdigits d hd]
            rfl
        · rw [plainByte, hdigits d hd]
          rfl

theorem plainByte_apart {c : UInt8} (h : plainByte c = true) :
    c ≠ 0x22 ∧ c ≠ 0x23 ∧ c ≠ 0x5d ∧ c ≠ 0x0a ∧ isSpace c = false := by
  refine ⟨?_, ?_, ?_, ?_, Bool.eq_false_iff.mpr fun hspace => ?_⟩
  · rintro rfl
    exact absurd h (by decide)
  · rintro rfl
    exact absurd h (by decide)
  · rintro rfl
    exact absurd h (by decide)
  · rintro rfl
    exact absurd h (by decide)
  · rw [isSpace, Bool.or_eq_true, decide_eq_true_eq, Bool.and_eq_true, decide_eq_true_eq, decide_eq_true_eq] at hspace
    rcases hspace with rfl | ⟨-, hle⟩
    · exact absurd h (by decide)
    · simp only [plainByte, isDigit, isLower, Bool.or_eq_true, Bool.and_eq_true, decide_eq_true_eq,
        UInt8.le_iff_toNat_le, ← UInt8.toNat_inj] at h hle
      simp only [UInt8.reduceToNat] at h hle
      omega

theorem tidy_between {c d : UInt8} (hc : isSpace c = false) (hd : isSpace d = false) (s : List UInt8) :
    Tidy (c :: s ++ [d]) := by
  have hlast : (c :: s ++ [d]).getLast? = some d := List.getLast?_concat
  refine ⟨fun b hb => ?_, fun b hb => ?_⟩
  · obtain rfl := Option.some_inj.mp hb
    exact hc
  · obtain rfl := Option.some_inj.mp (hlast.symm.trans hb)
    exact hd

/-- A value as it is written has no blank and no bracket at its end. -/
theorem written_ends (val : List UInt8) :
    written val ≠ [] ∧ Tidy (written val) ∧ (written val).getLast? ≠ some 0x5d := by
  rw [written]
  cases hq : needsQuoting val with
  | true =>
    rw [if_pos rfl]
    have hlast : (0x22 :: val ++ [0x22]).getLast? = some 0x22 := List.getLast?_concat
    refine ⟨List.cons_ne_nil _ _, tidy_between rfl rfl val, ?_⟩
    rw [hlast]
    decide
  | false =>
    rw [if_neg Bool.false_ne_true]
    obtain ⟨hne, hplain⟩ := plain_of_unquoted hq
    refine ⟨hne, ⟨fun c hc => ?_, fun c hc => ?_⟩, fun hc => ?_⟩
    · exact (plainByte_apart (hplain c (List.mem_of_head? hc))).2.2.2.2
    · exact (plainByte_apart (hplain c (List.mem_of_getLast? hc))).2.2.2.2
    · exact (plainByte_apart (hplain _ (List.mem_of_getLast? hc))).2.2.1 rfl

theorem strip_written (val : List UInt8) : stripQuotes (stripComment (written val)) = cut val := by
  rw [written]
  cases hq : needsQuoting val with
  | true =>
    rw [if_pos rfl]
    -- the closing quote is the first in the value, or the one written behind it
    have hsplit : ∃ rest, splitAt? 0x22 (val ++ [0x22]) = some (cut val, rest) := by
      have hcut : 0x22 ∉ cut val := fun hmem => absurd (List.mem_takeWhile_imp hmem) (by simp)
      have happ : cut val ++ val.dropWhile (fun c => decide (c ≠ 0x22)) = val := List.takeWhile_append_dropWhile
      cases hdrop : val.dropWhile (fun c => decide (c ≠ 0x22)) with
      | nil =>
        rw [hdrop, List.append_nil] at happ
        refine ⟨[], ?_⟩
        nth_rewrite 1 [← happ]
        exact splitAt?_append hcut []
      | cons d rest =>
        have hd := List.head?_dropWhile_not (fun c : UInt8 => decide (c ≠ 0x22)) val
        rw [hdrop] at hd
        obtain rfl : d = 0x22 := by simpa using hd
        refine ⟨rest ++ [0x22], ?_⟩
        nth_rewrite 1 [← happ]
        rw [hdrop, List.append_assoc, List.cons_append]
        exact splitAt?_append hcut _
    obtain ⟨rest, hrest⟩ := hsplit
    have hcomment : stripComment (0x22 :: val ++ [0x22]) = 0x22 :: cut val ++ [0x22] := by
      have hhead : (0x22 :: val ++ [0x22]).head? = some 0x22 := rfl
      rw [stripComment, if_pos hhead]
      exact congrArg (fun o : Option (List UInt8 × List UInt8) =>
        o.elim (0x22 :: val ++ [0x22]) fun p => 0x22 :: p.1 ++ [0x22]) hrest
    have hlast : (0x22 :: cut val ++ [0x22]).getLast? = some 0x22 := List.getLast?_concat
    rw [hcomment, stripQuotes, if_pos ⟨by simp, rfl, hlast⟩]
    exact List.dropLast_concat
  | false =>
    rw [if_neg Bool.false_ne_true]
    obtain ⟨hne, hplain⟩ := plain_of_unquoted hq
    have hquote : 0x22 ∉ val := fun hmem => (plainByte_apart (hplain _ hmem)).1 rfl
    have hhash : 0x23 ∉ val := fun hmem => (plainByte_apart (hplain _ hmem)).2.1 rfl
    have hhead : val.head? ≠ some 0x22 := fun hc => hquote (List.mem_of_head? hc)
    rw [stripComment, if_neg hhead, splitAt?_eq_none hhash, Option.elim_none, stripQuotes, if_neg fun h => hhead h.2.1]
    refine (List.takeWhile_eq_self_iff.mpr fun c hc => decide_eq_true ?_).symm
    rintro rfl
    exact hquote hc

/-- The line of an entry without the blanks at its ends. -/
theorem trimmed_entry {key : List UInt8} (hkey : KeyLike key) {w : List UInt8} (hne : w ≠ []) (hw : Tidy w) :
    ∃ a, trimmed (key ++ 0x20 :: 0x3d :: 0x20 :: w) = a ++ 0x3d :: 0x20 :: w ∧ trimmed a = key ∧ 0x3d ∉ a ∧
      a.head? ≠ some 0x23 := by
  have hback : ∀ l : List UInt8, (l ++ w).getLast? = w.getLast? := fun l => List.getLast?_append_of_ne_nil l hne
  cases key with
  | nil =>
    have htidy : Tidy (0x3d :: 0x20 :: w) := by
      refine ⟨fun c hc => ?_, fun c hc => hw.back c ?_⟩
      · obtain rfl := Option.some_inj.mp hc
        rfl
      · exact (hback [0x3d, 0x20]).symm.trans hc
    exact ⟨[], htidy.trimmed_eq, rfl, List.not_mem_nil, (fun h => by cases h)⟩
  | cons c key =>
    have htidy : Tidy (c :: key ++ 0x20 :: 0x3d :: 0x20 :: w) := by
      refine ⟨fun d hd => hkey.tidy.front d hd, fun d hd => hw.back d ?_⟩
      rw [← hd, ← hback (c :: key ++ [0x20, 0x3d, 0x20]), List.append_assoc]
      rfl
    refine ⟨c :: key ++ [0x20], ?_, ?_, ?_, hkey.noHash⟩
    · rw [htidy.trimmed_eq, List.append_assoc]
      rfl
    · have hfront : isSpace c = false := hkey.tidy.front c rfl
      rw [trimmed, trim, List.cons_append, List.dropWhile_cons_of_neg (by simp [hfront]), ← List.cons_append,
        List.rdropWhile_concat_pos _ _ _ rfl]
      refine List.rdropWhile_eq_self_iff.mpr fun hl => ?_
      rw [hkey.tidy.back _ (List.getLast?_eq_some_getLast hl)]
      exact Bool.false_ne_true
    · intro h
      rcases List.mem_append.mp h with h | h
      · exact hkey.noEquals h
      · exact absurd (List.mem_singleton.mp h) (by decide)

/-- The line of an entry gives the entry, up to the first quote in its value. -/
theorem TomlLoad.line_entry (s : TomlLoad) {key : List UInt8} (hkey : KeyLike key) (value : List UInt8) :
    s.line (key ++ spelling " = " ++ written value) =
      { s with reader := s.reader.set s.current key (cut value) } := by
  obtain ⟨hne, hw, hlast⟩ := written_ends value
  obtain ⟨a, ha, hka, heq, hhash⟩ := trimmed_entry hkey hne hw
  have hline : key ++ spelling " = " ++ written value = key ++ 0x20 :: 0x3d :: 0x20 :: written value := by
    rw [List.append_assoc]
    rfl
  have hnil : ¬ (a ++ 0x3d :: 0x20 :: written value = [] ∨ (a ++ 0x3d :: 0x20 :: written value).head? = some 0x23) := by
    rintro (h | h)
    · exact absurd h (by simp)
    · cases a with
      | nil =>
        have hc : (0x3d : UInt8) = 0x23 := Option.some_inj.mp h
        exact absurd hc (by decide)
      | cons c a => exact hhash h
  have hheader : ¬ ((a ++ 0x3d :: 0x20 :: written value).head? = some 0x5b ∧
      (a ++ 0x3d :: 0x20 :: written value).getLast? = some 0x5d) := by
    rintro ⟨-, h⟩
    refine hlast (h ▸ ?_)
    have happ : a ++ 0x3d :: 0x20 :: written value = (a ++ [0x3d, 0x20]) ++ written value := by
      rw [List.append_assoc]
      rfl
    rw [happ, List.getLast?_append_of_ne_nil _ hne]
  have hval : trimmed (0x20 :: written value) = written value := by
    refine Eq.trans ?_ hw.trimmed_eq
    rw [trimmed, trim, List.dropWhile_cons_of_pos rfl]
    rfl
  rw [TomlLoad.line, hline, ha]
  dsimp only
  rw [if_neg hnil, if_neg hheader, splitAt?_append heq]
  dsimp only
  rw [hka, hval, strip_written]

theorem TomlLoad.line_header (s : TomlLoad) {name : List UInt8} (hname : Tidy name) :
    s.line (0x5b :: name ++ [0x5d]) = { reader := s.reader.ensureSection name, current := name } := by
  have hlast : (0x5b :: name ++ [0x5d]).getLast? = some 0x5d := List.getLast?_concat
  have htidy : Tidy (0x5b :: name ++ [0x5d]) := tidy_between rfl rfl name
  have hnil : ¬ (0x5b :: name ++ [0x5d] = [] ∨ (0x5b :: name ++ [0x5d]).head? = some 0x23) := by
    rintro (h | h)
    · cases h
    · have hc : (0x5b : UInt8) = 0x23 := Option.some_inj.mp h
      exact absurd hc (by decide)
  have hinner : (0x5b :: name ++ [0x5d]).tail.dropLast = name := List.dropLast_concat
  rw [TomlLoad.line, htidy.trimmed_eq]
  dsimp only
  rw [if_neg hnil, if_pos ⟨rfl, hlast⟩, hinner, hname.trimmed_eq]

theorem TomlLoad.line_blank (s : TomlLoad) : s.line [] = s := rfl

/-! ## The saved file -/

def entryLine (e : List UInt8 × List UInt8) : List UInt8 := e.1 ++ spelling " = " ++ written e.2

def sectionLines (s : List UInt8 × List (List UInt8 × List UInt8)) : List (List UInt8) :=
  (if s.1 = [] then [] else [0x5b :: s.1 ++ [0x5d]]) ++ s.2.map entryLine

def savedLines : List (List UInt8 × List (List UInt8 × List UInt8)) → List (List UInt8)
  | [] => []
  | s :: rest => sectionLines s ++ rest.flatMap fun s => [] :: sectionLines s

theorem saveSection_eq (s : List UInt8 × List (List UInt8 × List UInt8)) :
    saveSection s = (sectionLines s).flatMap fun l => l ++ [0x0a] := by
  have hentries : s.2.flatMap saveEntry = (s.2.map entryLine).flatMap fun l => l ++ [0x0a] :=
    (List.flatMap_map entryLine (fun l => l ++ [0x0a]) s.2).symm
  rw [saveSection, sectionLines, List.flatMap_append, hentries]
  refine congrArg (· ++ _) ?_
  split
  · rfl
  · simp

theorem save_eq (r : TomlReader) : r.save = (savedLines r.sections).flatMap fun l => l ++ [0x0a] := by
  rw [TomlReader.save]
  cases r.sections with
  | nil => rfl
  | cons s rest =>
    dsimp only
    rw [savedLines, List.flatMap_append, saveSection_eq, List.flatMap_assoc]
    refine congrArg (_ ++ ·) (congrArg (List.flatMap · rest) (funext fun s => ?_))
    rw [List.flatMap_cons, saveSection_eq]
    rfl

theorem getlines_flatMap {ls : List (List UInt8)} (h : ∀ l ∈ ls, 0x0a ∉ l) :
    getlines (ls.flatMap fun l => l ++ [0x0a]) = ls := by
  induction ls with
  | nil => rfl
  | cons l ls ih =>
    have hfirst : (l :: ls).flatMap (fun l => l ++ [0x0a]) = l ++ 0x0a :: ls.flatMap fun l => l ++ [0x0a] := by
      rw [List.flatMap_cons, List.append_assoc]
      rfl
    rw [getlines, hfirst, lines_separated (h l List.mem_cons_self), List.map_cons, chomp_concat]
    exact congrArg (l :: ·) (ih fun l' hl' => h l' (List.mem_cons_of_mem l hl'))

theorem notMem_written {value : List UInt8} (h : 0x0a ∉ value) : 0x0a ∉ written value := by
  rw [written]
  split
  · intro hmem
    rcases List.mem_append.mp hmem with hmem | hmem
    · exact h ((List.mem_cons.mp hmem).resolve_left (by decide))
    · exact absurd (List.mem_singleton.mp hmem) (by decide)
  · exact h

theorem notMem_sectionLines {r : TomlReader} (h : r.Shaped) {s : List UInt8 × List (List UInt8 × List UInt8)}
    (hs : s ∈ r.sections) : ∀ l ∈ sectionLines s, 0x0a ∉ l := by
  intro l hl
  rcases List.mem_append.mp hl with hl | hl
  · split at hl
    · exact absurd hl List.not_mem_nil
    · obtain rfl := List.mem_singleton.mp hl
      intro hmem
      rcases List.mem_append.mp hmem with hmem | hmem
      · exact (h.name s hs).noNewline ((List.mem_cons.mp hmem).resolve_left (by decide))
      · exact absurd (List.mem_singleton.mp hmem) (by decide)
  · obtain ⟨e, he, rfl⟩ := List.mem_map.mp hl
    intro hmem
    rcases List.mem_append.mp hmem with hmem | hmem
    · rcases List.mem_append.mp hmem with hmem | hmem
      · exact (h.key s hs e he).noNewline hmem
      · exact absurd hmem (by decide)
    · exact notMem_written (h.value s hs e he) hmem

theorem notMem_savedLines {r : TomlReader} (h : r.Shaped) : ∀ l ∈ savedLines r.sections, 0x0a ∉ l := by
  have hsection := fun s hs => notMem_sectionLines h (s := s) hs
  cases hr : r.sections with
  | nil => exact fun l hl => absurd hl List.not_mem_nil
  | cons s rest =>
    rw [hr] at hsection
    intro l hl
    rcases List.mem_append.mp hl with hl | hl
    · exact hsection s List.mem_cons_self l hl
    · obtain ⟨s', hs', hl⟩ := List.mem_flatMap.mp hl
      rcases List.mem_cons.mp hl with rfl | hl
      · exact List.not_mem_nil
      · exact hsection s' (List.mem_cons_of_mem s hs') l hl

/-- What is read back of a configuration that is saved. -/
def TomlReader.reload (r : TomlReader) : TomlReader := (({} : TomlReader).load (some r.save)).1

theorem reload_eq {r : TomlReader} (h : r.Shaped) :
    r.reload = ((savedLines r.sections).foldl TomlLoad.line {}).reader := by
  rw [TomlReader.reload, TomlReader.load]
  dsimp only
  rw [save_eq, getlines_flatMap (notMem_savedLines h)]

/-! ## The round trip -/

def TomlReader.entriesOf (name : List UInt8) (r : TomlReader) : List (List UInt8 × List UInt8) :=
  (rowOf name r.sections).getD []

def cutEntries (es : List (List UInt8 × List UInt8)) : List (List UInt8 × List UInt8) :=
  es.map fun e => (e.1, cut e.2)

namespace TomlReader

theorem find?_eq (section_ key : List UInt8) (r : TomlReader) :
    r.find? section_ key = rowOf key (r.entriesOf section_) := by
  rw [find?, entriesOf]
  cases rowOf section_ r.sections <;> rfl

theorem entriesOf_ensureSection (name name' : List UInt8) (r : TomlReader) :
    (r.ensureSection name).entriesOf name' = r.entriesOf name' := by
  rw [entriesOf, entriesOf, ensureSection, rowOf_adjust]
  split
  · rename_i h
    subst h
    cases rowOf name' r.sections <;> rfl
  · rfl

theorem entriesOf_set (name key value name' : List UInt8) (r : TomlReader) :
    (r.set name key value).entriesOf name' =
      if name' = name then assign key value (r.entriesOf name') else r.entriesOf name' := by
  rw [entriesOf, entriesOf, set, rowOf_adjust]
  split
  · rename_i h
    rw [h]
    rfl
  · rfl

end TomlReader

theorem foldl_assign {es row : List (List UInt8 × List UInt8)} (hes : ((row ++ es).map Prod.fst).Nodup) :
    es.foldl (fun row e => assign e.1 (cut e.2) row) row = row ++ cutEntries es := by
  induction es generalizing row with
  | nil => exact (List.append_nil row).symm
  | cons e es ih =>
    have hnew : e.1 ∉ row.map Prod.fst := by
      rw [List.map_append] at hes
      intro hmem
      exact (List.nodup_append.mp hes).2.2 _ hmem _ (List.mem_map_of_mem List.mem_cons_self) rfl
    rw [List.foldl_cons, assign_of_notMem hnew, ih ?_, List.append_assoc]
    · rfl
    · rw [List.map_append, List.map_append, List.append_assoc]
      rw [List.map_append] at hes
      exact hes

theorem foldl_entries {es : List (List UInt8 × List UInt8)} (hes : ∀ e ∈ es, KeyLike e.1) (s : TomlLoad) :
    ((es.map entryLine).foldl TomlLoad.line s).current = s.current ∧
      ∀ name, ((es.map entryLine).foldl TomlLoad.line s).reader.entriesOf name =
        if name = s.current then es.foldl (fun row e => assign e.1 (cut e.2) row) (s.reader.entriesOf name)
        else s.reader.entriesOf name := by
  induction es generalizing s with
  | nil => exact ⟨rfl, fun name => (ite_self _).symm⟩
  | cons e es ih =>
    rw [List.map_cons, List.foldl_cons, entryLine, s.line_entry (hes e List.mem_cons_self) e.2]
    obtain ⟨hcur, hentries⟩ := ih (fun e' he' => hes e' (List.mem_cons_of_mem e he'))
      { s with reader := s.reader.set s.current e.1 (cut e.2) }
    refine ⟨hcur, fun name => ?_⟩
    rw [hentries, TomlReader.entriesOf_set, List.foldl_cons]
    dsimp only
    split <;> rfl

theorem foldl_section {sec : List UInt8 × List (List UInt8 × List UInt8)} (hname : NameLike sec.1)
    (hkey : ∀ e ∈ sec.2, KeyLike e.1) (s : TomlLoad) :
    ((sectionLines sec).foldl TomlLoad.line s).current = (if sec.1 = [] then s.current else sec.1) ∧
      ∀ name, ((sectionLines sec).foldl TomlLoad.line s).reader.entriesOf name =
        if name = (if sec.1 = [] then s.current else sec.1) then
          sec.2.foldl (fun row e => assign e.1 (cut e.2) row) (s.reader.entriesOf name)
        else s.reader.entriesOf name := by
  rw [sectionLines, List.foldl_append]
  by_cases hnil : sec.1 = []
  · rw [if_pos hnil, if_pos hnil]
    exact foldl_entries hkey s
  · rw [if_neg hnil, if_neg hnil, List.foldl_cons, List.foldl_nil, s.line_header hname.tidy]
    obtain ⟨hcur, hentries⟩ := foldl_entries hkey { reader := s.reader.ensureSection sec.1, current := sec.1 }
    refine ⟨hcur, fun name => ?_⟩
    rw [hentries, TomlReader.entriesOf_ensureSection]

theorem foldl_savedLines_concat (ss : List (List UInt8 × List (List UInt8 × List UInt8)))
    (sec : List UInt8 × List (List UInt8 × List UInt8)) (s : TomlLoad) :
    (savedLines (ss ++ [sec])).foldl TomlLoad.line s =
      (sectionLines sec).foldl TomlLoad.line ((savedLines ss).foldl TomlLoad.line s) := by
  cases ss with
  | nil => exact congrArg (List.foldl TomlLoad.line s) (List.append_nil (sectionLines sec))
  | cons c ss =>
    rw [List.cons_append, savedLines, savedLines, List.flatMap_append, List.flatMap_singleton, List.foldl_append,
      List.foldl_append, List.foldl_append, List.foldl_cons, TomlLoad.line_blank]

/-- The entries without a header stand first, if there are any. -/
def TomlReader.Headed (r : TomlReader) : Prop :=
  ∀ before es after, r.sections = before ++ ([], es) :: after → before = [] ∨ es = []

def TomlReader.Unquoted (r : TomlReader) : Prop :=
  ∀ name key value, r.find? name key = some value → 0x22 ∉ value

theorem TomlReader.Shaped.prefix {before after : List (List UInt8 × List (List UInt8 × List UInt8))}
    (h : TomlReader.Shaped { sections := before ++ after }) : TomlReader.Shaped { sections := before } := by
  have hmem : ∀ s ∈ before, s ∈ before ++ after := fun s hs => List.mem_append_left _ hs
  refine ⟨?_, fun s hs => h.name s (hmem s hs), fun s hs => h.keys s (hmem s hs), fun s hs => h.key s (hmem s hs),
    fun s hs => h.value s (hmem s hs)⟩
  have hnames := h.names
  dsimp only at hnames ⊢
  rw [List.map_append] at hnames
  exact (List.nodup_append.mp hnames).1

/-- Each section is read back, its values up to their first quotes. -/
theorem entriesOf_saved {ss : List (List UInt8 × List (List UInt8 × List UInt8))}
    (h : TomlReader.Shaped { sections := ss }) (hheaded : TomlReader.Headed { sections := ss }) (name : List UInt8) :
    ((savedLines ss).foldl TomlLoad.line {}).reader.entriesOf name =
      cutEntries (TomlReader.entriesOf name { sections := ss }) := by
  induction ss using List.reverseRecOn generalizing name with
  | nil => rfl
  | append_singleton ss sec ih =>
    have hmem : sec ∈ ss ++ [sec] := List.mem_append_right _ List.mem_cons_self
    have hprefix : TomlReader.Headed { sections := ss } := by
      intro before es after hss
      refine hheaded before es (after ++ [sec]) ?_
      dsimp only at hss ⊢
      rw [hss, List.append_assoc, List.cons_append]
    have hih := ih h.prefix hprefix
    have hnew : sec.1 ∉ ss.map Prod.fst := by
      have hnames := h.names
      dsimp only at hnames
      rw [List.map_append] at hnames
      intro hold
      exact (List.nodup_append.mp hnames).2.2 _ hold _ List.mem_cons_self rfl
    obtain ⟨-, hentries⟩ := foldl_section (h.name sec hmem) (h.key sec hmem) ((savedLines ss).foldl TomlLoad.line {})
    have hrow : TomlReader.entriesOf sec.1 { sections := ss } = [] := by
      rw [TomlReader.entriesOf, rowOf_eq_none hnew]
      rfl
    have hself : TomlReader.entriesOf sec.1 { sections := ss ++ [sec] } = sec.2 := by
      rw [TomlReader.entriesOf, rowOf_append, rowOf_eq_none hnew, Option.none_or, rowOf_cons, if_pos rfl]
      rfl
    have hother : ∀ name, name ≠ sec.1 → TomlReader.entriesOf name { sections := ss ++ [sec] } =
        TomlReader.entriesOf name { sections := ss } := by
      intro name hne
      rw [TomlReader.entriesOf, TomlReader.entriesOf, rowOf_append, rowOf_cons, if_neg (Ne.symm hne), rowOf_nil,
        Option.or_none]
    rw [foldl_savedLines_concat, hentries, hih]
    by_cases hcur : sec.1 = [] ∧ ss ≠ []
    · -- entries without a header, behind another section: there are none
      have hnone : sec.2 = [] := by
        refine (hheaded ss sec.2 [] ?_).resolve_left hcur.2
        dsimp only
        rw [← hcur.1]
      rw [hnone]
      refine (ite_self _).trans ?_
      by_cases hne : name = sec.1
      · rw [hne, hrow, hself, hnone]
        rfl
      · rw [hother name hne]
        rfl
    · have hcurrent : (if sec.1 = [] then ((savedLines ss).foldl TomlLoad.line {}).current else sec.1) = sec.1 := by
        split
        · rename_i hnil
          have hss : ss = [] := by
            by_contra hne
            exact hcur ⟨hnil, hne⟩
          rw [hss, hnil]
          rfl
        · rfl
      rw [hcurrent]
      by_cases hne : name = sec.1
      · rw [if_pos hne, hne, hrow, hself]
        have hkeys := h.keys sec hmem
        exact foldl_assign hkeys
      · rw [if_neg hne, hother name hne]

/-- Behind a section with a name nothing goes to the entries without a
header. -/
theorem entriesOf_headless {first : List UInt8 × List (List UInt8 × List UInt8)}
    {ss : List (List UInt8 × List (List UInt8 × List UInt8))}
    (h : TomlReader.Shaped { sections := first :: ss }) (hfirst : first.1 ≠ []) :
    ((savedLines (first :: ss)).foldl TomlLoad.line {}).current ≠ [] ∧
      ((savedLines (first :: ss)).foldl TomlLoad.line {}).reader.entriesOf [] = [] := by
  induction ss using List.reverseRecOn with
  | nil =>
    obtain ⟨hcur, hentries⟩ := foldl_section (h.name first List.mem_cons_self) (h.key first List.mem_cons_self) {}
    have hlines : savedLines [first] = sectionLines first := List.append_nil _
    rw [hlines, hcur, hentries, if_neg hfirst, if_neg (Ne.symm hfirst)]
    exact ⟨hfirst, rfl⟩
  | append_singleton ss sec ih =>
    rw [← List.cons_append] at h ⊢
    have hmem : sec ∈ first :: ss ++ [sec] := List.mem_append_right _ List.mem_cons_self
    obtain ⟨hne, hnone⟩ := ih h.prefix
    obtain ⟨hcur, hentries⟩ := foldl_section (h.name sec hmem) (h.key sec hmem)
      ((savedLines (first :: ss)).foldl TomlLoad.line {})
    have hcur' : (if sec.1 = [] then ((savedLines (first :: ss)).foldl TomlLoad.line {}).current else sec.1) ≠ [] := by
      split
      · exact hne
      · assumption
    rw [foldl_savedLines_concat, hcur, hentries, if_neg (Ne.symm hcur')]
    exact ⟨hcur', hnone⟩

/-- Under every key of every section the same is read back. -/
def TomlReader.RoundTrips (r : TomlReader) : Prop :=
  ∀ name key, r.reload.has name key = r.has name key ∧
    ∀ default, r.reload.getString name key default = r.getString name key default

theorem roundTrips_iff_find? {r : TomlReader} :
    r.RoundTrips ↔ ∀ name key, r.reload.find? name key = r.find? name key := by
  constructor
  · intro h name key
    obtain ⟨hhas, hget⟩ := h name key
    rw [TomlReader.has, TomlReader.has] at hhas
    have hval := hget []
    rw [TomlReader.getString, TomlReader.getString] at hval
    cases hr : r.find? name key with
    | none =>
      rw [hr] at hhas
      exact Option.isNone_iff_eq_none.mp (by rw [← Option.not_isSome, hhas]; rfl)
    | some value =>
      rw [hr] at hhas hval
      obtain ⟨value', hvalue'⟩ := Option.isSome_iff_exists.mp hhas
      rw [hvalue'] at hval ⊢
      exact congrArg some hval
  · intro h name key
    rw [TomlReader.has, TomlReader.has, h]
    refine ⟨rfl, fun default => ?_⟩
    rw [TomlReader.getString, TomlReader.getString, h]

theorem cut_eq_self_iff {value : List UInt8} : cut value = value ↔ 0x22 ∉ value := by
  rw [cut, List.takeWhile_eq_self_iff]
  exact ⟨fun h hmem => absurd (h _ hmem) (by decide), fun h c hc => decide_eq_true fun heq => h (heq ▸ hc)⟩

/-- Under a header what is read back is the value up to its first quote. -/
theorem find?_reload {r : TomlReader} (h : r.Shaped) (hheaded : r.Headed) (name key : List UInt8) :
    r.reload.find? name key = (r.find? name key).map cut := by
  rw [reload_eq h, TomlReader.find?_eq, TomlReader.find?_eq, entriesOf_saved h hheaded]
  exact rowOf_mapRows cut key _

/-- **Saving and reading back** is lossless if and only if no value has a quote
and the entries without a header, if there are any, stand first. -/
theorem roundTrips_iff {r : TomlReader} (h : Reached r) : r.RoundTrips ↔ r.Unquoted ∧ r.Headed := by
  have hshaped := h.shaped
  rw [roundTrips_iff_find?]
  constructor
  · intro hsame
    have hheaded : r.Headed := by
      intro before es after hsections
      by_contra hno
      obtain ⟨hbefore, hes⟩ := not_or.mp hno
      obtain ⟨first, rest, rfl⟩ := List.exists_cons_of_ne_nil hbefore
      have hnames := hshaped.names
      rw [hsections, List.map_append, List.map_cons, List.map_cons] at hnames
      -- the first section is another one
      have hfirst : first.1 ≠ [] := fun hnil =>
        (List.nodup_append.mp hnames).2.2 _ List.mem_cons_self _ List.mem_cons_self hnil
      have hnone : r.reload.entriesOf [] = [] := by
        have hfile : TomlReader.Shaped { sections := first :: (rest ++ ([], es) :: after) } := by
          have hr : r = { sections := first :: (rest ++ ([], es) :: after) } :=
            congrArg TomlReader.mk hsections
          exact hr ▸ hshaped
        rw [reload_eq hshaped, hsections]
        exact (entriesOf_headless hfile hfirst).2
      obtain ⟨e, es', rfl⟩ := List.exists_cons_of_ne_nil hes
      have hfind : r.find? [] e.1 = some e.2 := by
        have hrow : rowOf [] r.sections = some (e :: es') := by
          have hnot : [] ∉ (first :: rest).map Prod.fst := fun hmem =>
            (List.nodup_append.mp hnames).2.2 _ hmem _ List.mem_cons_self rfl
          rw [hsections, rowOf_append, rowOf_eq_none hnot, Option.none_or, rowOf_cons, if_pos rfl]
        rw [TomlReader.find?, hrow, Option.bind_some, rowOf_cons, if_pos rfl]
      have hlost := hsame [] e.1
      rw [hfind, TomlReader.find?_eq, hnone] at hlost
      cases hlost
    refine ⟨fun name key value hvalue => ?_, hheaded⟩
    have hback := hsame name key
    rw [find?_reload hshaped hheaded, hvalue] at hback
    exact cut_eq_self_iff.mp (Option.some_inj.mp hback)
  · rintro ⟨hunquoted, hheaded⟩ name key
    rw [find?_reload hshaped hheaded]
    cases hvalue : r.find? name key with
    | none => rfl
    | some value => exact congrArg some (cut_eq_self_iff.mpr (hunquoted name key value hvalue))

theorem roundTrips_iff_loaded :
    (({} : TomlReader).load (some (spelling "fps = 60\n[ui]\ntitle = \x22a # b\x22\n"))).1.RoundTrips ↔
      (({} : TomlReader).load (some (spelling "fps = 60\n[ui]\ntitle = \x22a # b\x22\n"))).1.Unquoted ∧
        (({} : TomlReader).load (some (spelling "fps = 60\n[ui]\ntitle = \x22a # b\x22\n"))).1.Headed :=
  roundTrips_iff (.load _ .empty)

/-- A value with a quote in it is read from a file, written, and read back as
what comes before the quote. -/
theorem not_roundTrips_quote : ¬ ∀ r, Reached r → r.RoundTrips := by
  intro h
  have hback := (h _ (.load (some (spelling "x = a\x22b")) .empty) [] (spelling "x")).2 []
  exact absurd hback (by decide)

end Montauk.App
