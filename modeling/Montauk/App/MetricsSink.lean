import Montauk.Emit.Families

/-!
# What the renderers are written in

The names, help texts and labels of `MetricsSink`'s calls as literals, its
typed methods, and the arithmetic on doubles that stands in the renderers. A
name's validity is checked where the literal is read (`ident`).
-/

namespace Montauk.App

open Emit
open Json (utf8)

/-! ## Literals -/

def spelling (s : String) : List UInt8 := s.toByteArray.data.toList

/-- `identByte`, as a mask of the 256 bytes. -/
def identBit (c : UInt8) : Bool := Nat.testBit 0x7fffffe87fffffe07ff000000000000 c.toNat

theorem identBit_eq (c : UInt8) : identBit c = identByte c := by
  refine forall_byte (P := fun c => identBit c = identByte c) ?_ c
  decide +kernel

/-- The name a literal spells; no literal below is anything else. -/
def ident (s : String) : Ident :=
  if h : spelling s ≠ [] ∧ (spelling s).all identBit = true then
    { bytes := spelling s
      nonempty := h.1
      valid := fun c hc => identBit_eq c ▸ List.all_eq_true.mp h.2 c hc }
  else
    { bytes := [0x5f]
      nonempty := List.cons_ne_nil _ _
      valid := by decide +kernel }

def literal (s : String) : OneLine :=
  if h : Ch.newline ∉ spelling s then ⟨spelling s, h⟩ else ⟨[], List.not_mem_nil⟩

def gauge (name help : String) : MetricDesc where
  prom_name := ident name
  help := literal help
  kind := .gauge

def counter (name help : String) : MetricDesc where
  prom_name := ident name
  help := literal help
  kind := .counter

def label (key : String) (value : List UInt8) : Label where
  key := ident key
  value := value

/-- A name as a number, to compare names by. -/
def nameNumber (i : Ident) : Nat := i.bytes.foldl (fun n c => n * 256 + c.toNat) 0

theorem nodup_idents {ss : List String}
    (h : (ss.map fun s => nameNumber (ident s)).Nodup) : (ss.map ident).Nodup := by
  refine List.Nodup.of_map nameNumber ?_
  rwa [List.map_map]

/-! ## The methods -/

section

variable {D : Type}

def f64 (d : MetricDesc) (v : D) : MetricDesc × MetricValue D := (d, .f64 v)

def u64 (d : MetricDesc) (v : UInt64) : MetricDesc × MetricValue D := (d, .u64 v)

def i64 (d : MetricDesc) (v : Int64) : MetricDesc × MetricValue D := (d, .i64 v)

def boolean (d : MetricDesc) (v : Bool) : MetricDesc × MetricValue D := i64 d (if v then 1 else 0)

def labeled_f64 (d : MetricDesc) (labels : List Label) (v : D) : SinkCall D :=
  .labeled d labels (.f64 v)

def labeled_u64 (d : MetricDesc) (labels : List Label) (v : UInt64) : SinkCall D :=
  .labeled d labels (.u64 v)

def labeled_i64 (d : MetricDesc) (labels : List Label) (v : Int64) : SinkCall D :=
  .labeled d labels (.i64 v)

end

/-- The arithmetic of doubles in the renderers; `fixed1` is `%.1f`. -/
structure Doubles (D : Type) extends DoubleText D where
  ofNat : Nat → D
  mul : D → D → D
  div : D → D → D
  lt : D → D → Bool
  fixed1 : D → List UInt8

/-! ## Rows with one set of labels -/

section

variable {D R : Type} {lib : DoubleText D} {ns : List Ident} {entry : R → List (SinkCall D)}
  {key : R → List Label}

def Plain (labels : List Label) : SinkCall D → Prop
  | .labeled _ ms _ => ms = labels
  | _ => False

theorem rowsOf_plain {d : MetricDesc} {v : R → MetricValue D} {rest : R → List (SinkCall D)}
    (hentry : ∀ r, entry r = .labeled d (key r) (v r) :: rest r)
    (hrest : ∀ r, ∀ c ∈ rest r, Plain (key r) c) {ks : List Ident}
    (hks : ∀ r, (key r).map Label.key = ks) (hnd : ks.Nodup)
    (hnames : ∀ r, ((entry r).filterMap SinkCall.kept?).Sublist ns) : RowsOf ns entry key := by
  have hkeys : ∀ r, ((key r).map Label.key).Nodup := by
    intro r
    rw [hks r]
    exact hnd
  refine ⟨hnames, ?_, fun r r' => (hks r).trans (hks r').symm, d, ?_⟩
  · intro r c hc
    rw [hentry r] at hc
    rcases List.mem_cons.mp hc with rfl | hc
    · exact ⟨List.prefix_rfl, hkeys r⟩
    · have hplain := hrest r c hc
      cases c with
      | labeled d' ms v' =>
        cases hplain
        exact ⟨List.prefix_rfl, hkeys r⟩
      | _ => cases hplain
  · intro r
    rw [hentry r]
    exact ⟨v r, List.mem_cons_self⟩

theorem covers_rows_when (h : RowsOf ns entry key) (rows : List R) :
    Covers lib ns (when (!rows.isEmpty) [.collection (rows.map entry)])
      ((rows.map key).Nodup) := by
  refine ((Covers.rows h rows).when _).congr ?_
  cases rows with
  | nil => simp
  | cons r rows => simp

end

theorem sublist_when {α : Type} (c : Bool) (xs : List α) : (when c xs).Sublist xs := by
  cases c with
  | true => exact List.Sublist.refl xs
  | false => exact List.nil_sublist xs

theorem filterMap_when {α β : Type} (f : α → Option β) (c : Bool) (xs : List α) :
    (when c xs).filterMap f = when c (xs.filterMap f) := by
  cases c <;> rfl

theorem mem_when {α : Type} {c : Bool} {xs : List α} {x : α} :
    x ∈ when c xs ↔ c = true ∧ x ∈ xs := by
  cases c <;> simp [when]

theorem nodup_keys_iff {α β γ : Type} {key : α → β} {fields : α → γ}
    (h : ∀ a b, key a = key b ↔ fields a = fields b) (rows : List α) :
    (rows.map key).Nodup ↔ (rows.map fields).Nodup := by
  rw [List.Nodup, List.Nodup, List.pairwise_map, List.pairwise_map]
  constructor
  · exact fun hp => hp.imp fun hne hf => hne ((h _ _).mpr hf)
  · exact fun hp => hp.imp fun hne hf => hne ((h _ _).mp hf)

theorem label_inj {k : String} {v w : List UInt8} : label k v = label k w ↔ v = w := by
  simp [label]

theorem decimal_inj {m n : Int} : decimal m = decimal n ↔ m = n := by
  refine ⟨fun h => ?_, fun h => h ▸ rfl⟩
  have hm := Json.parse_text (.int m)
  have hn := Json.parse_text (.int n)
  have htext : ∀ k : Int, Json.text (.int k) = Json.intText k := by
    intro k
    simp only [Json.text, Json.textAt]
  rw [htext] at hm hn
  rw [decimal, decimal] at h
  rw [h, hn] at hm
  cases hm
  rfl

end Montauk.App
