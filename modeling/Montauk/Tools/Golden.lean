import Montauk.App.MetricsSink
import Montauk.Collect.Provider

/-!
# Goldens

What a run is frozen to and checked against: a text with one fact a line, the
class of each report and the gauges somebody chose to watch. `writeGolden`
makes the text, `readGolden` reads it, `checkGolden` compares a run with it.

The numbers go through `printf` and `strtod`, which are a parameter with the
laws documented for them. A gauge line goes through a buffer of 512 bytes.
-/

namespace Montauk.Tools

open Scan Ch
open App (spelling)
open Collect (isBlank)

/-! ## Numbers -/

def wordByte (c : UInt8) : Bool := !isBlank c && c ≠ newline

/-- Libc: four `printf` formats and `strtod`, which tells how many bytes it
has read, and the arithmetic of the band. -/
structure Libc (F : Type) where
  /-- `%.4f` -/
  fixed4 : F → List UInt8
  /-- `%.6f` -/
  fixed6 : F → List UInt8
  /-- `%.6g` -/
  general6 : F → List UInt8
  /-- `%.10g` -/
  general10 : F → List UInt8
  strtod : List UInt8 → F × Nat
  zero : F
  one : F
  hundred : F
  /-- 0.95 -/
  whole : F
  ofUInt64 : UInt64 → F
  sub : F → F → F
  mul : F → F → F
  div : F → F → F
  fabs : F → F
  lt : F → F → Bool
  le : F → F → Bool
  finite : F → Prop
  /-- At most ten significant decimal digits. -/
  digits10 : F → Prop
  /-- At most four decimals. -/
  decimals4 : F → Prop
  words : ∀ v, ∀ text ∈ [fixed4 v, fixed6 v, general6 v, general10 v],
    text ≠ [] ∧ ∀ c ∈ text, wordByte c = true ∧ c ≠ 0
  fixed4_length : ∀ v, (fixed4 v).length ≤ 315
  general6_length : ∀ v, (general6 v).length ≤ 13
  general10_length : ∀ v, (general10 v).length ≤ 17
  strtod_fixed4 : ∀ v, decimals4 v → strtod (fixed4 v) = (v, (fixed4 v).length)
  strtod_general6 : ∀ v, finite v → (strtod (general6 v)).2 = (general6 v).length
  strtod_general10 : ∀ v, digits10 v → strtod (general10 v) = (v, (general10 v).length)
  general6_nonneg : ∀ v, finite v → le zero v = true → le zero (strtod (general6 v)).1 = true
  digits10_finite : ∀ v, digits10 v → finite v
  decimals4_finite : ∀ v, decimals4 v → finite v
  sub_self : ∀ v, finite v → sub v v = zero
  fabs_zero : fabs zero = zero
  percent_nonneg : ∀ v t, finite v → finite t → le zero t = true →
    le zero (div (mul (fabs v) t) hundred) = true

/-! ## The data -/

/-- `struct PromMetric`. -/
structure PromMetric (F : Type) where
  name : List UInt8
  labels : List UInt8
  value : F

/-- A report: its name and the class it has published. -/
structure Report where
  name : List UInt8
  klass : List UInt8

/-- How a value was reduced from its source. -/
inductive Reduction where
  | point
  | last
  | mean
  | max
  | min
deriving DecidableEq

def Reduction.word : Reduction → List UInt8
  | .point => spelling "point"
  | .last => spelling "last"
  | .mean => spelling "mean"
  | .max => spelling "max"
  | .min => spelling "min"

/-- `struct GoldenGauge`. -/
structure GoldenGauge (F : Type) where
  key : List UInt8
  value : F
  tolPct : F
  floor : F
  tier : List UInt8
  reduction : List UInt8

/-- `struct Golden`. -/
structure Golden (F : Type) where
  version : Int := 0
  workload : List UInt8 := []
  montaukVersion : List UInt8 := []
  envKernel : List UInt8 := []
  envCpu : List UInt8 := []
  envCores : List UInt8 := []
  completeness : List UInt8 := []
  classes : List (List UInt8 × List UInt8) := []
  skipped : List (List UInt8 × List UInt8) := []
  gauges : List (GoldenGauge F) := []

/-- What a freeze and a check find on the machine: the fields of
`fill_environment` and `MONTAUK_VERSION`, lines without their newline. -/
structure Environment where
  kernel : List UInt8
  cpu : List UInt8
  cores : List UInt8
  version : List UInt8

/-- The events observed, and those dropped where the capture has a drop
snapshot. -/
structure Capture where
  observed : UInt64
  dropped : Option UInt64

variable {F : Type} (lib : Libc F)

def gaugeKey (m : PromMetric F) : List UInt8 :=
  if m.labels ≠ [] then m.name ++ (lbrace :: m.labels ++ [rbrace]) else m.name

def isCaptureLimitation (klass : List UInt8) : Bool :=
  [spelling "NO-TOPOLOGY", spelling "NO-PICK-STREAM", spelling "NO-IDLE-STREAM",
    spelling "NO-WAKER-EDGES"].any fun l => klass = l

def captureCompleteness (cap : Capture) : F :=
  let offered := cap.observed + cap.dropped.getD 0
  if 0 < offered then lib.div (lib.ofUInt64 cap.observed) (lib.ofUInt64 offered) else lib.one

/-- `completeness_gate`: 0, or 2 for a refusal. -/
def completenessGate (cap : Capture) (allowUnknown : Bool) : Nat :=
  match cap.dropped with
  | none => if allowUnknown then 0 else 2
  | some _ =>
      if lib.lt (captureCompleteness lib cap) lib.whole then if allowUnknown then 0 else 2 else 0

/-! ## Reading -/

def parseDouble (s : List UInt8) : Option F :=
  let c := cstr s
  let (v, used) := lib.strtod c
  if used = 0 ∨ used < c.length then none else some v

/-- `split_key`: the first word, and the rest with its interior blanks. -/
def splitKey (line : List UInt8) : Option (List UInt8 × List UInt8) :=
  let line := line.dropWhile isBlank
  if line = [] then none
  else
    some (line.takeWhile fun c => !isBlank c,
      (line.dropWhile fun c => !isBlank c).dropWhile isBlank)

/-- A call of `split_key` that writes the rest back into what it splits. -/
def splitOff (r : List UInt8) : List UInt8 × List UInt8 := (splitKey r).getD ([], r)

def digitByte (c : UInt8) : Bool := 0x30 ≤ c && c ≤ 0x39

def atoi (s : List UInt8) : Int :=
  let s := s.dropWhile fun c => c = 0x20 || 0x09 ≤ c && c ≤ 0x0d
  let number := fun s : List UInt8 =>
    ((s.takeWhile digitByte).foldl (fun n c => 10 * n + (c.toNat - 0x30)) 0 : Nat)
  match s with
  | 0x2d :: s => -(number s : Int)
  | 0x2b :: s => number s
  | s => number s

/-- Why a text is no golden, with the number of the line. -/
inductive GoldenError where
  | unknownEnv (lineno : Nat) (what : List UInt8)
  | skippedNeeds (lineno : Nat)
  | classNeeds (lineno : Nat)
  | gaugeNeeds (lineno : Nat)
  | unknownReduction (lineno : Nat) (reduction : List UInt8)
  | unknownKey (lineno : Nat) (key : List UInt8)
  | version (found : Int)
  | noWorkload

/-- `kGoldenFormat`. -/
def goldenFormat : Int := 2

/-- The report and its token, for the two kinds of lines made of them. -/
def readPair (error : GoldenError) (rest : List UInt8) :
    Except GoldenError (List UInt8 × List UInt8) :=
  let (name, tok) := (splitKey rest).getD ([], [])
  if name = [] ∨ tok = [] then .error error else .ok (name, tok)

/-- A `gauge` line: `TIER REDUCTION TOL_PCT FLOOR VALUE KEY...`. -/
def readGauge (lineno : Nat) (rest : List UInt8) : Except GoldenError (GoldenGauge F) :=
  let (tier, r) := splitOff rest
  let (reduction, r) := splitOff r
  let (tolS, r) := splitOff r
  let (floorS, r) := splitOff r
  let (valS, key) := (splitKey r).getD ([], [])
  match parseDouble lib tolS, parseDouble lib floorS, parseDouble lib valS with
  | some tolPct, some floor, some value =>
      if key = [] then .error (.gaugeNeeds lineno)
      else if reduction ≠ Reduction.point.word ∧ reduction ≠ Reduction.last.word
          ∧ reduction ≠ Reduction.mean.word ∧ reduction ≠ Reduction.max.word
          ∧ reduction ≠ Reduction.min.word then
        .error (.unknownReduction lineno reduction)
      else .ok { key, value, tolPct, floor, tier, reduction }
  | _, _, _ => .error (.gaugeNeeds lineno)

/-- An `env` line. -/
def readEnv (lineno : Nat) (g : Golden F) (rest : List UInt8) : Except GoldenError (Golden F) :=
  let (what, val) := (splitKey rest).getD ([], [])
  if what = spelling "kernel" then .ok { g with envKernel := val }
  else if what = spelling "cpu" then .ok { g with envCpu := val }
  else if what = spelling "cores" then .ok { g with envCores := val }
  else .error (.unknownEnv lineno what)

def readKeyed (lineno : Nat) (g : Golden F) (key rest : List UInt8) :
    Except GoldenError (Golden F) :=
  if key = spelling "golden_version" then .ok { g with version := atoi rest }
  else if key = spelling "workload" then .ok { g with workload := rest }
  else if key = spelling "montauk_version" then .ok { g with montaukVersion := rest }
  else if key = spelling "completeness" then .ok { g with completeness := rest }
  else if key = spelling "env" then readEnv lineno g rest
  else if key = spelling "skipped" then
    (readPair (.skippedNeeds lineno) rest).map fun pair => { g with skipped := g.skipped ++ [pair] }
  else if key = spelling "class" then
    (readPair (.classNeeds lineno) rest).map fun pair => { g with classes := g.classes ++ [pair] }
  else if key = spelling "gauge" then
    (readGauge lib lineno rest).map fun gauge => { g with gauges := g.gauges ++ [gauge] }
  else .error (.unknownKey lineno key)

def readGoldenLine (lineno : Nat) (g : Golden F) (line : List UInt8) : Except GoldenError (Golden F) :=
  if line = [] ∨ line.head? = some 0x23 then .ok g
  else
    match splitKey line with
    | none => .ok g
    | some (key, rest) => readKeyed lib lineno g key rest

def readGoldenLines (lineno : Nat) (g : Golden F) : List (List UInt8) → Except GoldenError (Golden F)
  | [] => .ok g
  | line :: rest =>
      match readGoldenLine lib lineno g line with
      | .ok g => readGoldenLines (lineno + 1) g rest
      | .error e => .error e

/-- `read_golden`, on the text of the file. -/
def readGolden (text : List UInt8) : Except GoldenError (Golden F) :=
  match readGoldenLines lib 1 {} (pieces newline text) with
  | .error e => .error e
  | .ok g =>
      if g.version ≠ goldenFormat then .error (.version g.version)
      else if g.workload = [] then .error .noWorkload
      else .ok g

/-! ## Writing -/

/-- `std::string::find` finds `w`. -/
def holds (key w : List UInt8) : Bool := key.tails.any fun t => w.isPrefixOf t

/-- Some `--watch` pattern is in the key. -/
def watches (watch : List (List UInt8)) (m : PromMetric F) : Bool :=
  watch.any fun w => holds (gaugeKey m) w

def tierOf (name : List UInt8) : List UInt8 :=
  if 6 < name.length ∧ name.drop (name.length - 6) = spelling "_total" then spelling "deterministic"
  else spelling "statistical"

/-- What a run is frozen with: tolerance and floor. -/
structure Band (F : Type) where
  tolPct : F
  floor : F

def gaugeHead (band : Band F) (m : PromMetric F) (red : Reduction) : List UInt8 :=
  spelling "gauge " ++ tierOf m.name ++ [0x20] ++ red.word ++ [0x20] ++ lib.fixed4 band.tolPct
    ++ [0x20] ++ lib.general6 band.floor ++ [0x20] ++ lib.general10 m.value ++ [0x20]

/-- The room of `char line[512]`. -/
def lineRoom : Nat := 511

/-- A gauge line, as `snprintf` leaves it. -/
def gaugeLine (band : Band F) (m : PromMetric F) (red : Reduction) : List UInt8 :=
  (gaugeHead lib band m red ++ cstr (gaugeKey m) ++ [newline]).take lineRoom

/-- A metric with the reduction it has in the list beside. -/
def withReductions (reductions : List Reduction) (prom : List (PromMetric F)) :
    List (PromMetric F × Reduction) :=
  prom.zipIdx.map fun (m, mi) => (m, reductions.getD mi .point)

/-- The lines of `fill_environment`. -/
def envLines (host : Environment) : List (List UInt8) :=
  (if host.kernel ≠ [] then [spelling "env kernel " ++ host.kernel] else [])
    ++ (if host.cpu ≠ [] then [spelling "env cpu " ++ host.cpu] else [])
    ++ (if host.cores ≠ [] then [spelling "env cores " ++ host.cores] else [])

/-- The line of a report, if it has a class. -/
def reportLine (r : Report) : List (List UInt8) :=
  if r.klass = [] then []
  else if isCaptureLimitation r.klass then [spelling "skipped " ++ r.name ++ 0x20 :: r.klass]
  else [spelling "class " ++ r.name ++ 0x20 :: r.klass]

def completenessText (cap : Capture) : List UInt8 :=
  match cap.dropped with
  | some _ => lib.fixed6 (captureCompleteness lib cap)
  | none => spelling "unknown"

def frontLines (host : Environment) (label : List UInt8) (cap : Capture) (active : List Report) :
    List (List UInt8) :=
  [spelling "# montauk behavioral golden -- one frozen fact per line.",
    spelling "# Hand-editable: per-key tolerance is editing one gauge line.",
    spelling "golden_version 2", spelling "workload " ++ label,
    spelling "montauk_version " ++ host.version]
    ++ envLines host ++ [spelling "completeness " ++ completenessText lib cap]
    ++ active.flatMap reportLine

def Report.frozen (r : Report) : Bool := r.klass ≠ [] && !isCaptureLimitation r.klass

/-- `write_golden`: the text of the file, or nothing for a refusal. -/
def writeGolden (host : Environment) (label : List UInt8) (active : List Report)
    (prom : List (PromMetric F)) (watch : List (List UInt8)) (band : Band F) (cap : Capture)
    (allowUnknown : Bool) (reductions : List Reduction) : Option (List UInt8) :=
  if completenessGate lib cap allowUnknown ≠ 0 then none
  else
    let watched := (withReductions reductions prom).filter fun p => watches watch p.1
    if watch ≠ [] ∧ watched = [] then none
    else if active.filter Report.frozen = [] ∧ watched = [] then none
    else
      some ((frontLines lib host label cap active).flatMap (fun line => line ++ [newline])
        ++ watched.flatMap fun p => gaugeLine lib band p.1 p.2)

/-! ## Checking -/

/-- A fact that has moved. -/
inductive Moved (F : Type) where
  | functional (name want got : List UInt8)
  | performance (gauge : GoldenGauge F) (actual : F)

inductive CheckResult (F : Type) where
  | declined
  | done (checked : Nat) (failed : List (Moved F))

/-- What `check_golden` returns. -/
def CheckResult.rc : CheckResult F → Nat
  | .declined => 2
  | .done _ failed => if failed = [] then 0 else 1

def CheckResult.failed : CheckResult F → List (Moved F)
  | .declined => []
  | .done _ failed => failed

/-- The facts of a lane one by one, until one cannot be compared. -/
def checkAll {α β : Type} (check : α → Option (List β)) : List α → Option (List β)
  | [] => some []
  | a :: rest => (check a).bind fun failed => (checkAll check rest).map (failed ++ ·)

def checkClass (active : List Report) (frozen : List UInt8 × List UInt8) :
    Option (List (Moved F)) :=
  match active.find? fun r => frozen.1 = r.name with
  | none => none
  | some r =>
      if r.klass = [] then none
      else if r.klass = frozen.2 then some []
      else some [.functional frozen.1 frozen.2 r.klass]

def Libc.max (lib : Libc F) (a b : F) : F := if lib.lt a b then b else a

/-- A value is within the band around a frozen one. -/
def inBand (frozen tolPct floor actual : F) : Bool :=
  let band := lib.max (lib.div (lib.mul (lib.fabs frozen) tolPct) lib.hundred) floor
  lib.le (lib.fabs (lib.sub actual frozen)) band

def checkGauge (prom : List (PromMetric F)) (gauge : GoldenGauge F) : Option (List (Moved F)) :=
  match prom.find? fun p => gaugeKey p = gauge.key with
  | none => none
  | some m =>
      if inBand lib gauge.value gauge.tolPct gauge.floor m.value then some []
      else some [.performance gauge m.value]

def checkGolden (g : Golden F) (wantFunctional wantPerformance : Bool) (active : List Report)
    (prom : List (PromMetric F)) (cap : Capture) (allowUnknown : Bool) : CheckResult F :=
  if completenessGate lib cap allowUnknown ≠ 0 then .declined
  else
    let classes := if wantFunctional then g.classes else []
    let gauges := if wantPerformance then g.gauges else []
    match checkAll (checkClass active) classes with
    | none => .declined
    | some moved =>
        if wantPerformance ∧ g.gauges = [] then .declined
        else
          match checkAll (checkGauge lib prom) gauges with
          | none => .declined
          | some more =>
              if classes.length + gauges.length = 0 then .declined
              else .done (classes.length + gauges.length) (moved ++ more)

end Montauk.Tools
