import EW8.Core.JsonSerializer
import EW8.Core.Settings

/-!
# The brightness control

`BrightnessControl` measures the light at each timeout of its timer, finds the level of the measure
among `lowerPoints`, and moves the brightness of the display by one towards the output that the menu
level in use has for that level. A change of the menu level is followed at once.

What the `double` of the scale file makes of a number is a `Scale`. A read outside an array, and an
exception of `std::stoi`, is a `Fault`.

Proved about every run of timeouts and changes of the menu level:

* *the reads*: a run ends early only at a measure that is not the text of an `int` (`run_spec`);
* *the bounds*: the brightness stays between bounds of the outputs and of what it was at first;
* *the file*: the last line that has been written is the brightness;
* *the approach*: while the measures ask for one output, each timeout is a step to it of one
  (`run_fire`).
-/

namespace EW8.Display

open EW8.Core SortedMap
open scoped SortedMap

/-! ## Numbers of files -/

/-- What there is instead of a result. -/
inductive Fault
  | invalidArgument
  | outOfRange
  | outOfBounds
  deriving DecidableEq

theorem not_exists_ok {α : Type} (f : Fault) : ¬∃ x : α, (.error f : Except Fault α) = .ok x := by
  rintro ⟨x, h⟩
  cases h

/-- The sign in front of digits, and what follows it. -/
def splitSign : List UInt8 → ℤ × List UInt8
  | [] => (1, [])
  | c :: s =>
    if c = '-'.toUInt8 then (-1, s)
    else if c = '+'.toUInt8 then (1, s)
    else (1, c :: s)

/-- `std::stoi`: blanks, a sign and digits; what follows the digits is left. -/
def stoi (str : List UInt8) : Except Fault ℤ :=
  let (sign, s) := splitSign (str.dropWhile isspace)
  let digits := s.takeWhile isdigit
  if digits = [] then .error .invalidArgument
  else if -2147483648 ≤ sign * digitsValue digits ∧ sign * digitsValue digits ≤ 2147483647 then
    .ok (sign * digitsValue digits)
  else .error .outOfRange

/-- `line.empty() ? 0 : std::stoi(line)`. -/
def intOfLine (line : List UInt8) : Except Fault ℤ := if line = [] then .ok 0 else stoi line

/-- `Settings::valueInt`. -/
def valueInt (s : Settings) (key : List UInt8) (defaultValue : ℤ) : ℤ :=
  if s.value key [] = [] then defaultValue
  else
    match stoi (s.value key []) with
    | .ok n => n
    | .error _ => defaultValue

/-- What `scale` makes of a number: a point in the unit of the measures, and a measure in mV. -/
structure Scale where
  point : ℤ → ℤ
  millivolts : ℤ → ℕ

/-! ## The mappings -/

/-- The `outputLevels`: for a menu level, the outputs of `size` levels of light. The five that are
    printed of each are there. -/
structure OutputLevels (size : ℕ) where
  levels : List (ℤ × List ℤ)
  length_eq : ∀ x ∈ levels, x.2.length = size
  five_le : ∀ x ∈ levels, 5 ≤ x.2.length

namespace OutputLevels

variable {size : ℕ} (l : OutputLevels size)

def empty (size : ℕ) : OutputLevels size where
  levels := []
  length_eq _ h := absurd h List.not_mem_nil
  five_le _ h := absurd h List.not_mem_nil

/-- `std::map::insert`: an entry that is there stays. -/
def insertLevels (menuEntry : ℤ) (outputs : List ℤ) : List (ℤ × List ℤ) :=
  if (find? menuEntry l.levels).isSome then l.levels else assign menuEntry outputs l.levels

theorem mem_insertLevels {menuEntry : ℤ} {outputs : List ℤ} {x : ℤ × List ℤ}
    (h : x ∈ l.insertLevels menuEntry outputs) : x = (menuEntry, outputs) ∨ x ∈ l.levels := by
  rw [insertLevels] at h
  split_ifs at h
  · exact .inr h
  · exact mem_of_mem_assign h

def insert (menuEntry : ℤ) (outputs : List ℤ) (hsize : outputs.length = size)
    (hfive : 5 ≤ outputs.length) : OutputLevels size where
  levels := l.insertLevels menuEntry outputs
  length_eq _ hx := (l.mem_insertLevels hx).elim (fun h => h ▸ hsize) (l.length_eq _)
  five_le _ hx := (l.mem_insertLevels hx).elim (fun h => h ▸ hfive) (l.five_le _)

def entryOutputs (overflow : ℚ → ℤ) (val : JsonValue) : List ℤ :=
  (JsonObject.value val.toObject (chars "outputs")).toArray.map (·.toInt overflow 0)

/-- An entry of the `map` of the configuration: one of another size is not taken, and of the others
    five outputs are printed before. -/
def addEntry (overflow : ℚ → ℤ) (val : JsonValue) : Except Fault (OutputLevels size) :=
  let menuEntry := (JsonObject.value val.toObject (chars "menu")).toInt overflow 0
  if hsize : (entryOutputs overflow val).length = size then
    if hfive : 5 ≤ (entryOutputs overflow val).length then
      .ok (l.insert menuEntry (entryOutputs overflow val) hsize hfive)
    else .error .outOfBounds
  else .ok l

theorem exists_addEntry_iff (overflow : ℚ → ℤ) (val : JsonValue) :
    (∃ l', l.addEntry overflow val = .ok l') ↔
      ((entryOutputs overflow val).length = size → 5 ≤ size) := by
  rw [addEntry]
  split_ifs with hsize hfive
  · exact ⟨fun _ _ => hsize ▸ hfive, fun _ => ⟨_, rfl⟩⟩
  · exact iff_of_false (not_exists.2 fun _ => not_false) fun h => hfive (hsize.symm ▸ h hsize)
  · exact ⟨fun _ h => absurd h hsize, fun _ => ⟨_, rfl⟩⟩

/-- The `map` is read to its end unless there are fewer than five levels of light, and an entry has
    as many outputs. -/
theorem exists_foldlM_addEntry_iff (overflow : ℚ → ℤ) (vals : JsonArray) :
    (∃ l', vals.foldlM (fun l val => addEntry l overflow val) l = .ok l') ↔
      ∀ val ∈ vals, (entryOutputs overflow val).length = size → 5 ≤ size := by
  induction vals generalizing l with
  | nil => exact ⟨fun _ val hval => absurd hval List.not_mem_nil, fun _ => ⟨l, rfl⟩⟩
  | cons val vals ih =>
    rw [List.forall_mem_cons, ← exists_addEntry_iff l, List.foldlM_cons]
    cases h : l.addEntry overflow val with
    | error f => exact iff_of_false (not_exists_ok f) fun h => not_exists_ok f h.1
    | ok l' =>
      rw [← ih l']
      exact ⟨fun hrest => ⟨⟨l', rfl⟩, hrest⟩, And.right⟩

end OutputLevels

/-- What `assignMappings` reads of the configuration. -/
structure Mappings where
  measureFileName : List UInt8
  scaleFileName : List UInt8
  outputFileName : List UInt8
  lowerPoints : List ℤ
  outputLevels : OutputLevels (lowerPoints.length + 1)

/-- The name of a file, or the default. -/
def fileName (entry : JsonObject) (key : String) (default : String) : List UInt8 :=
  let name := (JsonObject.value entry (chars key)).toString []
  if name = [] then chars default else name

/-- The points of the configuration, in the unit of the measures. -/
def readPoints (overflow : ℚ → ℤ) (scale : Scale) (illum_jobj : JsonObject) : List ℤ :=
  (JsonObject.value illum_jobj (chars "points")).toArray.map
    fun val => scale.point (val.toInt overflow 0)

/-- `assignMappings`, of the entries `Illuminance` and `Brightness`. -/
def assignMappings (overflow : ℚ → ℤ) (scale : Scale) (illum_jobj bright_jobj : JsonObject) :
    Except Fault Mappings := do
  let lowerPoints := readPoints overflow scale illum_jobj
  let outputLevels ← (JsonObject.value bright_jobj (chars "map")).toArray.foldlM
    (fun l val => l.addEntry overflow val) (OutputLevels.empty (lowerPoints.length + 1))
  return {
    measureFileName :=
      fileName illum_jobj "measure" "/sys/bus/iio/devices/iio:device0/in_voltage0_raw"
    scaleFileName := fileName illum_jobj "scale" "/sys/bus/iio/devices/iio:device0/in_voltage_scale"
    outputFileName := fileName bright_jobj "output" "/sys/class/backlight/backlight/brightness"
    lowerPoints := lowerPoints
    outputLevels := outputLevels }

/-! ## The control -/

/-- A `BrightnessControl`; `itsAlertDisplay` tells whether there is one. -/
structure BrightnessControl where
  mappings : Mappings
  scale : Scale
  currentOutput : ℤ
  currentMenuLevel : ℤ
  doCANDebugReport : Bool
  itsAlertDisplay : Bool

/-- What the control hands on: a line of the output file, a report of `illuminance_measure_mV`,
    `currentMenuLevel` and `currentOutput`, or a message on the display. -/
inductive Effect
  | write (outStr : List UInt8)
  | sendBrightness (illuminance_measure_mV : ℕ) (currentMenuLevel currentOutput : ℤ)
  | message (text : List UInt8)
  deriving DecidableEq

/-- `std::to_string(currentOutput) + "\n"`. -/
def outStr (currentOutput : ℤ) : List UInt8 := intDigits currentOutput ++ chars "\n"

/-- The next output on the way to `targetOutput`. -/
def nextOutput (targetOutput : ℤ) (forceBrightness : Bool) (currentOutput : ℤ) : ℤ :=
  if targetOutput < currentOutput then
    if forceBrightness then targetOutput else currentOutput - 1
  else if currentOutput < targetOutput then
    if forceBrightness then targetOutput else currentOutput + 1
  else currentOutput

namespace BrightnessControl

variable (b : BrightnessControl)

/-- The outputs of the menu level in use, if it is one of the `map`. -/
def currentMenuLevelOutputs : Option (List ℤ) :=
  find? b.currentMenuLevel b.mappings.outputLevels.levels

/-- The level of light of a measure, with the measure in mV. -/
def measureIlluminanceLevel (line : List UInt8) : Except Fault (ℕ × ℕ) := do
  let currMeasure ← intOfLine line
  return (b.mappings.lowerPoints.findIdx (currMeasure < ·), b.scale.millivolts currMeasure)

/-- What is reported of an output. -/
def reports (illuminance_measure_mV : ℕ) : List Effect :=
  (if b.doCANDebugReport then
    [.sendBrightness illuminance_measure_mV b.currentMenuLevel b.currentOutput] else []) ++
  if b.itsAlertDisplay then
    [.message (chars "ill:" ++ natDigits 10 illuminance_measure_mV ++ chars "  brt:" ++
      intDigits b.currentOutput)] else []

def assignBrightness (outputLevel : ℕ × ℕ) (forceBrightness : Bool) :
    Except Fault (BrightnessControl × List Effect) :=
  match b.currentMenuLevelOutputs with
  | none => .ok (b, [])
  | some outputs =>
    match outputs[outputLevel.1]? with
    | none => .error .outOfBounds
    | some targetOutput =>
      let b' := { b with currentOutput := nextOutput targetOutput forceBrightness b.currentOutput }
      let written :=
        if targetOutput = b.currentOutput then [] else [.write (outStr b'.currentOutput)]
      .ok (b', written ++ b'.reports outputLevel.2)

def fireIlluminanceMeasure (line : List UInt8) :
    Except Fault (BrightnessControl × List Effect) := do
  let illuminanceLevel ← b.measureIlluminanceLevel line
  b.assignBrightness illuminanceLevel false

/-- The print of five outputs of the menu level in use. -/
def printOutputs : Except Fault Unit :=
  match b.currentMenuLevelOutputs with
  | none => .ok ()
  | some outputs => if 5 ≤ outputs.length then .ok () else .error .outOfBounds

def brightnessLevelChanged (newLevel : ℤ) (line : List UInt8) :
    Except Fault (BrightnessControl × List Effect) := do
  let b := { b with currentMenuLevel := newLevel }
  let illuminanceLevel ← b.measureIlluminanceLevel line
  let assigned ← b.assignBrightness illuminanceLevel true
  assigned.1.printOutputs
  return assigned

/-- The constructor: `line` is what the output file holds. -/
def construct (overflow : ℚ → ℤ) (scale : Scale) (illum_jobj bright_jobj : JsonObject)
    (settings : Settings) (doCANDebugReport : Bool) (line : List UInt8) :
    Except Fault BrightnessControl := do
  let mappings ← assignMappings overflow scale illum_jobj bright_jobj
  let currentOutput ← intOfLine line
  let b : BrightnessControl := {
    mappings := mappings
    scale := scale
    currentOutput := currentOutput
    currentMenuLevel := valueInt settings (chars "Brightness/brightness") 5
    doCANDebugReport := doCANDebugReport
    itsAlertDisplay := false }
  b.printOutputs
  return b

/-! ## One event -/

/-- A timeout of the timer, or a change of the menu level, with the line of the measure file. -/
inductive Event
  | fireIlluminanceMeasure (line : List UInt8)
  | brightnessLevelChanged (newLevel : ℤ) (line : List UInt8)

def Event.line : Event → List UInt8
  | .fireIlluminanceMeasure line => line
  | .brightnessLevelChanged _ line => line

def step : Event → Except Fault (BrightnessControl × List Effect)
  | .fireIlluminanceMeasure line => b.fireIlluminanceMeasure line
  | .brightnessLevelChanged newLevel line => b.brightnessLevelChanged newLevel line

/-- One event after the other, with all that is handed on. -/
def run : List Event → BrightnessControl → Except Fault (BrightnessControl × List Effect)
  | [], b => .ok (b, [])
  | e :: events, b => do
    let x ← b.step e
    let y ← run events x.1
    return (y.1, x.2 ++ y.2)

/-- The lines written to the output file. -/
def written (effects : List Effect) : List (List UInt8) :=
  effects.filterMap fun
    | .write outStr => some outStr
    | _ => none

@[simp] theorem written_append (l l' : List Effect) : written (l ++ l') = written l ++ written l' :=
  List.filterMap_append

@[simp] theorem written_reports (mV : ℕ) : written (b.reports mV) = [] := by
  rw [reports]
  split_ifs <;> rfl

/-- All outputs of the `map`, and the brightness, are between `lo` and `hi`. -/
structure Between (lo hi : ℤ) : Prop where
  outputs : ∀ x ∈ b.mappings.outputLevels.levels, ∀ output ∈ x.2, lo ≤ output ∧ output ≤ hi
  currentOutput : lo ≤ b.currentOutput ∧ b.currentOutput ≤ hi

/-- What an event makes of a control: the mappings stay, the brightness stays within all bounds, and
    a line is written when it changes. -/
structure Follows (b b' : BrightnessControl) (effects : List Effect) : Prop where
  mappings : b'.mappings = b.mappings
  between : ∀ lo hi, b.Between lo hi → b'.Between lo hi
  written : (written effects).getLast?.getD (outStr b.currentOutput) = outStr b'.currentOutput

variable {b} {b' b'' : BrightnessControl} {effects effects' : List Effect}

theorem Follows.refl : Follows b b [] := ⟨rfl, fun _ _ h => h, rfl⟩

theorem Follows.trans (h : Follows b b' effects) (h' : Follows b' b'' effects') :
    Follows b b'' (effects ++ effects') where
  mappings := h'.mappings.trans h.mappings
  between lo hi hb := h'.between lo hi (h.between lo hi hb)
  written := by
    rw [← h'.written, ← h.written, written_append, List.getLast?_append]
    cases (BrightnessControl.written effects').getLast? <;> rfl

theorem mem_levels {outputs : List ℤ} (h : b.currentMenuLevelOutputs = some outputs) :
    (b.currentMenuLevel, outputs) ∈ b.mappings.outputLevels.levels := by
  obtain ⟨x, hx, rfl⟩ := Option.map_eq_some_iff.1 h
  have hkey : x.1 = b.currentMenuLevel := by simpa using List.find?_some hx
  exact hkey ▸ List.mem_of_find?_eq_some hx

theorem nextOutput_between {lo hi target current : ℤ} (force : Bool)
    (htarget : lo ≤ target ∧ target ≤ hi) (hcurrent : lo ≤ current ∧ current ≤ hi) :
    lo ≤ nextOutput target force current ∧ nextOutput target force current ≤ hi := by
  rw [nextOutput]
  split_ifs <;> omega

theorem nextOutput_self (target : ℤ) (force : Bool) : nextOutput target force target = target := by
  rw [nextOutput, if_neg (lt_irrefl _), if_neg (lt_irrefl _)]

theorem nextOutput_true (target current : ℤ) : nextOutput target true current = target := by
  rw [nextOutput, if_pos rfl, if_pos rfl]
  split_ifs <;> omega

/-- The level of light of a measure is one that each menu level has an output for. -/
theorem exists_output {outputs : List ℤ} (h : b.currentMenuLevelOutputs = some outputs)
    (p : ℤ → Bool) : ∃ target, outputs[b.mappings.lowerPoints.findIdx p]? = some target := by
  have hlength : outputs.length = _ := b.mappings.outputLevels.length_eq _ (mem_levels h)
  have hle : b.mappings.lowerPoints.findIdx p ≤ _ := List.findIdx_le_length
  exact ⟨_, List.getElem?_eq_getElem (by omega)⟩

/-- What is assigned when the menu level in use has an output for the level of light. -/
theorem assignBrightness_eq {outputs : List ℤ} {target : ℤ} (level : ℕ × ℕ) (force : Bool)
    (h : b.currentMenuLevelOutputs = some outputs) (htarget : outputs[level.1]? = some target) :
    ∃ effects, b.assignBrightness level force =
        .ok ({ b with currentOutput := nextOutput target force b.currentOutput }, effects) ∧
      written effects = if target = b.currentOutput then []
        else [outStr (nextOutput target force b.currentOutput)] := by
  rw [assignBrightness, h]
  simp only [htarget, Except.ok.injEq, Prod.mk.injEq, true_and, exists_eq_left']
  rw [written_append, written_reports, List.append_nil]
  split_ifs <;> rfl

theorem assignBrightness_follows (p : ℤ → Bool) (mV : ℕ) (force : Bool) :
    ∃ x, b.assignBrightness (b.mappings.lowerPoints.findIdx p, mV) force = .ok x ∧
      Follows b x.1 x.2 := by
  cases h : b.currentMenuLevelOutputs with
  | none =>
    refine ⟨(b, []), ?_, .refl⟩
    rw [assignBrightness, h]
  | some outputs =>
    obtain ⟨target, htarget⟩ := exists_output h p
    obtain ⟨effects, heq, hwritten⟩ :=
      assignBrightness_eq (b.mappings.lowerPoints.findIdx p, mV) force h htarget
    refine ⟨_, heq, ⟨rfl, fun lo hi hb => ⟨hb.outputs, ?_⟩, ?_⟩⟩
    · exact nextOutput_between force
        (hb.outputs _ (mem_levels h) _ (List.mem_of_getElem? htarget)) hb.currentOutput
    · rw [hwritten]
      split_ifs with hself
      · rw [← hself, nextOutput_self]
        rfl
      · rfl

theorem printOutputs_eq : b.printOutputs = .ok () := by
  rw [printOutputs]
  cases h : b.currentMenuLevelOutputs with
  | none => rfl
  | some outputs => exact if_pos (b.mappings.outputLevels.five_le _ (mem_levels h))

/-- The constructor comes to its end if and only if the output file is empty or begins with an
    `int`, and no entry of the `map` is taken when there are fewer than four points. -/
theorem exists_construct_iff (overflow : ℚ → ℤ) (scale : Scale)
    (illum_jobj bright_jobj : JsonObject) (settings : Settings) (doCANDebugReport : Bool)
    (line : List UInt8) :
    (∃ b, construct overflow scale illum_jobj bright_jobj settings doCANDebugReport line = .ok b) ↔
      (∀ val ∈ (JsonObject.value bright_jobj (chars "map")).toArray,
        (OutputLevels.entryOutputs overflow val).length =
            (readPoints overflow scale illum_jobj).length + 1 →
          5 ≤ (readPoints overflow scale illum_jobj).length + 1) ∧
      ∃ n, intOfLine line = .ok n := by
  rw [← OutputLevels.exists_foldlM_addEntry_iff (OutputLevels.empty _), construct, assignMappings]
  cases (JsonObject.value bright_jobj (chars "map")).toArray.foldlM
      (fun l val => OutputLevels.addEntry l overflow val) (OutputLevels.empty _) with
  | error f => exact iff_of_false (not_exists_ok f) fun h => not_exists_ok f h.1
  | ok l =>
    cases intOfLine line with
    | error f => exact iff_of_false (not_exists_ok f) fun h => not_exists_ok f h.2
    | ok n =>
      refine ⟨fun _ => ⟨⟨l, rfl⟩, n, rfl⟩, fun _ => ?_⟩
      simp only [bind, Except.bind, pure, Except.pure, printOutputs_eq]
      exact ⟨_, rfl⟩

/-- The measure of a line that is empty or the text of an `int`. -/
theorem measureIlluminanceLevel_eq {line : List UInt8} {n : ℤ} (h : intOfLine line = .ok n) :
    b.measureIlluminanceLevel line =
      .ok (b.mappings.lowerPoints.findIdx (n < ·), b.scale.millivolts n) := by
  rw [measureIlluminanceLevel, h]
  rfl

theorem step_fire {line : List UInt8} {n : ℤ} (h : intOfLine line = .ok n) :
    b.step (.fireIlluminanceMeasure line) = b.assignBrightness
      (b.mappings.lowerPoints.findIdx (n < ·), b.scale.millivolts n) false := by
  rw [step, fireIlluminanceMeasure, measureIlluminanceLevel_eq h]
  rfl

theorem step_of_line {e : Event} {n : ℤ} (h : intOfLine e.line = .ok n) :
    ∃ x, b.step e = .ok x ∧ Follows b x.1 x.2 := by
  cases e with
  | fireIlluminanceMeasure line =>
    obtain ⟨x, hx, hfollows⟩ :=
      assignBrightness_follows (b := b) (n < ·) (b.scale.millivolts n) false
    exact ⟨x, (step_fire h).trans hx, hfollows⟩
  | brightnessLevelChanged newLevel line =>
    rw [Event.line] at h
    let c : BrightnessControl := { b with currentMenuLevel := newLevel }
    obtain ⟨x, hx, hfollows⟩ :=
      assignBrightness_follows (b := c) (n < ·) (c.scale.millivolts n) true
    refine ⟨x, ?_, ⟨hfollows.mappings, fun lo hi hb => hfollows.between lo hi ⟨hb.1, hb.2⟩,
      hfollows.written⟩⟩
    rw [step, brightnessLevelChanged, measureIlluminanceLevel_eq h]
    simp only [bind, Except.bind, pure, Except.pure, c] at hx ⊢
    simp only [hx, printOutputs_eq]

/-- A change of the menu level is followed at once. -/
theorem step_brightnessLevelChanged {newLevel : ℤ} {line : List UInt8} {n target : ℤ}
    {outputs : List ℤ} (h : find? newLevel b.mappings.outputLevels.levels = some outputs)
    (hline : intOfLine line = .ok n)
    (htarget : outputs[b.mappings.lowerPoints.findIdx (n < ·)]? = some target) :
    ∃ effects, b.step (.brightnessLevelChanged newLevel line) =
        .ok ({ b with currentMenuLevel := newLevel, currentOutput := target }, effects) ∧
      written effects = if target = b.currentOutput then [] else [outStr target] := by
  let c : BrightnessControl := { b with currentMenuLevel := newLevel }
  obtain ⟨effects, heq, hwritten⟩ := assignBrightness_eq (b := c)
    (b.mappings.lowerPoints.findIdx (n < ·), b.scale.millivolts n) true h htarget
  rw [nextOutput_true] at heq hwritten
  refine ⟨effects, ?_, hwritten⟩
  rw [step, brightnessLevelChanged, measureIlluminanceLevel_eq hline]
  simp only [bind, Except.bind, pure, Except.pure, c] at heq ⊢
  simp only [heq, printOutputs_eq]

/-- An event whose line is no number ends with the exception of `std::stoi`. -/
theorem step_of_error {e : Event} {f : Fault} (h : intOfLine e.line = .error f) :
    b.step e = .error f := by
  cases e <;>
    simp only [step, fireIlluminanceMeasure, brightnessLevelChanged, measureIlluminanceLevel] <;>
    simp only [Event.line] at h <;>
    rw [h] <;>
    rfl

/-! ## Runs -/

theorem run_cons {e : Event} {events : List Event} {x : BrightnessControl × List Effect}
    (h : b.step e = .ok x) :
    run (e :: events) b = (run events x.1).map fun y => (y.1, x.2 ++ y.2) := by
  rw [run, h]
  cases hrun : run events x.1 <;> simp [bind, Except.bind, pure, Except.pure, Except.map, hrun]

/-- Where `k` steps of one to `targetOutput` lead. -/
def approach (targetOutput : ℤ) (k : ℕ) (currentOutput : ℤ) : ℤ :=
  if targetOutput < currentOutput then max targetOutput (currentOutput - k)
  else min targetOutput (currentOutput + k)

section Approach

variable {target current : ℤ} {k : ℕ}

theorem nextOutput_false (target current : ℤ) :
    nextOutput target false current =
      if target < current then current - 1 else if current < target then current + 1 else current :=
  rfl

theorem approach_zero (target current : ℤ) : approach target 0 current = current := by
  rw [approach]
  split_ifs <;> omega

theorem approach_succ (target : ℤ) (k : ℕ) (current : ℤ) :
    approach target (k + 1) current = approach target k (nextOutput target false current) := by
  rw [approach, approach, nextOutput_false]
  split_ifs <;> omega

/-- The output is reached when there are as many steps as it is away. -/
theorem approach_eq_iff : approach target k current = target ↔ (target - current).natAbs ≤ k := by
  rw [approach]
  split_ifs <;> omega

theorem natAbs_nextOutput (target current : ℤ) :
    (target - nextOutput target false current).natAbs = (target - current).natAbs - 1 := by
  rw [nextOutput_false]
  split_ifs <;> omega

/-- The lines of `k` timeouts on the way to an output: one of each step. -/
def approachLines (target : ℤ) (k : ℕ) (current : ℤ) : List (List UInt8) :=
  (List.range (min k (target - current).natAbs)).map fun i =>
    outStr (approach target (i + 1) current)

theorem approachLines_succ (target : ℤ) (k : ℕ) (current : ℤ) :
    approachLines target (k + 1) current =
      (if target = current then [] else [outStr (nextOutput target false current)]) ++
        approachLines target k (nextOutput target false current) := by
  split_ifs with hself
  · subst hself
    simp [approachLines, nextOutput_self]
  · have hmin : min (k + 1) (target - current).natAbs =
        min k (target - nextOutput target false current).natAbs + 1 := by
      rw [natAbs_nextOutput]
      omega
    rw [approachLines, approachLines, hmin, List.range_succ_eq_map, List.map_cons, List.map_map,
      List.singleton_append, approach_succ, approach_zero]
    simp only [Function.comp_def, Nat.succ_eq_add_one, approach_succ target (_ + 1)]

end Approach

/-- While each measure is one that the menu level in use has the output `target` for, a timeout is a
    step of one to it, with a line for each step: as many timeouts as it is away reach it, and from
    then on nothing is written. -/
theorem run_fire {outputs : List ℤ} {target : ℤ} {lines : List (List UInt8)}
    (h : b.currentMenuLevelOutputs = some outputs)
    (hlines : ∀ line ∈ lines, ∃ n, intOfLine line = .ok n ∧
      outputs[b.mappings.lowerPoints.findIdx (n < ·)]? = some target) :
    ∃ effects, run (lines.map .fireIlluminanceMeasure) b = .ok
        ({ b with currentOutput := approach target lines.length b.currentOutput }, effects) ∧
      written effects = approachLines target lines.length b.currentOutput ∧
      (approach target lines.length b.currentOutput = target ↔
        (target - b.currentOutput).natAbs ≤ lines.length) := by
  suffices hrun : ∃ effects, run (lines.map .fireIlluminanceMeasure) b = .ok
        ({ b with currentOutput := approach target lines.length b.currentOutput }, effects) ∧
      written effects = approachLines target lines.length b.currentOutput by
    obtain ⟨effects, hrun, hwritten⟩ := hrun
    exact ⟨effects, hrun, hwritten, approach_eq_iff⟩
  induction lines generalizing b with
  | nil =>
    refine ⟨[], ?_, ?_⟩
    · rw [List.length_nil, approach_zero]
      rfl
    · rw [approachLines, List.length_nil, Nat.zero_min]
      rfl
  | cons line lines ih =>
    obtain ⟨⟨n, hn, htarget⟩, hlines⟩ := List.forall_mem_cons.1 hlines
    obtain ⟨effects, heq, hstep⟩ := assignBrightness_eq
      (b.mappings.lowerPoints.findIdx (n < ·), b.scale.millivolts n) false h htarget
    obtain ⟨effects', hrun, hwritten⟩ :=
      ih (b := { b with currentOutput := nextOutput target false b.currentOutput }) h hlines
    refine ⟨effects ++ effects', ?_, ?_⟩
    · rw [List.map_cons, run_cons ((step_fire hn).trans heq), hrun, List.length_cons,
        approach_succ]
      rfl
    · rw [written_append, hstep, hwritten, List.length_cons, approachLines_succ]

theorem run_fire_two : ∃ b : BrightnessControl, b.currentOutput = 3 ∧
    ∃ effects,
      run [.fireIlluminanceMeasure (chars "25"), .fireIlluminanceMeasure (chars " 21 ")] b =
        .ok ({ b with currentOutput := approach 9 2 3 }, effects) ∧
      written effects = approachLines 9 2 3 ∧ (approach 9 2 3 = 9 ↔ (9 - 3 : ℤ).natAbs ≤ 2) := by
  let b : BrightnessControl := {
    mappings := {
      measureFileName := []
      scaleFileName := []
      outputFileName := []
      lowerPoints := [10, 20, 30, 40]
      outputLevels := (OutputLevels.empty 5).insert 5 [1, 7, 9, 12, 14] rfl (by decide) }
    scale := { point := id, millivolts := Int.toNat }
    currentOutput := 3
    currentMenuLevel := 5
    doCANDebugReport := true
    itsAlertDisplay := true }
  have houtputs : b.currentMenuLevelOutputs = some [1, 7, 9, 12, 14] := rfl
  have hlines : ∀ line ∈ [chars "25", chars " 21 "], ∃ n, intOfLine line = .ok n ∧
      [1, 7, 9, 12, 14][b.mappings.lowerPoints.findIdx (n < ·)]? = some (9 : ℤ) := by
    rintro line (_ | ⟨_, _ | ⟨_, ⟨⟩⟩⟩)
    · exact ⟨25, rfl, rfl⟩
    · exact ⟨21, rfl, rfl⟩
  have hrun := run_fire houtputs hlines
  exact ⟨b, rfl, hrun⟩

end BrightnessControl

end EW8.Display
