import Mathlib

/-!
# Graphic items on display

A graphic item is shown as long as some signal asks for it. Its
`AMJsonGraphicItemAction` keeps the list of these signals, its *activators*, and
the arguments to be shown with it; an item with arguments is not shown before
these are complete. The display (`MainProcess`) counts the activations of the
QML items with the id of the graphic item, and ignores an activation, with its
arguments, while it counts one.

After every event, the item is shown exactly if it should be, and no activation
has been ignored (`consistent_of_run`).

An item is driven by its own action only: none of its QML items is part of a mutex
group or contains another item, so that what `RootedTreeNode` does to the parents of
a node is left out.
-/

namespace EW8.Display

/-- A `QVariant`, as made of what `extractSignal` gives: the doubles are integers, too. -/
inductive QVariant
  | invalid
  | bool (b : Bool)
  | int (i : ℤ)
  | double (x : ℤ)
  deriving DecidableEq, Repr

namespace QVariant

/-- `toInt`. -/
def toInt : QVariant → ℤ
  | invalid => 0
  | bool b => b.toNat
  | int i => i
  | double x => x

/-- `operator==`: numbers are compared as numbers, of whatever type. -/
def eq (v w : QVariant) : Bool := (v = invalid ↔ w = invalid) ∧ v.toInt = w.toInt

/-- `(uint8_t)toInt()`. -/
def toUInt8 (v : QVariant) : UInt8 := UInt8.ofInt v.toInt

end QVariant

/-! ## The display -/

/-- The arguments that an item is activated with. -/
inductive Argument
  | ints (valueInt valueFrac unit : UInt8)
  | str (stringArg : String)
  deriving DecidableEq, Repr

/-- A `RootedTreeNode`: a QML item. -/
structure RootedTreeNode where
  activationSemaphore : ℕ
  valueInt : UInt8
  valueFrac : UInt8
  unit : UInt8
  stringArg : String

namespace RootedTreeNode

variable (n : RootedTreeNode)

/-- `setCanEntityArgs` and `setCanEntityArg`. -/
def setCanEntityArgs : Argument → RootedTreeNode
  | .ints valueInt valueFrac unit =>
    { n with valueInt := valueInt, valueFrac := valueFrac, unit := unit }
  | .str stringArg => { n with stringArg := stringArg }

/-- `activate`. -/
def activate : RootedTreeNode := { n with activationSemaphore := n.activationSemaphore + 1 }

/-- `deactivate`. -/
def deactivate : RootedTreeNode := { n with activationSemaphore := n.activationSemaphore - 1 }

/-- The item is shown with these arguments. -/
def Shows : Argument → Prop
  | .ints valueInt valueFrac unit =>
    n.valueInt = valueInt ∧ n.valueFrac = valueFrac ∧ n.unit = unit
  | .str stringArg => n.stringArg = stringArg

end RootedTreeNode

/-- `MainProcess`, as far as one graphic item goes. -/
structure MainProcess where
  /-- The QML items with its id. The id `ALERT_NONE` has none. -/
  nodes : List RootedTreeNode
  /-- How often an activation has been skipped for a node: for statements only. -/
  skipped : ℕ

namespace MainProcess

variable (d : MainProcess)

/-- `activateInternal`: no re-activation. -/
def activate (arg : Argument) : MainProcess where
  nodes := d.nodes.map fun n =>
    if 0 < n.activationSemaphore then n else (n.setCanEntityArgs arg).activate
  skipped := d.skipped + d.nodes.countP fun n => 0 < n.activationSemaphore

/-- `deactivate`. -/
def deactivate : MainProcess where
  nodes := d.nodes.map fun n => if n.activationSemaphore = 0 then n else n.deactivate
  skipped := d.skipped

/-- All nodes are shown, or none. -/
def Counts (shown : Bool) : Prop := ∀ n ∈ d.nodes, n.activationSemaphore = shown.toNat

/-- What an item is shown with. -/
def Shows (arg : Argument) : Prop := ∀ n ∈ d.nodes, n.Shows arg

variable {d} {shown : Bool} {arg : Argument}

theorem Counts.pos_iff (h : d.Counts shown) {n : RootedTreeNode} (hn : n ∈ d.nodes) :
    0 < n.activationSemaphore ↔ shown = true := by
  rw [h n hn]
  cases shown <;> simp

@[simp] theorem skipped_deactivate : d.deactivate.skipped = d.skipped := rfl

@[simp] theorem length_nodes_activate : (d.activate arg).nodes.length = d.nodes.length :=
  List.length_map _

@[simp] theorem length_nodes_deactivate : d.deactivate.nodes.length = d.nodes.length :=
  List.length_map _

theorem counts_deactivate (h : d.Counts shown) : d.deactivate.Counts false := by
  intro n hn
  obtain ⟨m, hm, rfl⟩ := List.mem_map.1 hn
  have hm := h m hm
  split_ifs with h0
  · exact h0
  · cases shown with
    | false => exact absurd hm h0
    | true => simp [RootedTreeNode.deactivate, hm]

/-- Where no node is shown, all are then, with the arguments given. -/
theorem activate_eq (h : d.Counts false) (arg : Argument) :
    d.activate arg = ⟨d.nodes.map fun n => (n.setCanEntityArgs arg).activate, d.skipped⟩ := by
  have hnot : ∀ n ∈ d.nodes, ¬0 < n.activationSemaphore := fun n hn => by simp [h n hn]
  have hcount : d.nodes.countP (fun n => 0 < n.activationSemaphore) = 0 :=
    List.countP_eq_zero.2 fun n hn => by simpa using hnot n hn
  rw [activate, hcount, List.map_congr_left fun n hn => if_neg (hnot n hn)]
  rfl

theorem counts_activate (h : d.Counts false) : (d.activate arg).Counts true := by
  rw [activate_eq h]
  intro n hn
  obtain ⟨m, hm, rfl⟩ := List.mem_map.1 hn
  have h0 : m.activationSemaphore = 0 := h m hm
  cases arg <;> simp [RootedTreeNode.activate, RootedTreeNode.setCanEntityArgs, h0]

theorem skipped_activate (h : d.Counts false) : (d.activate arg).skipped = d.skipped := by
  rw [activate_eq h]

theorem shows_activate (h : d.Counts false) : (d.activate arg).Shows arg := by
  rw [activate_eq h]
  intro n hn
  obtain ⟨m, -, rfl⟩ := List.mem_map.1 hn
  cases arg with
  | ints => exact ⟨rfl, rfl, rfl⟩
  | str => exact rfl

end MainProcess

/-! ## The action -/

/-- `AMJsonGraphicItemAction`, with senders `σ`. -/
structure AMJsonGraphicItemAction (σ : Type*) where
  hasArguments : Bool
  areArgumentsReceived : Bool
  isSupplemented : Bool
  itsSupplimentary : QVariant
  argInt : UInt8
  argFrac : UInt8
  argUnits : UInt8
  argStr : String
  isArgOfStringType : Bool
  itsDisplay : MainProcess
  activators : List σ

namespace AMJsonGraphicItemAction

variable {σ : Type*} (a : AMJsonGraphicItemAction σ)

/-- `setSupplimentary`: whether there is a new value. -/
def setSupplimentary (v : QVariant) : AMJsonGraphicItemAction σ × Bool :=
  if !a.isSupplemented || !a.itsSupplimentary.eq v then
    ({ a with itsSupplimentary := v, isSupplemented := true }, true)
  else (a, false)

/-- `getIsActived`. -/
def getIsActived : Bool := !a.activators.isEmpty

/-- The arguments with which `activate` calls the display, if it does. -/
def arguments : Option Argument :=
  if !a.hasArguments then
    if !a.isSupplemented then some (.ints 0 0 0)
    else some (.ints a.itsSupplimentary.toUInt8 0 0)
  else if a.areArgumentsReceived then
    if !a.isArgOfStringType then
      if !a.isSupplemented then some (.ints a.argInt a.argFrac a.argUnits)
      else some (.ints a.argInt a.itsSupplimentary.toUInt8 0)
    else some (.str a.argStr)
  else none

/-- `activate`. -/
def activate (do_reactivate : Bool) : AMJsonGraphicItemAction σ :=
  let isActivated := a.getIsActived
  if !isActivated || do_reactivate then
    let d := if do_reactivate && isActivated then a.itsDisplay.deactivate else a.itsDisplay
    { a with itsDisplay := (a.arguments.map d.activate).getD d }
  else a

/-- `deactivate`. -/
def deactivate : AMJsonGraphicItemAction σ :=
  if a.getIsActived then
    { a with itsDisplay := a.itsDisplay.deactivate, areArgumentsReceived := false }
  else a

/-- `process`. -/
def process [DecidableEq σ] (sender : σ) (on : Bool) : AMJsonGraphicItemAction σ :=
  if on then
    if sender ∈ a.activators then a
    else { a.activate false with activators := a.activators ++ [sender] }
  else if sender ∈ a.activators then
    { if a.activators.length = 1 then a.deactivate else a with
      activators := a.activators.erase sender }
  else a

/-- `forceDeactivation`. -/
def forceDeactivation : AMJsonGraphicItemAction σ := { a.deactivate with activators := [] }

/-- The functions `argumentComplete`, once the arguments are stored. -/
def complete (isChanged : Bool) : AMJsonGraphicItemAction σ :=
  let a :=
    if a.getIsActived then
      if !a.areArgumentsReceived then { a with areArgumentsReceived := true }.activate true
      else if isChanged then a.activate true
      else a
    else a
  { a with areArgumentsReceived := true }

/-- `argumentComplete`. -/
def argumentComplete : Argument → AMJsonGraphicItemAction σ
  | .str anArg => { a with argStr := anArg }.complete (a.argStr ≠ anArg)
  | .ints intArg fracArg unitArg =>
    { a with argInt := intArg, argFrac := fracArg, argUnits := unitArg }.complete
      (a.argInt ≠ intArg ∨ a.argFrac ≠ fracArg ∨ a.argUnits ≠ unitArg)

/-- What can happen to an action. -/
inductive Event (σ : Type*)
  | process (sender : σ) (on : Bool)
  | argumentComplete (arg : Argument)
  | forceDeactivation
  | setSupplimentary (v : QVariant)

/-- A step. -/
def step [DecidableEq σ] : Event σ → AMJsonGraphicItemAction σ
  | .process sender on => a.process sender on
  | .argumentComplete arg => a.argumentComplete arg
  | .forceDeactivation => a.forceDeactivation
  | .setSupplimentary v => (a.setSupplimentary v).1

/-- One event after the other. -/
def run [DecidableEq σ] (l : List (Event σ)) : AMJsonGraphicItemAction σ :=
  l.foldl (fun a e => a.step e) a

/-- An action after the start-up, that has set whether there are arguments. -/
structure Initial : Prop where
  activators : a.activators = []
  areArgumentsReceived : a.areArgumentsReceived = false
  isSupplemented : a.isSupplemented = false
  nodes : ∀ n ∈ a.itsDisplay.nodes, n.activationSemaphore = 0
  skipped : a.itsDisplay.skipped = 0

@[simp] theorem activators_setSupplimentary (v : QVariant) :
    (a.setSupplimentary v).1.activators = a.activators := by
  simp only [setSupplimentary]
  split_ifs <;> rfl

@[simp] theorem hasArguments_activate (r : Bool) : (a.activate r).hasArguments = a.hasArguments := by
  simp only [activate]
  split_ifs <;> rfl

@[simp] theorem hasArguments_deactivate : a.deactivate.hasArguments = a.hasArguments := by
  simp only [deactivate]
  split_ifs <;> rfl

@[simp] theorem hasArguments_complete (c : Bool) : (a.complete c).hasArguments = a.hasArguments := by
  simp only [complete]
  split_ifs <;> simp

/-- Whether there are arguments is settled before the first event. -/
@[simp] theorem hasArguments_step [DecidableEq σ] (e : Event σ) :
    (a.step e).hasArguments = a.hasArguments := by
  cases e with
  | process s on =>
    simp only [step, process]
    split_ifs <;> simp
  | argumentComplete arg => cases arg <;> simp [step, argumentComplete]
  | forceDeactivation => simp [step, forceDeactivation]
  | setSupplimentary v =>
    simp only [step, setSupplimentary]
    split_ifs <;> rfl

/-! ## What is on display -/

/-- The item should be shown: there is a sender, and the arguments, if any, are complete. -/
def isDue : Bool := a.getIsActived && (!a.hasArguments || a.areArgumentsReceived)

/-- No sender is listed twice, the display shows what it should, and it has ignored nothing. -/
structure Consistent : Prop where
  nodup : a.activators.Nodup
  counts : a.itsDisplay.Counts a.isDue
  skipped : a.itsDisplay.skipped = 0

variable {a}

theorem getIsActived_iff : a.getIsActived = true ↔ a.activators ≠ [] := by
  simp [getIsActived]

theorem isDue_iff : a.isDue = true ↔
    a.activators ≠ [] ∧ (a.hasArguments = false ∨ a.areArgumentsReceived = true) := by
  rw [isDue, Bool.and_eq_true, getIsActived_iff]
  simp

theorem isSome_arguments : a.arguments.isSome = (!a.hasArguments || a.areArgumentsReceived) := by
  unfold arguments
  cases a.hasArguments <;> cases a.areArgumentsReceived <;> simp <;> split_ifs <;> rfl

/-- The display after a call of `activate`, with the arguments `x` if there are any. -/
def activated (d : MainProcess) (x : Option Argument) : MainProcess := (x.map d.activate).getD d

theorem activated_spec {d : MainProcess} (h : d.Counts false) (x : Option Argument) :
    (activated d x).Counts x.isSome ∧ (activated d x).skipped = d.skipped := by
  cases x with
  | none => exact ⟨h, rfl⟩
  | some arg => exact ⟨MainProcess.counts_activate h, MainProcess.skipped_activate h⟩

theorem activate_of_not_isActived (h : a.getIsActived = false) (r : Bool) :
    a.activate r = { a with itsDisplay := activated a.itsDisplay a.arguments } := by
  simp [activate, activated, h]

theorem activate_true_of_isActived (h : a.getIsActived = true) :
    a.activate true = { a with itsDisplay := activated a.itsDisplay.deactivate a.arguments } := by
  simp [activate, activated, h]

theorem activate_false_of_isActived (h : a.getIsActived = true) : a.activate false = a := by
  simp [activate, h]

section

variable [DecidableEq σ] {s : σ}

theorem process_true_of_mem (h : s ∈ a.activators) : a.process s true = a := by
  simp [process, h]

/-- The first sender. -/
theorem process_true_of_nil (h : a.activators = []) :
    a.process s true =
      { a with itsDisplay := activated a.itsDisplay a.arguments, activators := [s] } := by
  have hoff : a.getIsActived = false := by simp [getIsActived, h]
  simp [process, activate_of_not_isActived hoff, h]

/-- A further one. -/
theorem process_true_of_ne_nil (h : s ∉ a.activators) (hne : a.activators ≠ []) :
    a.process s true = { a with activators := a.activators ++ [s] } := by
  simp [process, activate_false_of_isActived (getIsActived_iff.2 hne), h]

theorem process_false_of_not_mem (h : s ∉ a.activators) : a.process s false = a := by
  simp [process, h]

/-- The last sender leaves. -/
theorem process_false_of_singleton (h : a.activators = [s]) :
    a.process s false =
      { a with
        itsDisplay := a.itsDisplay.deactivate
        areArgumentsReceived := false
        activators := [] } := by
  simp [process, deactivate, getIsActived, h]

/-- Another one leaves. -/
theorem process_false_of_mem (h : s ∈ a.activators) (hne : a.activators ≠ [s]) :
    a.process s false = { a with activators := a.activators.erase s } := by
  have hlen : a.activators.length ≠ 1 := fun hlen => by
    obtain ⟨t, ht⟩ := List.length_eq_one_iff.1 hlen
    rw [ht, List.mem_singleton] at h
    exact hne (h ▸ ht)
  simp [process, h, hlen]

end

section

variable [DecidableEq σ] {s t : σ}

theorem mem_process_true : t ∈ (a.process s true).activators ↔ t ∈ a.activators ∨ t = s := by
  by_cases hs : s ∈ a.activators
  · rw [process_true_of_mem hs]
    exact ⟨.inl, fun h => h.elim id fun h => h ▸ hs⟩
  · simp [process, hs]

theorem mem_process_false (h : a.activators.Nodup) :
    t ∈ (a.process s false).activators ↔ t ∈ a.activators ∧ t ≠ s := by
  by_cases hs : s ∈ a.activators
  · simp [process, hs, h.mem_erase_iff, and_comm]
  · rw [process_false_of_not_mem hs]
    exact ⟨fun ht => ⟨ht, fun hts => hs (hts ▸ ht)⟩, And.left⟩

end

/-- New arguments are shown at once, and so are the first ones. -/
theorem complete_eq (a : AMJsonGraphicItemAction σ) (isChanged : Bool) : a.complete isChanged =
    if a.getIsActived ∧ (a.areArgumentsReceived = false ∨ isChanged) then
      { a with
        areArgumentsReceived := true
        itsDisplay := activated a.itsDisplay.deactivate
          { a with areArgumentsReceived := true }.arguments }
    else { a with areArgumentsReceived := true } := by
  have hset (h : a.areArgumentsReceived = true) : { a with areArgumentsReceived := true } = a := by
    cases a
    cases h
    rfl
  unfold complete
  by_cases hon : a.getIsActived = true
  · have hon' : { a with areArgumentsReceived := true }.getIsActived = true := hon
    rw [if_pos hon, activate_true_of_isActived hon, activate_true_of_isActived hon']
    cases hr : a.areArgumentsReceived with
    | false => simp [hon]
    | true =>
      rw [hset hr]
      cases isChanged <;> simp [hon, hset hr]
  · rw [if_neg hon, if_neg fun h => hon h.1]

theorem forceDeactivation_eq (a : AMJsonGraphicItemAction σ) : a.forceDeactivation =
    if a.activators = [] then a
    else { a with
      itsDisplay := a.itsDisplay.deactivate
      areArgumentsReceived := false
      activators := [] } := by
  unfold forceDeactivation deactivate getIsActived
  cases h : a.activators with
  | nil =>
    cases a
    cases h
    rfl
  | cons => rfl

namespace Consistent

theorem counts_of_nil (h : a.Consistent) (hnil : a.activators = []) : a.itsDisplay.Counts false := by
  have hcounts := h.counts
  rwa [isDue, show a.getIsActived = false by simp [getIsActived, hnil], Bool.false_and] at hcounts

/-- Which senders there are is all the same, as long as there are some. -/
theorem counts_of_ne_nil (h : a.Consistent) {l : List σ} (hne : a.activators ≠ []) (hl : l ≠ []) :
    a.itsDisplay.Counts { a with activators := l }.isDue := by
  have hcounts := h.counts
  rw [isDue, getIsActived_iff.2 hne] at hcounts
  rwa [isDue, getIsActived_iff.2 hl]

theorem complete (h : a.Consistent) (isChanged : Bool) : (a.complete isChanged).Consistent := by
  rw [complete_eq]
  split_ifs with hon
  · -- the display is cleared first, so that the arguments are taken
    have hspec := activated_spec (MainProcess.counts_deactivate h.counts)
      { a with areArgumentsReceived := true }.arguments
    rw [isSome_arguments, Bool.or_true] at hspec
    refine ⟨h.nodup, ?_, hspec.2.trans h.skipped⟩
    have hactive : (!a.activators.isEmpty) = true := hon.1
    simpa only [isDue, getIsActived, hactive, Bool.or_true, Bool.true_and] using hspec.1
  · refine ⟨h.nodup, ?_, h.skipped⟩
    have hcounts := h.counts
    cases hactive : a.getIsActived with
    | false =>
      have hempty : (!a.activators.isEmpty) = false := hactive
      simpa only [isDue, getIsActived, hempty, Bool.false_and] using hcounts
    | true =>
      have hreceived : a.areArgumentsReceived = true := by
        by_contra hr
        exact hon ⟨hactive, .inl (Bool.not_eq_true _ ▸ hr)⟩
      simpa only [isDue, getIsActived, hreceived] using hcounts

theorem forceDeactivation (h : a.Consistent) : a.forceDeactivation.Consistent := by
  rw [forceDeactivation_eq]
  split_ifs
  · exact h
  · exact ⟨List.nodup_nil, MainProcess.counts_deactivate h.counts, h.skipped⟩

theorem process [DecidableEq σ] (h : a.Consistent) (s : σ) (on : Bool) :
    (a.process s on).Consistent := by
  cases on with
  | true =>
    by_cases hs : s ∈ a.activators
    · rw [process_true_of_mem hs]
      exact h
    by_cases hnil : a.activators = []
    · have hspec := activated_spec (h.counts_of_nil hnil) a.arguments
      rw [isSome_arguments] at hspec
      rw [process_true_of_nil hnil]
      exact ⟨List.nodup_singleton s, hspec.1, hspec.2.trans h.skipped⟩
    · rw [process_true_of_ne_nil hs hnil]
      have hnodup : (a.activators ++ [s]).Nodup := by
        simpa [List.nodup_append] using ⟨h.nodup, fun t ht hts => hs (hts ▸ ht)⟩
      exact ⟨hnodup, h.counts_of_ne_nil hnil (by simp), h.skipped⟩
  | false =>
    by_cases hs : s ∈ a.activators
    · by_cases hone : a.activators = [s]
      · rw [process_false_of_singleton hone]
        exact ⟨List.nodup_nil, MainProcess.counts_deactivate h.counts, h.skipped⟩
      · rw [process_false_of_mem hs hone]
        -- somebody else is still listed, so nothing changes on display
        have hleft : a.activators.erase s ≠ [] := by
          rw [Ne, List.erase_eq_nil_iff, not_or]
          exact ⟨List.ne_nil_of_mem hs, hone⟩
        exact ⟨h.nodup.erase s, h.counts_of_ne_nil (List.ne_nil_of_mem hs) hleft, h.skipped⟩
    · rw [process_false_of_not_mem hs]
      exact h

theorem setSupplimentary (h : a.Consistent) (v : QVariant) :
    (a.setSupplimentary v).1.Consistent := by
  unfold AMJsonGraphicItemAction.setSupplimentary
  split_ifs <;> exact ⟨h.nodup, h.counts, h.skipped⟩

/-- Every event leaves the display as it should be. -/
theorem step [DecidableEq σ] (h : a.Consistent) (e : Event σ) : (a.step e).Consistent := by
  cases e with
  | process s on => exact h.process s on
  | argumentComplete arg =>
    cases arg with
    | str anArg =>
      have hstored : ({ a with argStr := anArg } : AMJsonGraphicItemAction σ).Consistent :=
        ⟨h.nodup, h.counts, h.skipped⟩
      exact hstored.complete _
    | ints i f u =>
      have hstored : ({ a with argInt := i, argFrac := f, argUnits := u } :
          AMJsonGraphicItemAction σ).Consistent := ⟨h.nodup, h.counts, h.skipped⟩
      exact hstored.complete _
  | forceDeactivation => exact h.forceDeactivation
  | setSupplimentary v => exact h.setSupplimentary v

end Consistent

theorem Initial.consistent (h : a.Initial) : a.Consistent where
  nodup := h.activators ▸ List.nodup_nil
  counts := by
    rw [isDue, show a.getIsActived = false by simp [getIsActived, h.activators], Bool.false_and]
    exact h.nodes
  skipped := h.skipped

/-- After every event, a graphic item is shown just if it has a sender and its arguments, if any, are
    complete; no sender is listed twice; no activation has been ignored; and whether there are
    arguments is as at the start. -/
theorem consistent_of_run [DecidableEq σ] (h : a.Initial) (l : List (Event σ)) :
    (∀ n ∈ (a.run l).itsDisplay.nodes, 0 < n.activationSemaphore ↔
      (a.run l).activators ≠ [] ∧
        ((a.run l).hasArguments = false ∨ (a.run l).areArgumentsReceived = true)) ∧
    (a.run l).activators.Nodup ∧ (a.run l).itsDisplay.skipped = 0 ∧
    (a.run l).hasArguments = a.hasArguments := by
  have hrun : (a.run l).Consistent ∧ (a.run l).hasArguments = a.hasArguments := by
    -- induction on the events, the last one first
    induction l using List.reverseRecOn with
    | nil => exact ⟨h.consistent, rfl⟩
    | append_singleton l e ih =>
      rw [run, List.foldl_concat]
      exact ⟨ih.1.step e, (hasArguments_step _ e).trans ih.2⟩
  obtain ⟨hcons, hargs⟩ := hrun
  exact ⟨fun n hn => (hcons.counts.pos_iff hn).trans isDue_iff, hcons.nodup, hcons.skipped, hargs⟩

/-- An item with arguments, two senders and a change of the arguments. -/
theorem consistent_of_run_item : let a : AMJsonGraphicItemAction Bool :=
      ⟨true, false, false, .int 0, 0, 0, 0, "", false, ⟨[⟨0, 0, 0, 0, ""⟩], 0⟩, []⟩
    let l := [.process false true, .argumentComplete (.ints 5 0 0), .process true true,
      .process false false,
      .argumentComplete (.ints 6 0 0)]
    (∀ n ∈ (a.run l).itsDisplay.nodes, 0 < n.activationSemaphore ↔
      (a.run l).activators ≠ [] ∧
        ((a.run l).hasArguments = false ∨ (a.run l).areArgumentsReceived = true)) ∧
    (a.run l).activators.Nodup ∧ (a.run l).itsDisplay.skipped = 0 ∧
    (a.run l).hasArguments = a.hasArguments :=
  consistent_of_run ⟨rfl, rfl, rfl, by decide, rfl⟩ _

end AMJsonGraphicItemAction

end EW8.Display
