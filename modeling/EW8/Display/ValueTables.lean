import EW8.Display.FixedArguments
import EW8.Lib.Transition

/-!
# Value tables

A signal with a value table shows the graphic item, if any, that its table gives for the
value received; a supplementary value, received along with it, is handed to the item. The
signal records what it has activated, and releases it when another value comes in, or
when it is disabled, itself or with its protocol. The items are shared by any number of
such signals, and with other senders.

* `AMJsonSignal`: a value-table signal; `AMSignalsModel`: all of them, with the graphic
  items and the protocols.
* A signal is listed as an activator of at most one item, and of the one that it has
  recorded, unless the item has been deactivated by force (`recorded_of_run`).
-/

namespace EW8.Display

/-- `set_ops_t`. -/
inductive SetOp
  | na | or | gt | ge | lt | le
  deriving DecidableEq, Repr

/-- What a value leads to (`IAMJsonProcessable`): a graphic item, or one of the invokers. -/
inductive Processable (ι κ : Type*)
  | action (i : ι)
  | invoker (k : κ)
  deriving DecidableEq

/-- An `AMJsonSignal` of the type `GraphicItem` with a value table. -/
structure AMJsonSignal (τ π ι κ : Type*) where
  itsProtocol : π
  itsValueTable : ℤ → Option (Processable ι κ)
  activatedAction : Option (Processable ι κ)
  polarity : Bool
  isSupplementedSignalEntry : Bool
  itsDomainSetOp : SetOp
  itsDomainTrueValues : Option (List ℤ)
  disablers : List τ

namespace AMJsonSignal

variable {τ π ι κ : Type*} (s : AMJsonSignal τ π ι κ)

/-- `getIsEnabled`. -/
def getIsEnabled : Bool := s.disablers.isEmpty

/-- `getDomainValidity`. -/
def getDomainValidity (extractedSupCANsignal : QVariant) : Bool :=
  match extractedSupCANsignal, s.itsDomainTrueValues with
  | .int desired, some values =>
    match s.itsDomainSetOp with
    | .or => decide (desired ∈ values) == s.polarity
    | .lt => decide (values.headD 0 > desired) == s.polarity
    | .le => decide (values.headD 0 ≥ desired) == s.polarity
    | .gt => decide (values.headD 0 < desired) == s.polarity
    | .ge => decide (values.headD 0 ≤ desired) == s.polarity
    | .na => true
  | _, _ => true

/-- What a value leads to. -/
def toActivate (v sup : QVariant) : Option (Processable ι κ) :=
  if s.getDomainValidity sup then s.itsValueTable v.toInt else none

/-- The list of disablers, as `enableDisableThis` changes it. -/
def enableDisable [DecidableEq τ] (sender : τ) (onOff : Bool) : AMJsonSignal τ π ι κ :=
  if onOff = false ∧ sender ∉ s.disablers then { s with disablers := s.disablers ++ [sender] }
  else if onOff = true ∧ sender ∈ s.disablers then
    { s with disablers := s.disablers.erase sender }
  else s

end AMJsonSignal

/-- The signals `σ` with a value table and other objects `τ`, the protocols `π`, the items `ι` and the
    invokers `κ`, each with the item it calls. -/
structure AMSignalsModel (σ τ π ι κ : Type*) where
  items : ι → AMJsonGraphicItemAction (σ ⊕ τ)
  invokers : κ → ι × AMJsonFixedArgumentsActionInvoker
  signals : σ → AMJsonSignal τ π ι κ
  disablers : π → List τ
  /-- The signals of a protocol. -/
  jsonSignals : π → List σ

namespace AMSignalsModel

variable {σ τ π ι κ : Type*} [DecidableEq σ] [DecidableEq τ] [DecidableEq π] [DecidableEq ι]
  [DecidableEq κ] (m : AMSignalsModel σ τ π ι κ)

/-- The item that something leads to. -/
def item : Processable ι κ → ι
  | .action i => i
  | .invoker k => (m.invokers k).1

/-- The action of an item is changed. -/
def setItem (i : ι) (a : AMJsonGraphicItemAction (σ ⊕ τ)) : AMSignalsModel σ τ π ι κ :=
  { m with items := Function.update m.items i a }

/-- A signal is changed. -/
def setSignal (s : σ) (x : AMJsonSignal τ π ι κ) : AMSignalsModel σ τ π ι κ :=
  { m with signals := Function.update m.signals s x }

/-- `setActivatedAction`. -/
def setActivatedAction (s : σ) (p : Option (Processable ι κ)) : AMSignalsModel σ τ π ι κ :=
  m.setSignal s { m.signals s with activatedAction := p }

/-- `process` of an item or an invoker, if there is one. -/
def call (sender : σ ⊕ τ) (on : Bool) : Option (Processable ι κ) → AMSignalsModel σ τ π ι κ
  | none => m
  | some (.action i) => m.setItem i ((m.items i).process sender on)
  | some (.invoker k) =>
    m.setItem (m.invokers k).1 ((m.invokers k).2.process (m.items (m.invokers k).1) sender on)

/-- `setSupplimentary` of an item or an invoker, if there is one, for a supplemented signal. -/
def setSupplimentary (isSupplementedSignalEntry : Bool) (sup : QVariant) :
    Option (Processable ι κ) → AMSignalsModel σ τ π ι κ × Bool
  | none => (m, false)
  | some p =>
    if isSupplementedSignalEntry then
      let (a, updated) := (m.items (m.item p)).setSupplimentary sup
      (m.setItem (m.item p) a, updated)
    else (m, false)

/-- `AMJsonSignal::process`. -/
def process (s : σ) (v sup : QVariant) : AMSignalsModel σ τ π ι κ :=
  if (m.disablers (m.signals s).itsProtocol).isEmpty && (m.signals s).getIsEnabled then
    let toActivate := (m.signals s).toActivate v sup
    let toDeactivate := (m.signals s).activatedAction
    let (m, supUpdated) :=
      m.setSupplimentary (m.signals s).isSupplementedSignalEntry sup toActivate
    if toActivate ≠ toDeactivate ∨ supUpdated then
      ((m.call (.inl s) false toDeactivate).call (.inl s) true toActivate).setActivatedAction s
        toActivate
    else m
  else m

/-- `deactivateAllGraphicItems`. -/
def deactivateAllGraphicItems (s : σ) : AMSignalsModel σ τ π ι κ :=
  (m.setActivatedAction s none).call (.inl s) false (m.signals s).activatedAction

/-- `AMJsonSignal::enableDisableThis`. -/
def enableDisableSignal (s : σ) (sender : τ) (onOff : Bool) : AMSignalsModel σ τ π ι κ :=
  let is_pre_enabled := (m.signals s).getIsEnabled
  let m := m.setSignal s ((m.signals s).enableDisable sender onOff)
  let is_post_enabled := (m.signals s).getIsEnabled
  if is_pre_enabled && !is_post_enabled then m.deactivateAllGraphicItems s else m

/-- `AMJsonProtocol::enableDisableThis`, as far as the list of disablers goes. -/
def enableDisableProtocol (p : π) (sender : τ) (onOff : Bool) : AMSignalsModel σ τ π ι κ :=
  if onOff = false ∧ sender ∉ m.disablers p then
    { m with disablers := Function.update m.disablers p (m.disablers p ++ [sender]) }
  else if onOff = true ∧ sender ∈ m.disablers p then
    { m with disablers := Function.update m.disablers p ((m.disablers p).filter (· ≠ sender)) }
  else m

/-- The signals of a protocol being disabled, at the end of `AMJsonProtocol::enableDisableThis`. -/
def deactivateProtocol (p : π) : AMSignalsModel σ τ π ι κ :=
  (m.jsonSignals p).foldl
    (fun m s => if (m.signals s).getIsEnabled then m.deactivateAllGraphicItems s else m) m

/-- What can happen. A protocol that is disabled makes its enablers emit in between, what comes as
    events of its own. The other senders do with an item what they want. -/
inductive Event (σ τ π ι : Type*)
  | process (s : σ) (v sup : QVariant)
  | enableDisableSignal (s : σ) (sender : τ) (onOff : Bool)
  | enableDisableProtocol (p : π) (sender : τ) (onOff : Bool)
  | deactivateProtocol (p : π)
  | other (i : ι) (sender : τ) (on : Bool)
  | argumentComplete (i : ι) (arg : Argument)
  | forceDeactivation (i : ι)
  | setSupplimentary (i : ι) (sup : QVariant)

/-- A step. -/
def step : Event σ τ π ι → AMSignalsModel σ τ π ι κ
  | .process s v sup => m.process s v sup
  | .enableDisableSignal s sender onOff => m.enableDisableSignal s sender onOff
  | .enableDisableProtocol p sender onOff => m.enableDisableProtocol p sender onOff
  | .deactivateProtocol p => m.deactivateProtocol p
  | .other i sender on => m.setItem i ((m.items i).process (.inr sender) on)
  | .argumentComplete i arg => m.setItem i ((m.items i).argumentComplete arg)
  | .forceDeactivation i => m.setItem i (m.items i).forceDeactivation
  | .setSupplimentary i sup => m.setItem i ((m.items i).setSupplimentary sup).1

/-- One event after the other. -/
def run (l : List (Event σ τ π ι)) : AMSignalsModel σ τ π ι κ := l.foldl (fun m e => m.step e) m

/-- After the start-up. -/
structure Initial : Prop where
  items : ∀ i, (m.items i).Initial
  activatedAction : ∀ s, (m.signals s).activatedAction = none

/-! ## Senders and items -/

/-- The signal is listed as an activator of the item. -/
def Listed (s : σ) (i : ι) : Prop := .inl s ∈ (m.items i).activators

/-- The item that the signal has recorded. -/
def recorded (s : σ) : Option ι := (m.signals s).activatedAction.map m.item

/-- Every item is shown as it should be, and lists only signals that have recorded it. -/
structure Exclusive : Prop where
  consistent : ∀ i, (m.items i).Consistent
  recorded : ∀ s i, m.Listed s i → m.recorded s = some i

/-- A signal is listed where it has recorded to be. -/
def Exact : Prop := ∀ s i, m.recorded s = some i → m.Listed s i

variable {m} {m' : AMSignalsModel σ τ π ι κ} {s t : σ} {i j : ι} {x : σ ⊕ τ}
  {a : AMJsonGraphicItemAction (σ ⊕ τ)} {p : Option (Processable ι κ)}

set_option linter.unusedSectionVars false

theorem Exclusive.unique (h : m.Exclusive) (hi : m.Listed s i) (hj : m.Listed s j) : i = j :=
  Option.some.inj ((h.recorded s i hi).symm.trans (h.recorded s j hj))

@[simp] theorem items_setItem_self : (m.setItem i a).items i = a := Function.update_self ..

theorem items_setItem_of_ne (h : j ≠ i) : (m.setItem i a).items j = m.items j :=
  Function.update_of_ne h ..

omit [DecidableEq κ] in
@[simp] theorem signals_setSignal_self {y : AMJsonSignal τ π ι κ} :
    (m.setSignal s y).signals s = y := Function.update_self ..

omit [DecidableEq κ] in
theorem signals_setSignal_of_ne {y : AMJsonSignal τ π ι κ} (h : t ≠ s) :
    (m.setSignal s y).signals t = m.signals t := Function.update_of_ne h ..

@[simp] theorem item_setItem : (m.setItem i a).item = m.item := rfl

@[simp] theorem recorded_setItem : (m.setItem i a).recorded = m.recorded := rfl

theorem consistent_setItem (h : ∀ j, (m.items j).Consistent) (ha : a.Consistent) (j : ι) :
    ((m.setItem i a).items j).Consistent := by
  by_cases hj : j = i
  · subst hj
    rwa [items_setItem_self]
  · rw [items_setItem_of_ne hj]
    exact h j

theorem listed_setItem : (m.setItem i a).Listed s j ↔
    if j = i then .inl s ∈ a.activators else m.Listed s j := by
  by_cases hj : j = i
  · subst hj
    rw [if_pos rfl, Listed, items_setItem_self]
  · rw [if_neg hj, Listed, items_setItem_of_ne hj, Listed]

/-- What is asked of an item, by its own or through an invoker: the argument is completed before. -/
theorem call_some (p : Processable ι κ) (x : σ ⊕ τ) (on : Bool) :
    ∃ a : AMJsonGraphicItemAction (σ ⊕ τ), m.call x on (some p) =
        m.setItem (m.item p) (a.process x on) ∧
      a.activators = (m.items (m.item p)).activators ∧
      ((m.items (m.item p)).Consistent → a.Consistent) := by
  cases p with
  | action i => exact ⟨m.items i, rfl, rfl, id⟩
  | invoker k =>
    refine ⟨_, rfl, ?_⟩
    split_ifs
    · cases (m.invokers k).2.argument with
      | none => exact ⟨rfl, id⟩
      | some arg =>
        exact ⟨AMJsonGraphicItemAction.activators_argumentComplete arg,
          fun h => h.step (.argumentComplete arg)⟩
    · exact ⟨rfl, id⟩

theorem consistent_call (h : ∀ j, (m.items j).Consistent) (x : σ ⊕ τ) (on : Bool)
    (p : Option (Processable ι κ)) (j : ι) : ((m.call x on p).items j).Consistent := by
  cases p with
  | none => exact h j
  | some p =>
    obtain ⟨a, hcall, -, ha⟩ := call_some (m := m) p x on
    rw [hcall]
    exact consistent_setItem h ((ha (h _)).process x on) j

theorem recorded_call (x : σ ⊕ τ) (on : Bool) (p : Option (Processable ι κ)) :
    (m.call x on p).recorded = m.recorded := by
  cases p with
  | none => rfl
  | some p =>
    obtain ⟨a, hcall, -, -⟩ := call_some (m := m) p x on
    rw [hcall, recorded_setItem]

theorem item_call (x : σ ⊕ τ) (on : Bool) (p : Option (Processable ι κ)) :
    (m.call x on p).item = m.item := by
  cases p with
  | none => rfl
  | some p =>
    obtain ⟨a, hcall, -, -⟩ := call_some (m := m) p x on
    rw [hcall, item_setItem]

/-- Asked for by `s`: it is listed there as well. -/
theorem listed_call_true (p : Option (Processable ι κ)) :
    (m.call (.inl s) true p).Listed t j ↔ m.Listed t j ∨ (p.map m.item = some j ∧ t = s) := by
  cases p with
  | none => simp [call]
  | some p =>
    obtain ⟨a, hcall, hacts, -⟩ := call_some (m := m) p (.inl s) true
    rw [hcall, listed_setItem]
    by_cases hj : j = m.item p
    · simp [hj, AMJsonGraphicItemAction.mem_process_true, hacts, Listed]
    · simp [hj, Ne.symm hj]

/-- Released by `s`: it is listed everywhere else. -/
theorem listed_call_false (h : ∀ j, (m.items j).Consistent) (p : Option (Processable ι κ)) :
    (m.call (.inl s) false p).Listed t j ↔ m.Listed t j ∧ ¬(p.map m.item = some j ∧ t = s) := by
  cases p with
  | none => simp [call]
  | some p =>
    obtain ⟨a, hcall, hacts, -⟩ := call_some (m := m) p (.inl s) false
    rw [hcall, listed_setItem]
    by_cases hj : j = m.item p
    · have hnodup : a.activators.Nodup := hacts ▸ (h _).nodup
      simp [hj, AMJsonGraphicItemAction.mem_process_false hnodup, hacts, Listed]
    · simp [hj, Ne.symm hj]

/-! ## Exclusivity -/

theorem Exclusive.of_listed (h : m.Exclusive) (hcons : ∀ j, (m'.items j).Consistent)
    (hlisted : ∀ t j, m'.Listed t j → m.Listed t j) (hrec : m'.recorded = m.recorded) :
    m'.Exclusive where
  consistent := hcons
  recorded t j ht := hrec ▸ h.recorded t j (hlisted t j ht)

theorem Exact.of_listed (h : m.Exact) (hlisted : ∀ t j, m.Listed t j → m'.Listed t j)
    (hrec : m'.recorded = m.recorded) : m'.Exact :=
  fun t j ht => hlisted t j (h t j (hrec ▸ ht))

/-- What a signal does with a new action, or with none. -/
def settle (m : AMSignalsModel σ τ π ι κ) (s : σ) (p : Option (Processable ι κ)) :
    AMSignalsModel σ τ π ι κ :=
  ((m.call (.inl s) false (m.signals s).activatedAction).call (.inl s) true p).setActivatedAction s p

theorem recorded_setActivatedAction : (m.setActivatedAction s p).recorded t =
    if t = s then p.map m.item else m.recorded t := by
  have hitem : (m.setActivatedAction s p).item = m.item := rfl
  unfold recorded
  by_cases hts : t = s
  · subst hts
    rw [if_pos rfl, hitem, setActivatedAction, signals_setSignal_self]
  · rw [if_neg hts, hitem, setActivatedAction, signals_setSignal_of_ne hts]

theorem recorded_settle :
    (m.settle s p).recorded t = if t = s then p.map m.item else m.recorded t := by
  rw [settle, recorded_setActivatedAction, recorded_call, recorded_call, item_call, item_call]

theorem listed_settle_iff (h : ∀ j, (m.items j).Consistent) : (m.settle s p).Listed t j ↔
    (m.Listed t j ∧ ¬(m.recorded s = some j ∧ t = s)) ∨ (p.map m.item = some j ∧ t = s) := by
  have hsettle : (m.settle s p).Listed t j ↔ ((m.call (.inl s) false
      (m.signals s).activatedAction).call (.inl s) true p).Listed t j := Iff.rfl
  rw [hsettle, listed_call_true, listed_call_false h, item_call]
  rfl

theorem listed_settle (h : m.Exclusive) :
    (m.settle s p).Listed t j ↔ if t = s then p.map m.item = some j else m.Listed t j := by
  rw [listed_settle_iff h.consistent]
  by_cases hts : t = s
  · subst hts
    -- where it is listed, it has recorded to be
    have hleft : ¬(m.Listed t j ∧ ¬m.recorded t = some j) := fun hl => hl.2 (h.recorded t j hl.1)
    simp [hleft]
  · simp [hts]

theorem Exclusive.settle (h : m.Exclusive) (s : σ) (p : Option (Processable ι κ)) :
    (m.settle s p).Exclusive where
  consistent := consistent_call (consistent_call h.consistent _ _ _) _ _ _
  recorded t j ht := by
    rw [listed_settle h] at ht
    rw [recorded_settle]
    split_ifs at ht ⊢ with hts
    · exact ht
    · exact h.recorded t j ht

theorem Exact.settle (hexact : m.Exact) (h : m.Exclusive) (s : σ) (p : Option (Processable ι κ)) :
    (m.settle s p).Exact := by
  intro t j ht
  rw [recorded_settle] at ht
  rw [listed_settle h]
  split_ifs at ht ⊢ with hts
  · exact ht
  · exact hexact t j ht

theorem deactivateAllGraphicItems_eq (m : AMSignalsModel σ τ π ι κ) (s : σ) :
    m.deactivateAllGraphicItems s = m.settle s none := by
  unfold deactivateAllGraphicItems settle
  rcases (m.signals s).activatedAction with _ | (i | k) <;> rfl

section

variable (b : Bool) (sup : QVariant)

theorem signals_setSupplimentary : (m.setSupplimentary b sup p).1.signals = m.signals := by
  cases p <;> cases b <;> rfl

theorem recorded_setSupplimentary : (m.setSupplimentary b sup p).1.recorded = m.recorded := by
  cases p <;> cases b <;> rfl

theorem consistent_setSupplimentary (h : ∀ j, (m.items j).Consistent) (j : ι) :
    ((m.setSupplimentary b sup p).1.items j).Consistent := by
  cases p with
  | none => exact h j
  | some p =>
    cases b with
    | false => exact h j
    | true => exact consistent_setItem h ((h _).setSupplimentary sup) j

theorem listed_setSupplimentary :
    (m.setSupplimentary b sup p).1.Listed t j ↔ m.Listed t j := by
  cases p with
  | none => rfl
  | some p =>
    cases b with
    | false => rfl
    | true =>
      have hset : (m.setSupplimentary true sup (some p)).1 =
          m.setItem (m.item p) ((m.items (m.item p)).setSupplimentary sup).1 := rfl
      rw [hset, listed_setItem, AMJsonGraphicItemAction.activators_setSupplimentary]
      split_ifs with hj
      · rw [hj, Listed]
      · rfl

theorem Exclusive.setSupplimentary (h : m.Exclusive) :
    (m.setSupplimentary b sup p).1.Exclusive :=
  h.of_listed (consistent_setSupplimentary b sup h.consistent)
    (fun _ _ => (listed_setSupplimentary b sup).1) (recorded_setSupplimentary b sup)

theorem Exact.setSupplimentary (h : m.Exact) : (m.setSupplimentary b sup p).1.Exact :=
  h.of_listed (fun _ _ => (listed_setSupplimentary b sup).2) (recorded_setSupplimentary b sup)

end

/-- What a value changes: the supplement, and what the signal has activated. -/
theorem process_eq (m : AMSignalsModel σ τ π ι κ) (s : σ) (v sup : QVariant) :
    let p := (m.signals s).toActivate v sup
    let m' := m.setSupplimentary (m.signals s).isSupplementedSignalEntry sup p
    m.process s v sup =
      if (m.disablers (m.signals s).itsProtocol).isEmpty && (m.signals s).getIsEnabled then
        if p ≠ (m.signals s).activatedAction ∨ m'.2 = true then m'.1.settle s p else m'.1
      else m := by
  intro p m'
  have hsettle : m'.1.settle s p = ((m'.1.call (.inl s) false
      (m.signals s).activatedAction).call (.inl s) true p).setActivatedAction s p := by
    rw [settle, signals_setSupplimentary]
  rw [hsettle]
  rfl

/-! ### Every event -/

theorem Exclusive.process (h : m.Exclusive) (s : σ) (v sup : QVariant) :
    (m.process s v sup).Exclusive := by
  rw [process_eq]
  split_ifs
  · exact (h.setSupplimentary _ _).settle s _
  · exact h.setSupplimentary _ _
  · exact h

theorem Exact.process (hexact : m.Exact) (h : m.Exclusive) (s : σ) (v sup : QVariant) :
    (m.process s v sup).Exact := by
  rw [process_eq]
  split_ifs
  · exact (hexact.setSupplimentary _ _).settle (h.setSupplimentary _ _) s _
  · exact hexact.setSupplimentary _ _
  · exact hexact

theorem recorded_enableDisable (sender : τ) (onOff : Bool) :
    (m.setSignal s ((m.signals s).enableDisable sender onOff)).recorded = m.recorded := by
  have hact : ((m.signals s).enableDisable sender onOff).activatedAction =
      (m.signals s).activatedAction := by
    unfold AMJsonSignal.enableDisable
    split_ifs <;> rfl
  funext t
  unfold recorded
  by_cases hts : t = s
  · subst hts
    rw [signals_setSignal_self, hact]
    rfl
  · rw [signals_setSignal_of_ne hts]
    rfl

theorem enableDisableSignal_eq (m : AMSignalsModel σ τ π ι κ) (s : σ) (sender : τ) (onOff : Bool) :
    let m' := m.setSignal s ((m.signals s).enableDisable sender onOff)
    m.enableDisableSignal s sender onOff =
      if (m.signals s).getIsEnabled && !(m'.signals s).getIsEnabled then m'.settle s none else m' := by
  intro m'
  rw [← deactivateAllGraphicItems_eq]
  rfl

theorem Exclusive.enableDisableSignal (h : m.Exclusive) (s : σ) (sender : τ) (onOff : Bool) :
    (m.enableDisableSignal s sender onOff).Exclusive := by
  have hset : (m.setSignal s ((m.signals s).enableDisable sender onOff)).Exclusive :=
    h.of_listed h.consistent (fun _ _ ht => ht) (recorded_enableDisable sender onOff)
  rw [enableDisableSignal_eq]
  split_ifs
  · exact hset.settle s none
  · exact hset

theorem Exact.enableDisableSignal (hexact : m.Exact) (h : m.Exclusive) (s : σ) (sender : τ)
    (onOff : Bool) : (m.enableDisableSignal s sender onOff).Exact := by
  have hset : (m.setSignal s ((m.signals s).enableDisable sender onOff)).Exclusive :=
    h.of_listed h.consistent (fun _ _ ht => ht) (recorded_enableDisable sender onOff)
  have hexact' : (m.setSignal s ((m.signals s).enableDisable sender onOff)).Exact :=
    hexact.of_listed (fun _ _ ht => ht) (recorded_enableDisable sender onOff)
  rw [enableDisableSignal_eq]
  split_ifs
  · exact hexact'.settle hset s none
  · exact hexact'

omit [DecidableEq κ] in
theorem enableDisableProtocol_eq (m : AMSignalsModel σ τ π ι κ) (p : π) (sender : τ) (onOff : Bool) :
    ∃ d, m.enableDisableProtocol p sender onOff = { m with disablers := d } := by
  unfold enableDisableProtocol
  split_ifs
  exacts [⟨_, rfl⟩, ⟨_, rfl⟩, ⟨m.disablers, rfl⟩]

/-- The signals of a protocol are released one after the other. -/
theorem Exclusive.deactivateProtocol (h : m.Exclusive) (p : π) : (m.deactivateProtocol p).Exclusive := by
  refine Transition.inv_of_foldl (fun m s h => ?_) h (m.jsonSignals p)
  split_ifs
  · exact deactivateAllGraphicItems_eq m s ▸ h.settle s none
  · exact h

theorem Exact.deactivateProtocol (hexact : m.Exact) (h : m.Exclusive) (p : π) :
    (m.deactivateProtocol p).Exact := by
  refine (Transition.inv_of_foldl (I := fun m : AMSignalsModel σ τ π ι κ => m.Exclusive ∧ m.Exact) (fun m s h => ?_)
    ⟨h, hexact⟩ (m.jsonSignals p)).2
  split_ifs
  · exact deactivateAllGraphicItems_eq m s ▸ ⟨h.1.settle s none, h.2.settle h.1 s none⟩
  · exact h

/-- An item is changed by others, and lists the same signals then. -/
theorem listed_setItem_of_iff (ha : ∀ t, .inl t ∈ a.activators ↔ m.Listed t i) :
    (m.setItem i a).Listed t j ↔ m.Listed t j := by
  rw [listed_setItem]
  split_ifs with hj
  · rw [hj, ha]
  · rfl

/-- Other senders leave the signals listed. -/
theorem listed_process_inr (h : m.Exclusive) (sender : τ) (on : Bool) (t : σ) :
    .inl t ∈ ((m.items i).process (.inr sender) on).activators ↔ m.Listed t i := by
  cases on with
  | true => simp [AMJsonGraphicItemAction.mem_process_true, Listed]
  | false => simp [AMJsonGraphicItemAction.mem_process_false (h.consistent i).nodup, Listed]

/-- No event lists a signal where it has not recorded to be. -/
theorem Exclusive.step (h : m.Exclusive) (e : Event σ τ π ι) : (m.step e).Exclusive := by
  cases e with
  | process s v sup => exact h.process s v sup
  | enableDisableSignal s sender onOff => exact h.enableDisableSignal s sender onOff
  | enableDisableProtocol p sender onOff =>
    obtain ⟨d, hd⟩ := m.enableDisableProtocol_eq p sender onOff
    rw [AMSignalsModel.step, hd]
    exact h.of_listed h.consistent (fun _ _ ht => ht) rfl
  | deactivateProtocol p => exact h.deactivateProtocol p
  | other i sender on =>
    exact h.of_listed (consistent_setItem h.consistent ((h.consistent i).process _ on))
      (fun _ _ => (listed_setItem_of_iff (listed_process_inr h sender on)).1) rfl
  | argumentComplete i arg =>
    refine h.of_listed
      (consistent_setItem h.consistent ((h.consistent i).step (.argumentComplete arg)))
      (fun _ _ => (listed_setItem_of_iff fun t => ?_).1) rfl
    rw [AMJsonGraphicItemAction.activators_argumentComplete, Listed]
  | forceDeactivation i =>
    refine h.of_listed (consistent_setItem h.consistent (h.consistent i).forceDeactivation)
      (fun t j ht => ?_) rfl
    -- nobody is listed there any more
    have ht := listed_setItem.1 ht
    split_ifs at ht
    · exact absurd ht List.not_mem_nil
    · exact ht
  | setSupplimentary i sup =>
    refine h.of_listed (consistent_setItem h.consistent ((h.consistent i).setSupplimentary sup))
      (fun _ _ => (listed_setItem_of_iff fun t => ?_).1) rfl
    rw [AMJsonGraphicItemAction.activators_setSupplimentary, Listed]

/-- And none but a deactivation by force takes it off a list where it has. -/
theorem Exact.step (hexact : m.Exact) (h : m.Exclusive) (e : Event σ τ π ι)
    (he : ∀ i, e ≠ .forceDeactivation i) : (m.step e).Exact := by
  cases e with
  | process s v sup => exact hexact.process h s v sup
  | enableDisableSignal s sender onOff => exact hexact.enableDisableSignal h s sender onOff
  | enableDisableProtocol p sender onOff =>
    obtain ⟨d, hd⟩ := m.enableDisableProtocol_eq p sender onOff
    rw [AMSignalsModel.step, hd]
    exact hexact.of_listed (fun _ _ ht => ht) rfl
  | deactivateProtocol p => exact hexact.deactivateProtocol h p
  | other i sender on =>
    exact hexact.of_listed
      (fun _ _ => (listed_setItem_of_iff (listed_process_inr h sender on)).2) rfl
  | argumentComplete i arg =>
    refine hexact.of_listed (fun _ _ => (listed_setItem_of_iff fun t => ?_).2) rfl
    rw [AMJsonGraphicItemAction.activators_argumentComplete, Listed]
  | forceDeactivation i => exact absurd rfl (he i)
  | setSupplimentary i sup =>
    refine hexact.of_listed (fun _ _ => (listed_setItem_of_iff fun t => ?_).2) rfl
    rw [AMJsonGraphicItemAction.activators_setSupplimentary, Listed]

theorem Initial.exclusive (h : m.Initial) : m.Exclusive where
  consistent i := (h.items i).consistent
  recorded s i hs := absurd (show .inl s ∈ (m.items i).activators from hs) (by
    rw [(h.items i).activators]
    exact List.not_mem_nil)

theorem Initial.exact (h : m.Initial) : m.Exact := fun s i hs => by
  rw [recorded, h.activatedAction s] at hs
  exact absurd hs (by simp)

/-- After every event, a signal is listed as an activator of at most one item; and where no item has
    been deactivated by force, of just the one it has recorded. -/
theorem recorded_of_run (h : m.Initial) (l : List (Event σ τ π ι)) (s : σ) :
    (∀ i j, (m.run l).Listed s i → (m.run l).Listed s j → i = j) ∧
    ((∀ e ∈ l, ∀ i, e ≠ .forceDeactivation i) →
      ∀ i, (m.run l).Listed s i ↔ (m.run l).recorded s = some i) := by
  have hexcl : (m.run l).Exclusive :=
    Transition.inv_of_foldl (fun m e h => h.step e) h.exclusive l
  refine ⟨fun i j => hexcl.unique, fun hl i => ⟨hexcl.recorded s i, ?_⟩⟩
  have hexact : (m.run l).Exact := by
    clear hexcl
    -- induction on the events, the last one first
    induction l using List.reverseRecOn with
    | nil => exact h.exact
    | append_singleton l e ih =>
      have hexcl : (m.run l).Exclusive :=
        Transition.inv_of_foldl (fun m e h => h.step e) h.exclusive l
      rw [run, List.foldl_concat]
      exact (ih fun e he => hl e (List.mem_append_left _ he)).step hexcl e
        (hl e (List.mem_append_right _ List.mem_cons_self))
  exact hexact s i

/-- Two supplemented signals of a protocol, which both show one item when they have the value 1. -/
def signs : AMSignalsModel Bool Unit Unit Unit Empty where
  items _ := ⟨false, false, false, .int 0, 0, 0, 0, "", false, ⟨[⟨0, 0, 0, 0, ""⟩], 0⟩, []⟩
  invokers k := k.elim
  signals _ :=
    ⟨(), fun v => if v = 1 then some (.action ()) else none, none, true, true, .na, none, []⟩
  disablers _ := []
  jsonSignals _ := [false, true]

theorem initial_signs : signs.Initial where
  items _ := ⟨rfl, rfl, rfl, List.forall_mem_singleton.2 rfl, rfl⟩
  activatedAction _ := rfl

/-- The first one shows the item, is disabled, and enabled again. -/
theorem recorded_of_run_signs :
    let m := signs.run [.process false (.int 1) (.int 5), .enableDisableSignal false () false,
      .enableDisableSignal false () true, .process false (.int 1) (.int 6)]
    (∀ i j, m.Listed false i → m.Listed false j → i = j) ∧
      ∀ i, m.Listed false i ↔ m.recorded false = some i :=
  ⟨(recorded_of_run initial_signs _ false).1,
    (recorded_of_run initial_signs _ false).2 (by simp)⟩

end AMSignalsModel

end EW8.Display
