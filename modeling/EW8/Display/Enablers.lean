import EW8.Display.ValueTables

/-!
# Enablers

An enabler switches signals and whole protocols on and off: they are enabled while none of the
enablers that they are connected to has emitted `false` last. A signal that is disabled, itself or
with its protocol, releases the graphic items it has activated.

An emission calls the slots of all that is connected, one after the other. A protocol that
is disabled makes its own enablers emit `false` in its turn, before it releases its signals, so
that emissions are nested: `pending` are the calls that are still to be made, the
next one first, and `complete` makes all of them.

* After each event, a signal that is disabled or belongs to a disabled protocol is listed by
  no item, and the disablers are exactly the enablers that have emitted `false` last
  (`silent_of_run`).
-/

namespace EW8.Display

/-- `toBool`. -/
def QVariant.toBool : QVariant → Bool
  | invalid => false
  | bool b => b
  | int i => i ≠ 0
  | double x => x ≠ 0

/-- `extractSetUnsetAction`: `do_active` is not set where there is no operation. -/
def extractSetUnsetAction (polarity : Bool) (trueValuesOp : SetOp) (trueValues : Option (List ℤ))
    (do_active : Bool) (extractedCANsignal : QVariant) : Option Bool :=
  match extractedCANsignal, trueValues with
  | .bool desired, _ => some (desired == polarity)
  | .int desired, some values =>
    match trueValuesOp with
    | .or => some (decide (desired ∈ values) == polarity)
    | .lt => some (decide (values.headD 0 > desired) == polarity)
    | .le => some (decide (values.headD 0 ≥ desired) == polarity)
    | .gt => some (decide (values.headD 0 < desired) == polarity)
    | .ge => some (decide (values.headD 0 ≤ desired) == polarity)
    | .na => some do_active
  | _, _ => none

/-- What an `AMJsonSignal` does, by its `type`. -/
inductive SignalAction (ι ε : Type*)
  /-- `GraphicItem`, with a value table. -/
  | valueTable
  /-- `GraphicItem`, without one: `itsAction`, and the values that set it. -/
  | graphicItem (itsAction : ι) (trueValuesOp : SetOp) (trueValues : Option (List ℤ))
  /-- `Enabler`, with `itsAction` or those of its value table. -/
  | enabler (actions : List ε)
  /-- Any other. -/
  | other

/-- A call that is still to be made. -/
inductive Call (σ ε π : Type*)
  /-- `emit enableDisableConnected(onOff)`. -/
  | emit (e : ε) (onOff : Bool)
  /-- `enableDisableThis(onOff)` of a protocol or a signal. -/
  | enableDisableThis (r : π ⊕ σ) (e : ε) (onOff : Bool)
  /-- The end of `AMJsonProtocol::enableDisableThis`: the signals are released. -/
  | release (p : π)

/-- The call is to enable something. -/
def Call.enables {σ ε π : Type*} : Call σ ε π → Bool
  | .emit _ onOff => onOff
  | .enableDisableThis _ _ onOff => onOff
  | .release _ => false

/-- The signals with the enablers `ε` and all that is connected. -/
structure EnablerModel (σ ε π ι κ : Type*) extends AMSignalsModel σ ε π ι κ where
  action : σ → SignalAction ι ε
  itsJsonProtocol : ε → π
  /-- The protocol with the name of the action. -/
  getProtocol : ε → Option π
  /-- The signals with the name of the action. -/
  getSignalEntries : ε → List σ
  /-- `connect2EnabledDisabled` has been called. -/
  isConnected : ε → Bool
  /-- What has been emitted last: for statements only. -/
  emitted : ε → Option Bool
  pending : List (Call σ ε π)

namespace AMSignalsModel

variable {σ ε π ι κ : Type*} [DecidableEq σ] [DecidableEq ε] [DecidableEq π] [DecidableEq ι]
  (m : AMSignalsModel σ ε π ι κ)

/-- Neither the signal nor its protocol is disabled. -/
def isEnabled (s : σ) : Bool :=
  (m.disablers (m.signals s).itsProtocol).isEmpty && (m.signals s).getIsEnabled

/-- `AMJsonSignal::process`, for a graphic item. -/
def processSignal [DecidableEq κ] (action : σ → SignalAction ι ε) (s : σ) (v sup : QVariant)
    (do_active : Bool) : AMSignalsModel σ ε π ι κ :=
  match action s with
  | .valueTable => m.process s v sup
  | .graphicItem i trueValuesOp trueValues =>
    if m.isEnabled s then
      m.setItem i ((m.items i).process (.inl s) ((extractSetUnsetAction (m.signals s).polarity
        trueValuesOp trueValues do_active v).getD v.toBool))
    else m
  | _ => m

/-- `deactivateAllGraphicItems`. -/
def releaseSignal (action : σ → SignalAction ι ε) (s : σ) : AMSignalsModel σ ε π ι κ :=
  match action s with
  | .valueTable => m.deactivateAllGraphicItems s
  | .graphicItem i _ _ => m.setItem i ((m.items i).process (.inl s) false)
  | _ => m

/-- The end of `AMJsonProtocol::enableDisableThis`. -/
def releaseProtocol (action : σ → SignalAction ι ε) (p : π) : AMSignalsModel σ ε π ι κ :=
  (m.jsonSignals p).foldl
    (fun m s => if (m.signals s).getIsEnabled then m.releaseSignal action s else m) m

end AMSignalsModel

namespace EnablerModel

variable {σ ε π ι κ : Type*} [DecidableEq σ] [DecidableEq ε] [DecidableEq π] [DecidableEq ι]
  (m : EnablerModel σ ε π ι κ)

/-- The type is `Enabler`. -/
def isEnabler (s : σ) : Bool :=
  match m.action s with
  | .enabler _ => true
  | _ => false

/-- What is connected to an enabler, in the order of `connect2EnabledDisabled`. -/
def connections (e : ε) : List (π ⊕ σ) :=
  if m.isConnected e then
    ((m.getProtocol e).filter fun p => p ≠ m.itsJsonProtocol e).toList.map .inl ++
      ((m.getSignalEntries e).filter fun s => !m.isEnabler s).map .inr
  else []

/-- The enablers that `triggerAllDisablers` makes emit `false`. -/
def triggerAllDisablers (s : σ) : List ε :=
  match m.action s with
  | .enabler actions => actions
  | _ => []

/-- The signals and items are changed. -/
def set (x : AMSignalsModel σ ε π ι κ) : EnablerModel σ ε π ι κ := { m with toAMSignalsModel := x }

/-- `AMJsonSignal::enableDisableThis`. -/
def enableDisableSignal (s : σ) (sender : ε) (onOff : Bool) : EnablerModel σ ε π ι κ :=
  let is_pre_enabled := (m.signals s).getIsEnabled
  let m := m.set (m.setSignal s ((m.signals s).enableDisable sender onOff))
  let is_post_enabled := (m.signals s).getIsEnabled
  if is_pre_enabled && !is_post_enabled then m.set (m.releaseSignal m.action s) else m

/-- `AMJsonProtocol::enableDisableThis`. -/
def enableDisableProtocol (p : π) (sender : ε) (onOff : Bool) : EnablerModel σ ε π ι κ :=
  let is_pre_enabled := (m.disablers p).isEmpty
  let m := m.set (m.toAMSignalsModel.enableDisableProtocol p sender onOff)
  let is_post_enabled := (m.disablers p).isEmpty
  if is_pre_enabled && !is_post_enabled then
    { m with pending := ((m.jsonSignals p).flatMap m.triggerAllDisablers).map (.emit · false) ++
      .release p :: m.pending }
  else m

/-- A call is made. -/
def make : Call σ ε π → EnablerModel σ ε π ι κ
  | .emit e onOff =>
    { m with
      emitted := Function.update m.emitted e (some onOff)
      pending := (m.connections e).map (.enableDisableThis · e onOff) ++ m.pending }
  | .enableDisableThis (.inl p) e onOff => m.enableDisableProtocol p e onOff
  | .enableDisableThis (.inr s) e onOff => m.enableDisableSignal s e onOff
  | .release p => m.set (m.releaseProtocol m.action p)

/-! ## All calls are made -/

/-- How many calls follow at once, with the call itself. -/
def weight : Call σ ε π → ℕ
  | .emit e _ => (m.connections e).length + 1
  | .enableDisableThis .. => 1
  | .release _ => 1

/-- The calls to enable something, the protocols that can still be disabled, and all calls. -/
def variant [Fintype π] : ℕ × ℕ × ℕ :=
  (((m.pending.filter Call.enables).map m.weight).sum,
    (Finset.univ.filter fun p => (m.disablers p).isEmpty).card,
    (m.pending.map m.weight).sum)

end EnablerModel

/-! ## The lists of disablers -/

section

set_option linter.unusedSectionVars false

variable {σ ε π ι κ : Type*} [DecidableEq σ] [DecidableEq ε] [DecidableEq π] [DecidableEq ι]
  {e x : ε} {onOff : Bool}

theorem AMJsonSignal.mem_enableDisable {y : AMJsonSignal ε π ι κ} (h : y.disablers.Nodup) :
    x ∈ (y.enableDisable e onOff).disablers ↔
      if x = e then onOff = false else x ∈ y.disablers := by
  unfold AMJsonSignal.enableDisable
  by_cases hx : x = e
  · subst hx
    cases onOff with
    | false =>
      by_cases hmem : x ∈ y.disablers <;> simp [hmem]
    | true =>
      by_cases hmem : x ∈ y.disablers <;> simp [hmem, h.mem_erase_iff]
  · split_ifs <;> simp [List.mem_erase_of_ne hx, hx]

theorem AMJsonSignal.nodup_enableDisable {y : AMJsonSignal ε π ι κ} (h : y.disablers.Nodup) :
    (y.enableDisable e onOff).disablers.Nodup := by
  unfold AMJsonSignal.enableDisable
  split_ifs with hadd
  · exact h.append (List.nodup_singleton e) (List.disjoint_singleton.2 hadd.2)
  · exact h.erase e
  · exact h

variable {m : AMSignalsModel σ ε π ι κ} {p q : π}

theorem AMSignalsModel.mem_enableDisableProtocol :
    x ∈ (m.enableDisableProtocol p e onOff).disablers q ↔
      if q = p ∧ x = e then onOff = false else x ∈ m.disablers q := by
  unfold AMSignalsModel.enableDisableProtocol
  by_cases hq : q = p
  · subst hq
    by_cases hx : x = e
    · subst hx
      cases onOff with
      | false =>
        by_cases hmem : x ∈ m.disablers q <;> simp [hmem]
      | true =>
        by_cases hmem : x ∈ m.disablers q <;> simp [hmem]
    · have hne : ¬(q = q ∧ x = e) := fun h => hx h.2
      rw [if_neg hne]
      split_ifs
      · simp [hx]
      · simp [hx]
      · exact Iff.rfl
  · have hne : ¬(q = p ∧ x = e) := fun h => hq h.1
    rw [if_neg hne]
    split_ifs
    · simp [hq]
    · simp [hq]
    · exact Iff.rfl

theorem AMSignalsModel.nodup_enableDisableProtocol (h : (m.disablers q).Nodup) :
    ((m.enableDisableProtocol p e onOff).disablers q).Nodup := by
  unfold AMSignalsModel.enableDisableProtocol
  by_cases hq : q = p
  · subst hq
    split_ifs with hadd
    · simpa using h.append (List.nodup_singleton e) (List.disjoint_singleton.2 hadd.2)
    · simpa using h.filter _
    · exact h
  · split_ifs <;> simpa [hq] using h

end

namespace AMSignalsModel

variable {σ ε π ι κ : Type*} [DecidableEq σ] [DecidableEq ε] [DecidableEq π] [DecidableEq ι]
  {m m' m'' : AMSignalsModel σ ε π ι κ}

set_option linter.unusedSectionVars false

/-- The lists are left as they are. -/
structure Keeps (m m' : AMSignalsModel σ ε π ι κ) : Prop where
  disablers : m'.disablers = m.disablers
  jsonSignals : m'.jsonSignals = m.jsonSignals
  signals : ∀ s, (m'.signals s).disablers = (m.signals s).disablers ∧
    (m'.signals s).itsProtocol = (m.signals s).itsProtocol

theorem Keeps.refl (m : AMSignalsModel σ ε π ι κ) : m.Keeps m := ⟨rfl, rfl, fun _ => ⟨rfl, rfl⟩⟩

theorem Keeps.trans (h : m.Keeps m') (h' : m'.Keeps m'') : m.Keeps m'' where
  disablers := h'.disablers.trans h.disablers
  jsonSignals := h'.jsonSignals.trans h.jsonSignals
  signals s := ⟨(h'.signals s).1.trans (h.signals s).1, (h'.signals s).2.trans (h.signals s).2⟩

theorem keeps_setItem (i : ι) (a : AMJsonGraphicItemAction (σ ⊕ ε)) : m.Keeps (m.setItem i a) :=
  ⟨rfl, rfl, fun _ => ⟨rfl, rfl⟩⟩

theorem keeps_setActivatedAction (s : σ) (p : Option (Processable ι κ)) :
    m.Keeps (m.setActivatedAction s p) where
  disablers := rfl
  jsonSignals := rfl
  signals t := by
    by_cases ht : t = s
    · subst ht
      rw [setActivatedAction, signals_setSignal_self]
      exact ⟨rfl, rfl⟩
    · rw [setActivatedAction, signals_setSignal_of_ne ht]
      exact ⟨rfl, rfl⟩

theorem keeps_call (x : σ ⊕ ε) (on : Bool) (p : Option (Processable ι κ)) : m.Keeps (m.call x on p) := by
  rcases p with _ | (i | k)
  · exact .refl m
  · exact keeps_setItem ..
  · exact keeps_setItem ..

theorem keeps_releaseSignal (action : σ → SignalAction ι ε) (s : σ) :
    m.Keeps (m.releaseSignal action s) := by
  unfold releaseSignal
  cases action s with
  | valueTable => exact (keeps_setActivatedAction s none).trans (keeps_call ..)
  | graphicItem i trueValuesOp trueValues => exact keeps_setItem ..
  | enabler actions => exact .refl m
  | other => exact .refl m

theorem keeps_releaseProtocol (action : σ → SignalAction ι ε) (p : π) :
    m.Keeps (m.releaseProtocol action p) := by
  refine Transition.inv_of_foldl (I := m.Keeps) (fun m' s h => ?_) (.refl m) _
  split_ifs
  · exact h.trans (keeps_releaseSignal action s)
  · exact h

end AMSignalsModel

namespace EnablerModel

variable {σ ε π ι κ : Type*} [DecidableEq σ] [DecidableEq ε] [DecidableEq π] [DecidableEq ι]
  {m : EnablerModel σ ε π ι κ} {s : σ} {e x : ε} {p q : π} {onOff : Bool}

/-! ## All calls are made -/

/-- Either the protocol has just been disabled, or it is as enabled as before. -/
theorem enableDisableProtocol_cases (m : EnablerModel σ ε π ι κ) (p : π) (e : ε) (onOff : Bool) :
    let m' := m.set (m.toAMSignalsModel.enableDisableProtocol p e onOff)
    (m.disablers p = [] ∧ onOff = false ∧ m.enableDisableProtocol p e onOff =
      { m' with pending := ((m.jsonSignals p).flatMap m.triggerAllDisablers).map (.emit · false) ++
        .release p :: m.pending }) ∨
    ((m.disablers p = [] → m'.disablers p = []) ∧ m.enableDisableProtocol p e onOff = m') := by
  intro m'
  have heq : m.enableDisableProtocol p e onOff =
      if (m.disablers p).isEmpty && !(m'.disablers p).isEmpty then
        { m' with pending := ((m.jsonSignals p).flatMap m.triggerAllDisablers).map (.emit · false) ++
          .release p :: m.pending }
      else m' := by
    obtain ⟨d, hd⟩ := m.toAMSignalsModel.enableDisableProtocol_eq p e onOff
    unfold enableDisableProtocol
    simp only [m', set, hd]
    rfl
  rw [heq]
  by_cases hpre : m.disablers p = []
  · by_cases hpost : m'.disablers p = []
    · exact .inr ⟨fun _ => hpost, by simp [hpost]⟩
    · refine .inl ⟨hpre, ?_, by simp [hpre, hpost]⟩
      -- something is on the list now
      obtain ⟨x, hx⟩ := List.exists_mem_of_ne_nil _ hpost
      have hx : x ∈ (m.toAMSignalsModel.enableDisableProtocol p e onOff).disablers p := hx
      rw [AMSignalsModel.mem_enableDisableProtocol] at hx
      split_ifs at hx with hxe
      · exact hx
      · exact absurd (hpre ▸ hx) List.not_mem_nil
  · exact .inr ⟨fun h => absurd h hpre, by simp [hpre]⟩

omit [DecidableEq π] in
/-- Either the signal has just been disabled, or it is as enabled as before. -/
theorem enableDisableSignal_cases (m : EnablerModel σ ε π ι κ) (s : σ) (e : ε) (onOff : Bool) :
    let m' := m.set (m.setSignal s ((m.signals s).enableDisable e onOff))
    m.enableDisableSignal s e onOff = m'.set (m'.releaseSignal m.action s) ∨
    (((m.signals s).disablers = [] → (m'.signals s).disablers = []) ∧
      m.enableDisableSignal s e onOff = m') := by
  intro m'
  have heq : m.enableDisableSignal s e onOff =
      if (m.signals s).getIsEnabled && !(m'.signals s).getIsEnabled then
        m'.set (m'.releaseSignal m.action s)
      else m' := rfl
  rw [heq]
  by_cases hpre : (m.signals s).disablers = []
  · by_cases hpost : (m'.signals s).disablers = []
    · exact .inr ⟨fun _ => hpost, by simp [AMJsonSignal.getIsEnabled, hpost]⟩
    · exact .inl (by simp [AMJsonSignal.getIsEnabled, hpre, hpost])
  · exact .inr ⟨fun h => absurd h hpre, by simp [AMJsonSignal.getIsEnabled, hpre]⟩

theorem connections_make (m : EnablerModel σ ε π ι κ) (c : Call σ ε π) :
    (m.make c).connections = m.connections := by
  rcases c with ⟨e, onOff⟩ | ⟨p | s, e, onOff⟩ | p
  · rfl
  · obtain ⟨-, -, h⟩ | ⟨-, h⟩ := m.enableDisableProtocol_cases p e onOff <;> rw [make, h] <;> rfl
  · obtain h | ⟨-, h⟩ := m.enableDisableSignal_cases s e onOff <;> rw [make, h] <;> rfl
  · rfl

theorem weight_make (m : EnablerModel σ ε π ι κ) (c : Call σ ε π) : (m.make c).weight = m.weight := by
  funext c'
  cases c' with
  | emit e onOff => rw [weight, weight, connections_make]
  | enableDisableThis r e onOff => rfl
  | release p => rfl

theorem disablers_enableDisableProtocol (m : EnablerModel σ ε π ι κ) (p : π) (e : ε) (onOff : Bool) :
    (m.enableDisableProtocol p e onOff).disablers =
      (m.toAMSignalsModel.enableDisableProtocol p e onOff).disablers := by
  obtain ⟨-, -, h⟩ | ⟨-, h⟩ := m.enableDisableProtocol_cases p e onOff <;> rw [h] <;> rfl

theorem disablers_enableDisableSignal (m : EnablerModel σ ε π ι κ) (s : σ) (e : ε) (onOff : Bool) :
    (m.enableDisableSignal s e onOff).disablers = m.disablers := by
  obtain h | ⟨-, h⟩ := m.enableDisableSignal_cases s e onOff
  · rw [h]
    exact (AMSignalsModel.keeps_releaseSignal ..).disablers
  · rw [h]
    rfl

/-- A call that is not to enable something enables no protocol. -/
theorem disablers_ne_nil_of_make {c : Call σ ε π} (hc : c.enables = false) (hq : m.disablers q ≠ []) :
    (m.make c).disablers q ≠ [] := by
  rcases c with ⟨e, onOff⟩ | ⟨p | s, e, onOff⟩ | p
  · exact hq
  · obtain rfl : onOff = false := hc
    obtain ⟨x, hx⟩ := List.exists_mem_of_ne_nil _ hq
    refine List.ne_nil_of_mem (a := x) ?_
    rw [make, disablers_enableDisableProtocol, AMSignalsModel.mem_enableDisableProtocol]
    split_ifs
    · rfl
    · exact hx
  · rwa [make, disablers_enableDisableSignal]
  · rwa [make, set, (AMSignalsModel.keeps_releaseProtocol ..).disablers]

/-- What is still to be done after a call: where a protocol has just been disabled, that follows. -/
theorem make_cases (m : EnablerModel σ ε π ι κ) (c : Call σ ε π) :
    (∃ p e, c = .enableDisableThis (.inl p) e false ∧ m.disablers p = [] ∧
      (m.make c).pending = ((m.jsonSignals p).flatMap m.triggerAllDisablers).map (.emit · false) ++
        .release p :: m.pending) ∨
    (∃ e onOff, c = .emit e onOff ∧
      (m.make c).pending = (m.connections e).map (.enableDisableThis · e onOff) ++ m.pending) ∨
    (m.make c).pending = m.pending := by
  rcases c with ⟨e, onOff⟩ | ⟨p | s, e, onOff⟩ | p
  · exact .inr (.inl ⟨e, onOff, rfl, rfl⟩)
  · obtain ⟨hnil, rfl, h⟩ | ⟨-, h⟩ := m.enableDisableProtocol_cases p e onOff
    · exact .inl ⟨p, e, rfl, hnil, by rw [make, h]⟩
    · exact .inr (.inr (by rw [make, h]; rfl))
  · obtain h | ⟨-, h⟩ := m.enableDisableSignal_cases s e onOff <;>
      exact .inr (.inr (by rw [make, h]; rfl))
  · exact .inr (.inr rfl)

omit [DecidableEq σ] [DecidableEq ε] [DecidableEq ι] in
theorem weight_pos (c : Call σ ε π) : 0 < m.weight c := by
  cases c <;> simp [weight]

/-- Each call leaves less to be done: fewer calls to enable something, fewer protocols that can be
    disabled, or fewer calls. -/
theorem variant_make [Fintype π] {c : Call σ ε π} {l : List (Call σ ε π)} (h : m.pending = c :: l) :
    Prod.Lex (· < ·) (Prod.Lex (· < ·) (· < ·))
      (({ m with pending := l } : EnablerModel σ ε π ι κ).make c).variant m.variant := by
  have hweight := weight_make ({ m with pending := l } : EnablerModel σ ε π ι κ) c
  have hmake := make_cases ({ m with pending := l } : EnablerModel σ ε π ι κ) c
  have hsubset : c.enables = false → ∀ q, m.disablers q ≠ [] →
      (({ m with pending := l } : EnablerModel σ ε π ι κ).make c).disablers q ≠ [] :=
    fun hc q => disablers_ne_nil_of_make (m := { m with pending := l }) hc
  have hdisabled : ∀ p e, c = .enableDisableThis (.inl p) e false →
      (({ m with pending := l } : EnablerModel σ ε π ι κ).make c).disablers p ≠ [] := by
    rintro p e rfl
    refine List.ne_nil_of_mem (a := e) ?_
    rw [make, disablers_enableDisableProtocol, AMSignalsModel.mem_enableDisableProtocol,
      if_pos ⟨rfl, rfl⟩]
  generalize ({ m with pending := l } : EnablerModel σ ε π ι κ).make c = m'
    at hweight hmake hsubset hdisabled ⊢
  have hweight : m'.weight = m.weight := hweight
  have hcard : c.enables = false → (Finset.univ.filter fun p => (m'.disablers p).isEmpty) ⊆
      Finset.univ.filter fun p => (m.disablers p).isEmpty := by
    intro hc q hq
    simp only [Finset.mem_filter, Finset.mem_univ, true_and, List.isEmpty_iff] at hq ⊢
    by_contra hne
    exact hsubset hc q hne hq
  rw [variant, variant, hweight, h]
  have hfewer (hc : c.enables = false)
      (henables : m'.pending.filter Call.enables = l.filter Call.enables)
      (hsum : (m'.pending.map m.weight).sum < ((c :: l).map m.weight).sum) :
      Prod.Lex (· < ·) (Prod.Lex (· < ·) (· < ·))
        (((m'.pending.filter Call.enables).map m.weight).sum,
          (Finset.univ.filter fun p => (m'.disablers p).isEmpty).card, (m'.pending.map m.weight).sum)
        ((((c :: l).filter Call.enables).map m.weight).sum,
          (Finset.univ.filter fun p => (m.disablers p).isEmpty).card,
          ((c :: l).map m.weight).sum) := by
    rw [henables, List.filter_cons_of_neg (by rw [hc]; exact Bool.false_ne_true)]
    refine .right _ ?_
    rcases (Finset.card_le_card (hcard hc)).lt_or_eq with hlt | heq
    · exact .left _ _ hlt
    · rw [heq]
      exact .right _ hsum
  rcases hmake with ⟨p, e, rfl, hnil, hpending⟩ | ⟨e, onOff, rfl, hpending⟩ | hpending
  · -- one protocol less can be disabled
    have hlt : (Finset.univ.filter fun p => (m'.disablers p).isEmpty).card <
        (Finset.univ.filter fun p => (m.disablers p).isEmpty).card := by
      refine Finset.card_lt_card ⟨hcard rfl, fun hsub => hdisabled p e rfl ?_⟩
      have hp := hsub (Finset.mem_filter.2 ⟨Finset.mem_univ p, by rw [hnil]; rfl⟩)
      exact List.isEmpty_iff.1 (Finset.mem_filter.1 hp).2
    have hnested : ((m.jsonSignals p).flatMap m.triggerAllDisablers |>.map
        (Call.emit · false : ε → Call σ ε π)).filter Call.enables = [] :=
      List.filter_eq_nil_iff.2 (List.forall_mem_map.2 fun _ _ => Bool.false_ne_true)
    have henables : m'.pending.filter Call.enables = l.filter Call.enables := by
      rw [hpending, List.filter_append, List.filter_cons_of_neg Bool.false_ne_true]
      exact congrArg (· ++ _) hnested
    rw [henables, List.filter_cons_of_neg Bool.false_ne_true]
    exact .right _ (.left _ _ hlt)
  · -- the slots follow
    have hslots : (((m.connections e).map (Call.enableDisableThis · e onOff)).map m.weight).sum =
        (m.connections e).length := by
      have hone : m.weight ∘ (Call.enableDisableThis · e onOff) = fun _ => 1 := rfl
      rw [List.map_map, hone, List.map_const', List.sum_replicate, smul_eq_mul, mul_one]
    have hpending : m'.pending = (m.connections e).map (Call.enableDisableThis · e onOff) ++ l :=
      hpending
    cases onOff with
    | true =>
      have hall : ((m.connections e).map (Call.enableDisableThis · e true : π ⊕ σ → Call σ ε π)).filter
          Call.enables = (m.connections e).map (Call.enableDisableThis · e true) :=
        List.filter_eq_self.2 (List.forall_mem_map.2 fun _ _ => rfl)
      refine .left _ _ ?_
      rw [hpending, List.filter_append, hall, List.filter_cons_of_pos rfl, List.map_append,
        List.sum_append, hslots, List.map_cons, List.sum_cons, weight]
      omega
    | false =>
      have hnone : ((m.connections e).map
          (Call.enableDisableThis · e false : π ⊕ σ → Call σ ε π)).filter Call.enables = [] :=
        List.filter_eq_nil_iff.2 (List.forall_mem_map.2 fun _ _ => Bool.false_ne_true)
      refine hfewer rfl (by rw [hpending, List.filter_append, hnone, List.nil_append]) ?_
      rw [hpending, List.map_append, List.sum_append, hslots, List.map_cons, List.sum_cons, weight]
      omega
  · have hpending : m'.pending = l := hpending
    have hsum : (l.map m.weight).sum < ((c :: l).map m.weight).sum := by
      have hpos := m.weight_pos c
      rw [List.map_cons, List.sum_cons]
      omega
    cases hc : c.enables with
    | true =>
      refine .left _ _ ?_
      have hpos := m.weight_pos c
      rw [hpending, List.filter_cons_of_pos hc, List.map_cons, List.sum_cons]
      omega
    | false => exact hfewer hc (by rw [hpending]) (hpending ▸ hsum)

/-- All calls are made, and those that come of them. -/
def complete [Fintype π] (m : EnablerModel σ ε π ι κ) : EnablerModel σ ε π ι κ :=
  match _h : m.pending with
  | [] => m
  | c :: l => complete (({ m with pending := l } : EnablerModel σ ε π ι κ).make c)
termination_by m.variant
decreasing_by exact variant_make _h

/-! ## Events -/

/-- What can happen. What a frame makes an enabler emit is an event of its own; `do_active` is not
    set. -/
inductive Event (σ ε ι : Type*)
  | connect2EnabledDisabled (e : ε)
  | enableDisableConnected (e : ε) (onOff : Bool)
  | process (s : σ) (v sup : QVariant) (do_active : Bool)
  | argumentComplete (i : ι) (arg : Argument)
  | forceDeactivation (i : ι)

/-- A step, with all calls that come of it. -/
def step [DecidableEq κ] [Fintype π] (m : EnablerModel σ ε π ι κ) :
    Event σ ε ι → EnablerModel σ ε π ι κ
  | .connect2EnabledDisabled e =>
    (({ m with isConnected := Function.update m.isConnected e true } :
      EnablerModel σ ε π ι κ).make (.emit e false)).complete
  | .enableDisableConnected e onOff => (m.make (.emit e onOff)).complete
  | .process s v sup do_active => m.set (m.processSignal m.action s v sup do_active)
  | .argumentComplete i arg => m.set (m.setItem i ((m.items i).argumentComplete arg))
  | .forceDeactivation i => m.set (m.setItem i (m.items i).forceDeactivation)

/-- One event after the other. -/
def run [DecidableEq κ] [Fintype π] (m : EnablerModel σ ε π ι κ) (l : List (Event σ ε ι)) :
    EnablerModel σ ε π ι κ := l.foldl step m

/-- Before the enablers are connected. -/
structure Initial (m : EnablerModel σ ε π ι κ) : Prop where
  items : ∀ i, (m.items i).Initial
  signals : ∀ s, (m.signals s).activatedAction = none ∧ (m.signals s).disablers = []
  /-- A signal is one of its protocol. -/
  jsonSignals : ∀ s, s ∈ m.jsonSignals (m.signals s).itsProtocol
  disablers : ∀ p, m.disablers p = []
  isConnected : ∀ e, m.isConnected e = false
  pending : m.pending = []

/-- The enablers that keep a protocol or a signal disabled. -/
def disablersOf (m : EnablerModel σ ε π ι κ) : π ⊕ σ → List ε
  | .inl p => m.disablers p
  | .inr s => (m.signals s).disablers

end EnablerModel

/-! ## What is listed -/

namespace AMSignalsModel

variable {σ ε π ι κ : Type*} [DecidableEq σ] [DecidableEq ε] [DecidableEq π] [DecidableEq ι]
  [DecidableEq κ] {m m' : AMSignalsModel σ ε π ι κ} {action : σ → SignalAction ι ε} {s t : σ}
  {i j : ι}

set_option linter.unusedSectionVars false

/-- Where a signal may be listed. -/
def MayList (m : AMSignalsModel σ ε π ι κ) (action : σ → SignalAction ι ε) (s : σ) (i : ι) : Prop :=
  match action s with
  | .valueTable => m.recorded s = some i
  | .graphicItem itsAction _ _ => i = itsAction
  | _ => False

/-- Every item is shown as it should be, and lists only signals that may be listed there. -/
structure Held (m : AMSignalsModel σ ε π ι κ) (action : σ → SignalAction ι ε) : Prop where
  consistent : ∀ i, (m.items i).Consistent
  mayList : ∀ s i, m.Listed s i → m.MayList action s i

/-- What a signal may be listed for has not changed. -/
theorem mayList_congr (h : m'.recorded t = m.recorded t) (j : ι) :
    m'.MayList action t j ↔ m.MayList action t j := by
  unfold MayList
  cases action t with
  | valueTable => rw [h]
  | graphicItem => rfl
  | enabler => rfl
  | other => rfl

theorem Held.of_listed (h : m.Held action) (hcons : ∀ j, (m'.items j).Consistent)
    (hlisted : ∀ t j, m'.Listed t j → m.Listed t j) (hrec : m'.recorded = m.recorded) :
    m'.Held action where
  consistent := hcons
  mayList t j ht := (mayList_congr (congrFun hrec t) j).2 (h.mayList t j (hlisted t j ht))

/-- A signal without a value table asks for its item, or releases it. -/
theorem Held.processItem (h : m.Held action) {op : SetOp} {values : Option (List ℤ)}
    (hs : action s = .graphicItem i op values) (on : Bool) :
    (m.setItem i ((m.items i).process (.inl s) on)).Held action ∧
      ∀ t j, (m.setItem i ((m.items i).process (.inl s) on)).Listed t j ↔
        m.Listed t j ∧ (t = s → on = true) ∨ t = s ∧ j = i ∧ on = true := by
  have hcons : ∀ j, ((m.setItem i ((m.items i).process (.inl s) on)).items j).Consistent :=
    consistent_setItem h.consistent ((h.consistent i).process (.inl s) on)
  have hlisted : ∀ t j, (m.setItem i ((m.items i).process (.inl s) on)).Listed t j ↔
      m.Listed t j ∧ (t = s → on = true) ∨ t = s ∧ j = i ∧ on = true := by
    intro t j
    rw [listed_setItem]
    -- it is listed nowhere else
    have hother : j ≠ i → t = s → ¬m.Listed t j := by
      rintro hj rfl ht
      have hmay := h.mayList t j ht
      unfold MayList at hmay
      rw [hs] at hmay
      exact hj hmay
    by_cases hj : j = i
    · rw [if_pos hj, hj]
      cases on with
      | true => simp [AMJsonGraphicItemAction.mem_process_true, Listed]
      | false => simp [AMJsonGraphicItemAction.mem_process_false (h.consistent i).nodup, Listed]
    · rw [if_neg hj]
      constructor
      · exact fun ht => .inl ⟨ht, fun hts => absurd ht (hother hj hts)⟩
      · rintro (ht | ⟨-, hji, -⟩)
        · exact ht.1
        · exact absurd hji hj
  refine ⟨⟨hcons, fun t j ht => ?_⟩, hlisted⟩
  rcases (hlisted t j).1 ht with ⟨ht, -⟩ | ⟨rfl, rfl, -⟩
  · exact h.mayList t j ht
  · unfold MayList
    rw [hs]

/-- A signal with a value table activates what it has received, or nothing. -/
theorem Held.settle (h : m.Held action) (hs : action s = .valueTable)
    (p : Option (Processable ι κ)) : (m.settle s p).Held action ∧
      ∀ t j, (m.settle s p).Listed t j ↔
        if t = s then p.map m.item = some j else m.Listed t j := by
  have hlisted : ∀ t j, (m.settle s p).Listed t j ↔
      if t = s then p.map m.item = some j else m.Listed t j := by
    intro t j
    rw [listed_settle_iff h.consistent]
    by_cases hts : t = s
    · subst hts
      have hleft : ¬(m.Listed t j ∧ ¬m.recorded t = some j) := fun hl => by
        have hmay := h.mayList t j hl.1
        unfold MayList at hmay
        rw [hs] at hmay
        exact hl.2 hmay
      simp [hleft]
    · simp [hts]
  refine ⟨⟨consistent_call (consistent_call h.consistent _ _ _) _ _ _, fun t j ht => ?_⟩, hlisted⟩
  rw [hlisted] at ht
  have hrec := recorded_settle (m := m) (s := s) (t := t) (p := p)
  split_ifs at ht hrec with hts
  · subst hts
    unfold MayList
    rw [hs]
    exact hrec.trans ht
  · exact (mayList_congr hrec j).2 (h.mayList t j ht)

/-- What a signal has activated is released. -/
theorem Held.releaseSignal (h : m.Held action) (s : σ) : (m.releaseSignal action s).Held action ∧
    ∀ t j, (m.releaseSignal action s).Listed t j ↔ m.Listed t j ∧ t ≠ s := by
  unfold AMSignalsModel.releaseSignal
  -- a signal of another type is not listed
  have hother (hmay : ∀ j, ¬m.MayList action s j) (t : σ) (j : ι) :
      m.Listed t j ↔ m.Listed t j ∧ t ≠ s := by
    refine (and_iff_left_of_imp fun ht hts => ?_).symm
    subst hts
    exact hmay j (h.mayList t j ht)
  cases hs : action s with
  | valueTable =>
    obtain ⟨hheld, hlisted⟩ := h.settle hs none
    simp only [deactivateAllGraphicItems_eq]
    refine ⟨hheld, fun t j => ?_⟩
    rw [hlisted]
    split_ifs with hts <;> simp [hts]
  | graphicItem i op values =>
    obtain ⟨hheld, hlisted⟩ := h.processItem hs false
    refine ⟨hheld, fun t j => (hlisted t j).trans ?_⟩
    simp
  | enabler => exact ⟨h, hother fun j => by simp [MayList, hs]⟩
  | other => exact ⟨h, hother fun j => by simp [MayList, hs]⟩

/-- All signals of a protocol are released. -/
theorem Held.releaseProtocol (h : m.Held action)
    (hsilent : ∀ t j, m.Listed t j → (m.signals t).disablers = []) (p : π) :
    (m.releaseProtocol action p).Held action ∧
      ∀ t j, (m.releaseProtocol action p).Listed t j ↔ m.Listed t j ∧ t ∉ m.jsonSignals p := by
  unfold AMSignalsModel.releaseProtocol
  generalize m.jsonSignals p = l
  -- induction on the signals, the first one first
  induction l generalizing m with
  | nil => exact ⟨h, by simp⟩
  | cons s l ih =>
    rw [List.foldl_cons]
    by_cases hs : (m.signals s).getIsEnabled = true
    · rw [if_pos hs]
      obtain ⟨hheld, hlisted⟩ := h.releaseSignal s
      have hkeeps := keeps_releaseSignal (m := m) action s
      obtain ⟨ih, ihlisted⟩ := ih hheld fun t j ht =>
        (hkeeps.signals t).1.trans (hsilent t j ((hlisted t j).1 ht).1)
      refine ⟨ih, fun t j => (ihlisted t j).trans ?_⟩
      rw [hlisted, List.mem_cons, not_or, and_assoc]
    · rw [if_neg hs]
      obtain ⟨ih, ihlisted⟩ := ih h hsilent
      refine ⟨ih, fun t j => (ihlisted t j).trans ?_⟩
      rw [List.mem_cons, not_or]
      refine and_congr_right fun ht => (and_iff_right ?_).symm
      -- a signal that is disabled has been released before
      rintro rfl
      exact hs (by rw [AMJsonSignal.getIsEnabled, hsilent t j ht]; rfl)

/-- Only a signal that is enabled is listed anew. -/
theorem Held.processSignal (h : m.Held action) (s : σ) (v sup : QVariant) (do_active : Bool) :
    (m.processSignal action s v sup do_active).Held action ∧
      ∀ t j, (m.processSignal action s v sup do_active).Listed t j →
        m.Listed t j ∨ t = s ∧ m.isEnabled s = true := by
  unfold AMSignalsModel.processSignal
  cases hs : action s with
  | valueTable =>
    simp only [process_eq]
    have hsup : (m.setSupplimentary (m.signals s).isSupplementedSignalEntry sup
        ((m.signals s).toActivate v sup)).1.Held action :=
      h.of_listed (consistent_setSupplimentary _ sup h.consistent)
        (fun _ _ => (listed_setSupplimentary _ sup).1) (recorded_setSupplimentary _ sup)
    split_ifs with henabled hnew
    · obtain ⟨hheld, hlisted⟩ := hsup.settle hs ((m.signals s).toActivate v sup)
      refine ⟨hheld, fun t j ht => ?_⟩
      rw [hlisted] at ht
      split_ifs at ht with hts
      · exact .inr ⟨hts, henabled⟩
      · exact .inl ((listed_setSupplimentary _ sup).1 ht)
    · exact ⟨hsup, fun t j ht => .inl ((listed_setSupplimentary _ sup).1 ht)⟩
    · exact ⟨h, fun t j => .inl⟩
  | graphicItem i op values =>
    dsimp only
    split_ifs with henabled
    · obtain ⟨hheld, hlisted⟩ := h.processItem hs
        ((extractSetUnsetAction (m.signals s).polarity op values do_active v).getD v.toBool)
      refine ⟨hheld, fun t j ht => ?_⟩
      rcases (hlisted t j).1 ht with ⟨ht, -⟩ | ⟨hts, -⟩
      · exact .inl ht
      · exact .inr ⟨hts, henabled⟩
    · exact ⟨h, fun t j => .inl⟩
  | enabler => exact ⟨h, fun t j => .inl⟩
  | other => exact ⟨h, fun t j => .inl⟩

theorem keeps_settle (s : σ) (p : Option (Processable ι κ)) : m.Keeps (m.settle s p) :=
  ((keeps_call ..).trans (keeps_call ..)).trans (keeps_setActivatedAction ..)

theorem keeps_setSupplimentary (b : Bool) (sup : QVariant) (p : Option (Processable ι κ)) :
    m.Keeps (m.setSupplimentary b sup p).1 := by
  rcases p with _ | p
  · exact .refl m
  · cases b
    · exact .refl m
    · exact keeps_setItem ..

theorem keeps_processSignal (action : σ → SignalAction ι ε) (s : σ) (v sup : QVariant)
    (do_active : Bool) : m.Keeps (m.processSignal action s v sup do_active) := by
  unfold processSignal
  cases action s with
  | valueTable =>
    simp only [process_eq]
    split_ifs
    · exact (keeps_setSupplimentary ..).trans (keeps_settle ..)
    · exact keeps_setSupplimentary ..
    · exact .refl m
  | graphicItem i op values =>
    dsimp only
    split_ifs
    · exact keeps_setItem ..
    · exact .refl m
  | enabler actions => exact .refl m
  | other => exact .refl m

end AMSignalsModel

/-! ## The invariant -/

namespace EnablerModel

variable {σ ε π ι κ : Type*} [DecidableEq σ] [DecidableEq ε] [DecidableEq π] [DecidableEq ι]
  [DecidableEq κ] {m m' : EnablerModel σ ε π ι κ} {s t : σ} {e x : ε} {p q : π} {i j : ι}
  {r r' : π ⊕ σ} {onOff : Bool} {c : Call σ ε π} {l : List (Call σ ε π)}

set_option linter.unusedSectionVars false

/-- The lists of disablers, but for the calls that are still to be made. These are either all to
    disable something, or to enable what is connected to one enabler. -/
structure Recorded (m : EnablerModel σ ε π ι κ) : Prop where
  nodup : ∀ r, (m.disablersOf r).Nodup
  recorded : ∀ r e, (e ∈ m.disablersOf r ↔ r ∈ m.connections e ∧ m.emitted e = some false) ∨
    ∃ onOff, .enableDisableThis r e onOff ∈ m.pending
  pending : ∀ r e onOff, .enableDisableThis r e onOff ∈ m.pending →
    r ∈ m.connections e ∧ m.emitted e = some onOff
  oneKind : (∀ c ∈ m.pending, c.enables = false) ∨
    ∃ e, ∀ c ∈ m.pending, ∃ r, c = .enableDisableThis r e true

/-- What is disabled is not listed, but for the signals that are still to be released. -/
structure Silent (m : EnablerModel σ ε π ι κ) : Prop where
  held : m.Held m.action
  jsonSignals : ∀ s, s ∈ m.jsonSignals (m.signals s).itsProtocol
  signal : ∀ s i, m.Listed s i → (m.signals s).disablers = []
  protocol : ∀ s i, m.Listed s i → m.disablers (m.signals s).itsProtocol = [] ∨
    .release (m.signals s).itsProtocol ∈ m.pending

theorem signals_enableDisableProtocol (m : EnablerModel σ ε π ι κ) (p : π) (e : ε) (onOff : Bool) :
    (m.enableDisableProtocol p e onOff).signals = m.signals := by
  obtain ⟨d, hd⟩ := m.toAMSignalsModel.enableDisableProtocol_eq p e onOff
  obtain ⟨-, -, h⟩ | ⟨-, h⟩ := m.enableDisableProtocol_cases p e onOff <;> rw [h] <;>
    simp only [set, hd]

/-- The signal that is disabled or enabled, and the others. -/
theorem signals_enableDisableSignal (m : EnablerModel σ ε π ι κ) (s : σ) (e : ε) (onOff : Bool) (t : σ) :
    ((m.enableDisableSignal s e onOff).signals t).disablers =
        (if t = s then (m.signals s).enableDisable e onOff else m.signals t).disablers ∧
      ((m.enableDisableSignal s e onOff).signals t).itsProtocol = (m.signals t).itsProtocol := by
  have hset : ((m.setSignal s ((m.signals s).enableDisable e onOff)).signals t) =
      if t = s then (m.signals s).enableDisable e onOff else m.signals t := by
    split_ifs with hts
    · rw [hts, AMSignalsModel.signals_setSignal_self]
    · rw [AMSignalsModel.signals_setSignal_of_ne hts]
  have hprotocol : ((m.setSignal s ((m.signals s).enableDisable e onOff)).signals t).itsProtocol =
      (m.signals t).itsProtocol := by
    rw [hset]
    split_ifs with hts
    · rw [hts, AMJsonSignal.enableDisable]
      split_ifs <;> rfl
    · rfl
  obtain h | ⟨-, h⟩ := m.enableDisableSignal_cases s e onOff
  · have hkeeps := (AMSignalsModel.keeps_releaseSignal (m := m.setSignal s
      ((m.signals s).enableDisable e onOff)) m.action s).signals t
    rw [h]
    exact ⟨hkeeps.1.trans (congrArg _ hset), hkeeps.2.trans hprotocol⟩
  · rw [h]
    exact ⟨congrArg _ hset, hprotocol⟩

/-- The lists after a call. -/
theorem mem_disablersOf_enableDisableThis (h : (m.disablersOf r).Nodup) :
    x ∈ (m.make (.enableDisableThis r e onOff)).disablersOf r' ↔
      if r' = r ∧ x = e then onOff = false else x ∈ m.disablersOf r' := by
  rcases r with p | s <;> rcases r' with q | t
  · simp only [disablersOf, make, disablers_enableDisableProtocol,
      AMSignalsModel.mem_enableDisableProtocol, Sum.inl.injEq]
  · simp only [disablersOf, make, signals_enableDisableProtocol, reduceCtorEq, false_and, if_false]
  · simp only [disablersOf, make, disablers_enableDisableSignal, reduceCtorEq, false_and, if_false]
  · simp only [disablersOf, make, (m.signals_enableDisableSignal s e onOff t).1, Sum.inr.injEq]
    by_cases hts : t = s
    · simp only [hts, true_and, if_true, AMJsonSignal.mem_enableDisable h]
    · simp only [hts, false_and, if_false]

theorem nodup_enableDisableThis (h : ∀ r, (m.disablersOf r).Nodup) (r' : π ⊕ σ) :
    ((m.make (.enableDisableThis r e onOff)).disablersOf r').Nodup := by
  rcases r with p | s <;> rcases r' with q | t
  · simp only [disablersOf, make, disablers_enableDisableProtocol]
    exact AMSignalsModel.nodup_enableDisableProtocol (h (.inl q))
  · simpa only [disablersOf, make, signals_enableDisableProtocol] using h (.inr t)
  · simpa only [disablersOf, make, disablers_enableDisableSignal] using h (.inl q)
  · simp only [disablersOf, make, (m.signals_enableDisableSignal s e onOff t).1]
    split_ifs
    · exact AMJsonSignal.nodup_enableDisable (h (.inr s))
    · exact h (.inr t)

theorem emitted_make_of_enableDisableThis :
    (m.make (.enableDisableThis r e onOff)).emitted = m.emitted := by
  rcases r with p | s
  · obtain ⟨-, -, h⟩ | ⟨-, h⟩ := m.enableDisableProtocol_cases p e onOff <;> rw [make, h] <;> rfl
  · obtain h | ⟨-, h⟩ := m.enableDisableSignal_cases s e onOff <;> rw [make, h] <;> rfl

/-! ### Emissions -/

/-- An emission, nested in others to disable something or on its own. -/
theorem Recorded.emit (h : m.Recorded)
    (hkind : m.pending = [] ∨ onOff = false ∧ ∀ c ∈ m.pending, c.enables = false) :
    (m.make (.emit e onOff)).Recorded := by
  have hmem : ∀ r x b, .enableDisableThis r x b ∈ (m.make (.emit e onOff)).pending ↔
      (r ∈ m.connections e ∧ x = e ∧ b = onOff) ∨ .enableDisableThis r x b ∈ m.pending := by
    intro r x b
    simp only [make, List.mem_append, List.mem_map, Call.enableDisableThis.injEq]
    constructor
    · rintro (⟨r', hr', rfl, rfl, rfl⟩ | hc)
      · exact .inl ⟨hr', rfl, rfl⟩
      · exact .inr hc
    · rintro (⟨hr, rfl, rfl⟩ | hc)
      · exact .inl ⟨r, hr, rfl, rfl, rfl⟩
      · exact .inr hc
  have hself : (m.make (.emit e onOff)).emitted e = some onOff := Function.update_self ..
  have hother : ∀ x, x ≠ e → (m.make (.emit e onOff)).emitted x = m.emitted x :=
    fun x hx => Function.update_of_ne hx ..
  refine ⟨h.nodup, fun r x => ?_, fun r x b hb => ?_, ?_⟩
  · by_cases hr : r ∈ m.connections e ∧ x = e
    · exact .inr ⟨onOff, (hmem r x onOff).2 (.inl ⟨hr.1, hr.2, rfl⟩)⟩
    · rcases h.recorded r x with hrec | ⟨b, hb⟩
      · refine .inl ?_
        rw [connections_make]
        by_cases hx : x = e
        · -- it is not connected
          have hnot : r ∉ m.connections x := fun hrx => hr ⟨hx ▸ hrx, hx⟩
          exact hrec.trans (iff_of_false (fun hc => hnot hc.1) fun hc => hnot hc.1)
        · rw [hother x hx]
          exact hrec
      · exact .inr ⟨b, (hmem r x b).2 (.inr hb)⟩
  · rw [connections_make]
    rcases (hmem r x b).1 hb with ⟨hr, rfl, rfl⟩ | hold
    · exact ⟨hr, hself⟩
    · obtain ⟨hr, hx⟩ := h.pending r x b hold
      refine ⟨hr, ?_⟩
      by_cases hxe : x = e
      · -- the enabler emits the same again
        rcases hkind with hnil | ⟨rfl, hall⟩
        · exact absurd (hnil ▸ hold) List.not_mem_nil
        · have hb : b = false := hall _ hold
          rw [hxe, hself, hb]
      · rw [hother x hxe, hx]
  · have hpending : (m.make (.emit e onOff)).pending =
        (m.connections e).map (.enableDisableThis · e onOff) ++ m.pending := rfl
    rw [hpending]
    rcases hkind with hnil | ⟨rfl, hall⟩
    · rw [hnil, List.append_nil]
      cases onOff with
      | true =>
        refine .inr ⟨e, List.forall_mem_map.2 fun r _ => ⟨r, rfl⟩⟩
      | false => exact .inl (List.forall_mem_map.2 fun _ _ => rfl)
    · exact .inl (List.forall_mem_append.2 ⟨List.forall_mem_map.2 fun _ _ => rfl, hall⟩)

/-- A slot is called. -/
theorem Recorded.enableDisableThis (h : m.Recorded)
    (hpending : m.pending = .enableDisableThis r e onOff :: l) :
    (({ m with pending := l } : EnablerModel σ ε π ι κ).make (.enableDisableThis r e onOff)).Recorded := by
  obtain ⟨hr, he⟩ := h.pending r e onOff (by rw [hpending]; exact List.mem_cons_self)
  set m₀ : EnablerModel σ ε π ι κ := { m with pending := l } with hm₀
  have hlists : ∀ r', m₀.disablersOf r' = m.disablersOf r' := fun r' => by cases r' <;> rfl
  have hmake := m₀.make_cases (.enableDisableThis r e onOff)
  have hslots : ∀ r' x b, .enableDisableThis r' x b ∈ (m₀.make (.enableDisableThis r e onOff)).pending ↔
      .enableDisableThis r' x b ∈ l := by
    intro r' x b
    rcases hmake with ⟨p, -, -, -, hnew⟩ | ⟨_, _, heq, -⟩ | hnew
    · rw [hnew]
      simp [hm₀]
    · exact absurd heq (by simp)
    · rw [hnew]
  refine ⟨nodup_enableDisableThis fun r' => hlists r' ▸ h.nodup r', fun r' x => ?_,
    fun r' x b hb => ?_, ?_⟩
  · rw [connections_make, emitted_make_of_enableDisableThis,
      mem_disablersOf_enableDisableThis (hlists r ▸ h.nodup r)]
    by_cases hrx : r' = r ∧ x = e
    · obtain ⟨rfl, rfl⟩ := hrx
      refine .inl ?_
      rw [if_pos ⟨rfl, rfl⟩]
      have he : m₀.emitted x = some onOff := he
      rw [he, Option.some_inj]
      exact (and_iff_right hr).symm
    · rw [if_neg hrx, hlists]
      rcases h.recorded r' x with hrec | ⟨b, hb⟩
      · exact .inl hrec
      · refine .inr ⟨b, (hslots r' x b).2 ?_⟩
        rw [hpending] at hb
        rcases List.mem_cons.1 hb with heq | hb
        · injection heq with hr' hx
          exact absurd ⟨hr', hx⟩ hrx
        · exact hb
  · rw [connections_make, emitted_make_of_enableDisableThis]
    refine h.pending r' x b ?_
    rw [hpending]
    exact List.mem_cons_of_mem _ ((hslots r' x b).1 hb)
  · have hkind := h.oneKind
    rw [hpending] at hkind
    rcases hmake with ⟨p, x, heq, -, hnew⟩ | ⟨_, _, heq, -⟩ | hnew
    · -- calls to disable something follow
      injection heq with _ _ hoff
      rw [hnew]
      refine .inl (List.forall_mem_append.2 ⟨List.forall_mem_map.2 fun _ _ => rfl, ?_⟩)
      refine List.forall_mem_cons.2 ⟨rfl, ?_⟩
      rcases hkind with hall | ⟨y, hall⟩
      · exact (List.forall_mem_cons.1 hall).2
      · obtain ⟨r', hr'⟩ := (List.forall_mem_cons.1 hall).1
        injection hr' with _ _ hon
        exact absurd (hoff.symm.trans hon) Bool.false_ne_true
    · exact absurd heq (by simp)
    · rw [hnew]
      exact hkind.imp (fun hall => (List.forall_mem_cons.1 hall).2)
        fun ⟨y, hall⟩ => ⟨y, (List.forall_mem_cons.1 hall).2⟩

theorem Recorded.release (h : m.Recorded) (hpending : m.pending = .release p :: l) :
    (({ m with pending := l } : EnablerModel σ ε π ι κ).make (.release p)).Recorded := by
  have hkeeps := AMSignalsModel.keeps_releaseProtocol (m := m.toAMSignalsModel) m.action p
  have hlists : ∀ r, (({ m with pending := l } : EnablerModel σ ε π ι κ).make
      (.release p)).disablersOf r = m.disablersOf r := by
    rintro (q | s)
    · exact congrFun hkeeps.disablers q
    · exact (hkeeps.signals s).1
  have hmem : ∀ c ∈ l, c ∈ m.pending := fun c hc => hpending ▸ List.mem_cons_of_mem _ hc
  refine ⟨fun r => hlists r ▸ h.nodup r, fun r x => ?_, fun r x b hb => ?_, ?_⟩
  · rw [hlists, connections_make]
    refine (h.recorded r x).imp_right fun ⟨b, hb⟩ => ⟨b, ?_⟩
    rw [hpending] at hb
    exact (List.mem_cons.1 hb).resolve_left (by simp)
  · rw [connections_make]
    exact h.pending r x b (hmem _ hb)
  · exact h.oneKind.imp (fun hall c hc => hall c (hmem c hc))
      fun ⟨y, hall⟩ => ⟨y, fun c hc => hall c (hmem c hc)⟩

/-! ### Silence -/

/-- Nothing changes but the calls that are still to be made. -/
theorem Silent.of_pending (h : m.Silent) (hmodel : m'.toAMSignalsModel = m.toAMSignalsModel)
    (haction : m'.action = m.action)
    (hpending : ∀ p, .release p ∈ m.pending → .release p ∈ m'.pending) : m'.Silent where
  held := by rw [hmodel, haction]; exact h.held
  jsonSignals s := by rw [hmodel]; exact h.jsonSignals s
  signal s i hs := by rw [hmodel] at hs ⊢; exact h.signal s i hs
  protocol s i hs := by
    rw [hmodel] at hs ⊢
    exact (h.protocol s i hs).imp_right (hpending _)

/-- Fewer signals are listed than before, and the lists of disablers are the same. -/
theorem Silent.of_keeps (h : m.Silent) {y : AMSignalsModel σ ε π ι κ}
    (hkeeps : m.toAMSignalsModel.Keeps y) (hheld : y.Held m.action)
    (hlisted : ∀ t j, y.Listed t j → m.Listed t j) : (m.set y).Silent where
  held := hheld
  jsonSignals s := by
    rw [set, hkeeps.jsonSignals, (hkeeps.signals s).2]
    exact h.jsonSignals s
  signal s i hs := (hkeeps.signals s).1.trans (h.signal s i (hlisted s i hs))
  protocol s i hs := by
    rw [set, hkeeps.disablers, (hkeeps.signals s).2]
    exact h.protocol s i (hlisted s i hs)

theorem disablers_enableDisableProtocol_of_ne (hq : q ≠ p) (hnil : m.disablers q = []) :
    (m.enableDisableProtocol p e onOff).disablers q = [] := by
  rw [List.eq_nil_iff_forall_not_mem] at hnil ⊢
  intro x
  rw [disablers_enableDisableProtocol, AMSignalsModel.mem_enableDisableProtocol,
    if_neg fun h => hq h.1]
  exact hnil x

theorem Silent.enableDisableProtocol (h : m.Silent) (p : π) (e : ε) (onOff : Bool) :
    (m.enableDisableProtocol p e onOff).Silent := by
  obtain ⟨d, hd⟩ := m.toAMSignalsModel.enableDisableProtocol_eq p e onOff
  have hother : ∀ q, q ≠ p → m.disablers q = [] →
      (m.enableDisableProtocol p e onOff).disablers q = [] :=
    fun q => disablers_enableDisableProtocol_of_ne
  obtain ⟨-, -, heq⟩ | ⟨hnil, heq⟩ := m.enableDisableProtocol_cases p e onOff
  · -- the signals of the protocol are still to be released
    rw [heq] at hother ⊢
    rw [hd] at hother ⊢
    refine ⟨⟨h.held.consistent, h.held.mayList⟩, h.jsonSignals, h.signal, fun s i hs => ?_⟩
    by_cases hp : (m.signals s).itsProtocol = p
    · exact .inr (List.mem_append_right _ (hp ▸ List.mem_cons_self))
    · refine (h.protocol s i hs).imp (hother _ hp) fun hrelease => ?_
      exact List.mem_append_right _ (List.mem_cons_of_mem _ hrelease)
  · rw [heq] at hother ⊢
    rw [hd] at hnil hother ⊢
    refine ⟨⟨h.held.consistent, h.held.mayList⟩, h.jsonSignals, h.signal, fun s i hs => ?_⟩
    refine (h.protocol s i hs).imp_left fun hq => ?_
    by_cases hp : (m.signals s).itsProtocol = p
    · rw [hp] at hq
      exact hp ▸ hnil hq
    · exact hother _ hp hq

theorem Silent.enableDisableSignal (h : m.Silent) (s : σ) (e : ε) (onOff : Bool) :
    (m.enableDisableSignal s e onOff).Silent := by
  have hsignals := m.signals_enableDisableSignal s e onOff
  have hheld : (m.setSignal s ((m.signals s).enableDisable e onOff)).Held m.action :=
    h.held.of_listed h.held.consistent (fun _ _ ht => ht)
      (AMSignalsModel.recorded_enableDisable e onOff)
  have hprotocol := m.disablers_enableDisableSignal s e onOff
  obtain heq | ⟨hnil, heq⟩ := m.enableDisableSignal_cases s e onOff
  · -- the signal is released
    obtain ⟨hreleased, hlisted⟩ := hheld.releaseSignal s
    have hkeeps := AMSignalsModel.keeps_releaseSignal (m := m.setSignal s
      ((m.signals s).enableDisable e onOff)) m.action s
    rw [heq] at hsignals hprotocol ⊢
    refine ⟨hreleased, fun t => ?_, fun t j ht => ?_, fun t j ht => ?_⟩
    · rw [(hsignals t).2]
      exact (congrArg (t ∈ ·) (congrFun hkeeps.jsonSignals _)).mpr (h.jsonSignals t)
    · obtain ⟨ht, hts⟩ := (hlisted t j).1 ht
      have hsame := (hsignals t).1
      rw [if_neg hts] at hsame
      exact hsame.trans (h.signal t j ht)
    · rw [(hsignals t).2, hprotocol]
      exact h.protocol t j ((hlisted t j).1 ht).1
  · rw [heq] at hsignals hprotocol ⊢
    refine ⟨hheld, fun t => ?_, fun t j ht => ?_, fun t j ht => ?_⟩
    · rw [(hsignals t).2]
      exact h.jsonSignals t
    · by_cases hts : t = s
      · rw [hts]
        exact hnil (hts ▸ h.signal t j ht)
      · have hsame := (hsignals t).1
        rw [if_neg hts] at hsame
        exact hsame.trans (h.signal t j ht)
    · rw [(hsignals t).2, hprotocol]
      exact h.protocol t j ht

theorem Silent.release (h : m.Silent) (hpending : m.pending = .release p :: l) :
    (({ m with pending := l } : EnablerModel σ ε π ι κ).make (.release p)).Silent := by
  obtain ⟨hheld, hlisted⟩ := h.held.releaseProtocol h.signal p
  have hkeeps := AMSignalsModel.keeps_releaseProtocol (m := m.toAMSignalsModel) m.action p
  refine ⟨hheld, fun t => ?_, fun t j ht => ?_, fun t j ht => ?_⟩
  · have hmem := h.jsonSignals t
    rwa [← hkeeps.jsonSignals, ← (hkeeps.signals t).2] at hmem
  · exact (hkeeps.signals t).1.trans (h.signal t j ((hlisted t j).1 ht).1)
  · obtain ⟨ht, hnot⟩ := (hlisted t j).1 ht
    have hsame : (({ m with pending := l } : EnablerModel σ ε π ι κ).make
        (.release p)).signals t = (m.releaseProtocol m.action p).signals t := rfl
    rw [hsame, (hkeeps.signals t).2]
    refine (h.protocol t j ht).imp (fun hnil => ?_) fun hrelease => ?_
    · exact (congrFun hkeeps.disablers _).trans hnil
    · rw [hpending] at hrelease
      refine (List.mem_cons.1 hrelease).resolve_left fun heq => ?_
      -- the signals of this one have been released
      injection heq with hp
      exact hnot (hp ▸ h.jsonSignals t)

/-- A call that comes next. -/
theorem inv_make (hrec : m.Recorded) (hsilent : m.Silent) (hpending : m.pending = c :: l) :
    (({ m with pending := l } : EnablerModel σ ε π ι κ).make c).Recorded ∧
      (({ m with pending := l } : EnablerModel σ ε π ι κ).make c).Silent := by
  have hrest (hc : ∀ p, c ≠ .release p) : ({ m with pending := l } : EnablerModel σ ε π ι κ).Silent :=
    hsilent.of_pending rfl rfl fun p hp => by
      rw [hpending] at hp
      exact (List.mem_cons.1 hp).resolve_left fun heq => hc p heq.symm
  cases c with
  | emit e onOff =>
    have hrest := hrest (by simp)
    refine ⟨?_, hrest.of_pending rfl rfl fun p hp => List.mem_append_right _ hp⟩
    have hkind := hrec.oneKind
    rw [hpending] at hkind
    have hmem : ∀ r x b, .enableDisableThis r x b ∈ m.pending ↔ .enableDisableThis r x b ∈ l := by
      intro r x b
      rw [hpending]
      simp
    have hrec' : ({ m with pending := l } : EnablerModel σ ε π ι κ).Recorded := by
      refine ⟨hrec.nodup, fun r x => ?_, fun r x b hb => ?_, ?_⟩
      · exact (hrec.recorded r x).imp_right fun ⟨b, hb⟩ => ⟨b, (hmem r x b).1 hb⟩
      · exact hrec.pending r x b ((hmem r x b).2 hb)
      · exact hkind.imp (fun hall => (List.forall_mem_cons.1 hall).2)
          fun ⟨y, hall⟩ => ⟨y, (List.forall_mem_cons.1 hall).2⟩
    refine hrec'.emit (.inr ?_)
    rcases hkind with hall | ⟨y, hall⟩
    · exact List.forall_mem_cons.1 hall
    · obtain ⟨r, hr⟩ := (List.forall_mem_cons.1 hall).1
      exact absurd hr (by simp)
  | enableDisableThis r e onOff =>
    refine ⟨hrec.enableDisableThis hpending, ?_⟩
    rcases r with p | s
    · exact (hrest (by simp)).enableDisableProtocol p e onOff
    · exact (hrest (by simp)).enableDisableSignal s e onOff
  | release p => exact ⟨hrec.release hpending, hsilent.release hpending⟩

theorem complete_of_nil [Fintype π] (h : m.pending = []) : m.complete = m := by
  rw [complete]
  split
  · rfl
  · exact absurd (h.symm.trans ‹_›) (List.cons_ne_nil _ _).symm

theorem complete_of_cons [Fintype π] (h : m.pending = c :: l) :
    m.complete = (({ m with pending := l } : EnablerModel σ ε π ι κ).make c).complete := by
  rw [complete]
  split
  · exact absurd (h.symm.trans ‹_›) (List.cons_ne_nil _ _)
  · obtain ⟨rfl, rfl⟩ := List.cons.inj (h.symm.trans ‹_›)
    rfl

/-- All calls have been made in the end. -/
theorem inv_complete [Fintype π] (hrec : m.Recorded) (hsilent : m.Silent) :
    m.complete.Recorded ∧ m.complete.Silent ∧ m.complete.pending = [] := by
  induction m using complete.induct with
  | case1 m hnil =>
    rw [complete_of_nil hnil]
    exact ⟨hrec, hsilent, hnil⟩
  | case2 m c l hcons ih =>
    obtain ⟨hrec, hsilent⟩ := inv_make hrec hsilent hcons
    rw [complete_of_cons hcons]
    exact ih hrec hsilent

/-! ### Every event -/

/-- The enabler has not been connected before: nothing depends on what it has emitted. -/
theorem Recorded.connect (h : m.Recorded) (hpending : m.pending = []) (he : m.isConnected e = false) :
    ({ m with
      isConnected := Function.update m.isConnected e true
      emitted := Function.update m.emitted e none } : EnablerModel σ ε π ι κ).Recorded := by
  have hnil : m.connections e = [] := by
    unfold connections
    rw [he]
    rfl
  refine ⟨h.nodup, fun r x => .inl ?_, fun r x b hb => ?_, .inl fun c hc => ?_⟩
  · have hrec := (h.recorded r x).resolve_right fun ⟨b, hb⟩ =>
      absurd (hpending ▸ hb) List.not_mem_nil
    by_cases hx : x = e
    · subst hx
      rw [hnil] at hrec
      refine hrec.trans (iff_of_false (fun hr => absurd hr.1 List.not_mem_nil) fun hr => ?_)
      have hnone := hr.2
      simp at hnone
    · have hconnections : connections ({ m with
          isConnected := Function.update m.isConnected e true
          emitted := Function.update m.emitted e none } : EnablerModel σ ε π ι κ) x =
            m.connections x := by
        simp only [connections, Function.update_of_ne hx]
        rfl
      have hemitted : Function.update m.emitted e none x = m.emitted x := Function.update_of_ne hx ..
      rw [hconnections]
      exact hrec.trans (and_congr_right' (Iff.of_eq (congrArg (· = some false) hemitted.symm)))
  · exact absurd (hpending ▸ hb) List.not_mem_nil
  · exact absurd (hpending ▸ hc) List.not_mem_nil

/-- The lists of disablers are the same, and nothing is pending. -/
theorem Recorded.of_keeps (h : m.Recorded) {y : AMSignalsModel σ ε π ι κ}
    (hkeeps : m.toAMSignalsModel.Keeps y) : (m.set y).Recorded := by
  have hlists : ∀ r, (m.set y).disablersOf r = m.disablersOf r := by
    rintro (p | s)
    · exact congrFun hkeeps.disablers p
    · exact (hkeeps.signals s).1
  refine ⟨fun r => hlists r ▸ h.nodup r, fun r x => ?_, h.pending, h.oneKind⟩
  rw [hlists]
  exact h.recorded r x

/-- What holds between two events. -/
def Inv (m : EnablerModel σ ε π ι κ) : Prop := m.Recorded ∧ m.Silent ∧ m.pending = []

theorem Inv.step [Fintype π] (h : m.Inv) (ev : Event σ ε ι) : (m.step ev).Inv := by
  obtain ⟨hrec, hsilent, hpending⟩ := h
  cases ev with
  | connect2EnabledDisabled e =>
    refine inv_complete ?_ (hsilent.of_pending rfl rfl fun p hp => List.mem_append_right _ hp)
    cases he : m.isConnected e with
    | true =>
      -- it emits once more
      have hsame : ({ m with isConnected := Function.update m.isConnected e true } :
          EnablerModel σ ε π ι κ) = m := by
        rw [← he, Function.update_eq_self]
      rw [hsame]
      exact hrec.emit (.inl hpending)
    | false =>
      have hemit : (make _ (.emit e false)).Recorded := (hrec.connect hpending he).emit (.inl hpending)
      have hsame : make ({ m with
          isConnected := Function.update m.isConnected e true
          emitted := Function.update m.emitted e none } : EnablerModel σ ε π ι κ) (.emit e false) =
          make ({ m with isConnected := Function.update m.isConnected e true } :
            EnablerModel σ ε π ι κ) (.emit e false) := by
        simp only [make, Function.update_idem]
        rfl
      rwa [hsame] at hemit
  | enableDisableConnected e onOff =>
    exact inv_complete (hrec.emit (.inl hpending))
      (hsilent.of_pending rfl rfl fun p hp => List.mem_append_right _ hp)
  | process s v sup do_active =>
    have hkeeps := AMSignalsModel.keeps_processSignal (m := m.toAMSignalsModel) m.action s v sup
      do_active
    obtain ⟨hheld, hlisted⟩ := hsilent.held.processSignal s v sup do_active
    -- what is listed anew is enabled
    have hnew : ∀ t j, (m.processSignal m.action s v sup do_active).Listed t j → m.Listed t j ∨
        (m.signals t).disablers = [] ∧ m.disablers (m.signals t).itsProtocol = [] := by
      intro t j ht
      refine (hlisted t j ht).imp_right ?_
      rintro ⟨rfl, henabled⟩
      rw [AMSignalsModel.isEnabled, Bool.and_eq_true, AMJsonSignal.getIsEnabled, List.isEmpty_iff,
        List.isEmpty_iff] at henabled
      exact ⟨henabled.2, henabled.1⟩
    refine ⟨hrec.of_keeps hkeeps, ⟨hheld, fun t => ?_, fun t j ht => ?_, fun t j ht => ?_⟩, hpending⟩
    · rw [EnablerModel.step, set, hkeeps.jsonSignals, (hkeeps.signals t).2]
      exact hsilent.jsonSignals t
    · refine (hkeeps.signals t).1.trans ?_
      exact (hnew t j ht).elim (hsilent.signal t j) And.left
    · rw [EnablerModel.step, set, hkeeps.disablers, (hkeeps.signals t).2]
      exact (hnew t j ht).elim (hsilent.protocol t j) fun hnil => .inl hnil.2
  | argumentComplete i arg =>
    have hkeeps := AMSignalsModel.keeps_setItem (m := m.toAMSignalsModel) i
      ((m.items i).argumentComplete arg)
    have hlisted : ∀ t j, (m.setItem i ((m.items i).argumentComplete arg)).Listed t j →
        m.Listed t j := fun t j => (AMSignalsModel.listed_setItem_of_iff fun t => by
      rw [AMJsonGraphicItemAction.activators_argumentComplete, AMSignalsModel.Listed]).1
    refine ⟨hrec.of_keeps hkeeps, hsilent.of_keeps hkeeps (hsilent.held.of_listed ?_ hlisted rfl)
      hlisted, hpending⟩
    exact AMSignalsModel.consistent_setItem hsilent.held.consistent
      ((hsilent.held.consistent i).step (.argumentComplete arg))
  | forceDeactivation i =>
    have hkeeps := AMSignalsModel.keeps_setItem (m := m.toAMSignalsModel) i
      (m.items i).forceDeactivation
    have hlisted : ∀ t j, (m.setItem i (m.items i).forceDeactivation).Listed t j → m.Listed t j := by
      intro t j ht
      have ht := AMSignalsModel.listed_setItem.1 ht
      split_ifs at ht
      · exact absurd ht List.not_mem_nil
      · exact ht
    refine ⟨hrec.of_keeps hkeeps, hsilent.of_keeps hkeeps (hsilent.held.of_listed ?_ hlisted rfl)
      hlisted, hpending⟩
    exact AMSignalsModel.consistent_setItem hsilent.held.consistent
      (hsilent.held.consistent i).forceDeactivation

theorem Initial.inv (h : m.Initial) : m.Inv := by
  have hlists : ∀ r, m.disablersOf r = [] := by
    rintro (p | s)
    · exact h.disablers p
    · exact (h.signals s).2
  have hlisted : ∀ s i, ¬m.Listed s i := fun s i hs => by
    rw [AMSignalsModel.Listed, (h.items i).activators] at hs
    exact absurd hs List.not_mem_nil
  have hconnections : ∀ e, m.connections e = [] := fun e => by
    rw [connections, h.isConnected e]
    rfl
  refine ⟨⟨fun r => hlists r ▸ List.nodup_nil, fun r e => .inl ?_, fun r e b hb => ?_,
    .inl fun c hc => ?_⟩, ⟨⟨fun i => (h.items i).consistent, fun s i hs => absurd hs (hlisted s i)⟩,
    h.jsonSignals, fun s i hs => absurd hs (hlisted s i), fun s i hs => absurd hs (hlisted s i)⟩,
    h.pending⟩
  · simp [hlists, hconnections]
  · exact absurd (h.pending ▸ hb) List.not_mem_nil
  · exact absurd (h.pending ▸ hc) List.not_mem_nil

/-- After any events, a signal that is disabled or belongs to a disabled protocol is listed by no
    item, and the disablers of a signal or a protocol are the enablers connected to it that have
    emitted `false` last, each of them once. -/
theorem silent_of_run [Fintype π] (h : m.Initial) (l : List (Event σ ε ι)) :
    (∀ s, (m.run l).isEnabled s = false → ∀ i, ¬(m.run l).Listed s i) ∧
    ∀ r, ((m.run l).disablersOf r).Nodup ∧ ∀ e, e ∈ (m.run l).disablersOf r ↔
      r ∈ (m.run l).connections e ∧ (m.run l).emitted e = some false := by
  obtain ⟨hrec, hsilent, hpending⟩ : (m.run l).Inv :=
    Transition.inv_of_foldl (fun m ev h => h.step ev) h.inv l
  refine ⟨fun s hs i hlisted => ?_, fun r => ⟨hrec.nodup r, fun e => ?_⟩⟩
  · have hprotocol := (hsilent.protocol s i hlisted).resolve_right fun hrelease =>
      absurd (hpending ▸ hrelease) List.not_mem_nil
    rw [AMSignalsModel.isEnabled, AMJsonSignal.getIsEnabled, hprotocol, hsilent.signal s i hlisted]
      at hs
    exact absurd hs (by simp)
  · exact (hrec.recorded r e).resolve_right fun ⟨b, hb⟩ => absurd (hpending ▸ hb) List.not_mem_nil

/-- Two protocols with one signal each: that of the first one is an enabler for the second protocol,
    that of the second one shows an item, and has an enabler of its own. -/
def twoProtocols : EnablerModel Bool Bool Bool Unit Empty where
  items _ := ⟨false, false, false, .int 0, 0, 0, 0, "", false, ⟨[⟨0, 0, 0, 0, ""⟩], 0⟩, []⟩
  invokers k := k.elim
  signals s := ⟨s, fun _ => none, none, true, false, .na, none, []⟩
  disablers _ := []
  jsonSignals p := [p]
  action s := if s then .graphicItem () .or (some [1]) else .enabler [false]
  itsJsonProtocol e := e
  getProtocol e := if e then none else some true
  getSignalEntries e := if e then [true] else []
  isConnected _ := false
  emitted _ := none
  pending := []

theorem initial_twoProtocols : twoProtocols.Initial where
  items _ := ⟨rfl, rfl, rfl, List.forall_mem_singleton.2 rfl, rfl⟩
  signals _ := ⟨rfl, rfl⟩
  jsonSignals _ := List.mem_singleton_self _
  disablers _ := rfl
  isConnected _ := rfl
  pending := rfl

/-- The item is shown, and its protocol disabled. -/
theorem silent_of_run_twoProtocols :
    let m := twoProtocols.run [.connect2EnabledDisabled false, .connect2EnabledDisabled true,
      .enableDisableConnected true true, .enableDisableConnected false true,
      .process true (.int 1) (.int 0) false, .enableDisableConnected false false]
    (∀ s, m.isEnabled s = false → ∀ i, ¬m.Listed s i) ∧
      ∀ r, (m.disablersOf r).Nodup ∧ ∀ e, e ∈ m.disablersOf r ↔
        r ∈ m.connections e ∧ m.emitted e = some false :=
  silent_of_run initial_twoProtocols _

end EnablerModel

end EW8.Display
