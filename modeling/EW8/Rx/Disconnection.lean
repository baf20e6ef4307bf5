import EW8.Display.GraphicItem
import EW8.Lib.Transition

/-!
# The alert for a lost connection

If no keep-alive frame comes for a time, the thread of a timer sets a flag and activates the alert
(`fireConnectionTimeout`). With each such frame the receiving thread clears both, if the flag is
set, and starts the timer again, which waits for the thread of the timer to end
(`resetConnectionTimeout`). Each thread takes one statement at a time.

* The alert stays active if a frame is processed between the two statements of the timer
  (`alert_fails_of_between`), or if the time is over after the flag has been tested.
* `Orderly`: the other steps. After each run of them, the alert is active exactly if the flag is set,
  and it is not if the timer has not fired since the last frame (`alert_of_run`).
-/

namespace EW8.Rx.Disconnection

open EW8.Display (Argument MainProcess RootedTreeNode)

/-- The thread of the timer: the wait, the test of `stopRequested_` after it, or the next statement of
    `fireConnectionTimeout`. -/
inductive TimerThread
  | waitFor
  | testStopRequested
  | setAlert
  | activate
  | forceUpdate
  | finished
  deriving DecidableEq, Repr

/-- The thread that receives: the wait for a keep-alive frame, or the next statement of
    `resetConnectionTimeout`; `start` stops the timer first, and joins its thread. -/
inductive Receiver
  | readFrame
  | testAlert
  | deactivate
  | forceUpdate
  | clearAlert
  | requestStop
  | join
  deriving DecidableEq, Repr

/-- `MeDisconnectionReport`, with its timer and its threads. -/
structure State where
  isInDisconnectionAlert : Bool
  stopRequested : Bool
  timerThread : TimerThread
  receiver : Receiver
  /-- The display, as far as `ALERT_NOCOM` goes. -/
  itsDisplay : MainProcess
  /-- For statements only: `resetConnectionTimeout` has been completed, and no later timeout followed. -/
  isReset : Bool

/-- What can happen: a keep-alive frame comes, the time of the timer is over, or a thread takes its next
    step. -/
inductive Action
  | keepAlive
  | timeout
  | timerThread
  | receiver
  deriving DecidableEq, Repr

namespace State

variable (s : State)

/-- The loop of `start`, with `fireConnectionTimeout`. -/
def stepTimerThread : Option State :=
  match s.timerThread with
  | .waitFor => if s.stopRequested then some { s with timerThread := .finished } else none
  | .testStopRequested =>
    if s.stopRequested then some { s with timerThread := .finished }
    else some { s with timerThread := .setAlert, isReset := false }
  | .setAlert => some { s with timerThread := .activate, isInDisconnectionAlert := true }
  | .activate =>
    some { s with timerThread := .forceUpdate, itsDisplay := s.itsDisplay.activate (.ints 0 0 0) }
  -- what is active stays so, and the timer is a single shot
  | .forceUpdate => some { s with timerThread := .finished }
  | .finished => none

/-- `resetConnectionTimeout`. -/
def stepReceiver : Option State :=
  match s.receiver with
  | .readFrame => none
  | .testAlert =>
    some { s with receiver := if s.isInDisconnectionAlert then .deactivate else .requestStop }
  | .deactivate => some { s with receiver := .forceUpdate, itsDisplay := s.itsDisplay.deactivate }
  | .forceUpdate => some { s with receiver := .clearAlert }
  | .clearAlert => some { s with receiver := .requestStop, isInDisconnectionAlert := false }
  | .requestStop => some { s with receiver := .join, stopRequested := true }
  | .join =>
    if s.timerThread = .finished then
      some { s with
        receiver := .readFrame
        stopRequested := false
        timerThread := .waitFor
        isReset := true }
    else none

/-- A step. -/
def step : Action → Option State
  | .keepAlive => if s.receiver = .readFrame then some { s with receiver := .testAlert } else none
  | .timeout =>
    if s.timerThread = .waitFor ∧ s.stopRequested = false then
      some { s with timerThread := .testStopRequested }
    else none
  | .timerThread => s.stepTimerThread
  | .receiver => s.stepReceiver

/-- The timer has been started, on a display. -/
def initial (itsDisplay : MainProcess) : State where
  isInDisconnectionAlert := false
  stopRequested := false
  timerThread := .waitFor
  receiver := .readFrame
  itsDisplay := itsDisplay
  isReset := false

/-- One of the two functions is in progress. -/
def IsInProgress : Prop :=
  s.receiver ≠ .readFrame ∨ s.timerThread = .setAlert ∨ s.timerThread = .activate ∨
    s.timerThread = .forceUpdate

/-- The alert is active exactly if the flag is set, and it is inactive after a reset. -/
def Consistent : Prop :=
  (¬s.IsInProgress → s.itsDisplay.Counts s.isInDisconnectionAlert) ∧
    (s.isReset = true → s.itsDisplay.Counts false)

/-- The alert is not deactivated between the two statements of the timer, and the timer does not fire
    after the flag has been tested. -/
def Orderly (s : State) : Action → Prop
  | .receiver => s.receiver = .deactivate → s.timerThread ≠ .activate
  | .timerThread => s.timerThread = .setAlert → s.receiver ≠ .requestStop ∧ s.receiver ≠ .join
  | _ => True

instance : (a : Action) → Decidable (s.Orderly a)
  | .keepAlive | .timeout => isTrue trivial
  | .timerThread | .receiver => inferInstanceAs (Decidable (_ → _))

end State

/-! ## The invariant -/

/-- The timer has set the flag. -/
def TimerThread.hasSet : TimerThread → Bool
  | .waitFor | .testStopRequested | .setAlert => false
  | .activate | .forceUpdate | .finished => true

/-- It has activated the alert, too. -/
def TimerThread.hasActivated : TimerThread → Bool
  | .waitFor | .testStopRequested | .setAlert | .activate => false
  | .forceUpdate | .finished => true

namespace State

variable (s : State)

/-- What the flag and the display are, by the statement that comes next for a frame. -/
def Stage : Prop :=
  match s.receiver with
  | .readFrame | .testAlert =>
    s.isInDisconnectionAlert = s.timerThread.hasSet ∧ s.itsDisplay.Counts s.timerThread.hasActivated
  | .deactivate =>
    s.isInDisconnectionAlert = true ∧ s.timerThread.hasSet = true ∧
      s.itsDisplay.Counts s.timerThread.hasActivated
  | .forceUpdate | .clearAlert =>
    s.isInDisconnectionAlert = true ∧ s.timerThread.hasActivated = true ∧ s.itsDisplay.Counts false
  | .requestStop | .join =>
    s.isInDisconnectionAlert = false ∧ s.timerThread ≠ .activate ∧ s.itsDisplay.Counts false

/-- What holds after orderly steps. -/
structure Inv : Prop where
  stage : s.Stage
  stopRequested : s.stopRequested = true → s.receiver = .join
  isReset : s.isReset = true → s.receiver = .requestStop ∨ s.receiver = .join ∨
    s.timerThread = .waitFor ∨ s.timerThread = .testStopRequested

variable {s} {t : State}

theorem inv_initial {d : MainProcess} (hd : d.Counts false) : (initial d).Inv where
  stage := ⟨rfl, hd⟩
  stopRequested := fun h => by cases h
  isReset := fun h => by cases h

/-- The stage depends on the timer by what it has done. -/
theorem Stage.of_timerThread {c : TimerThread} {b : Bool} (h : s.Stage)
    (hset : c.hasSet = s.timerThread.hasSet) (hactivated : c.hasActivated = s.timerThread.hasActivated)
    (hne : c ≠ .activate) : Stage { s with timerThread := c, isReset := b } := by
  unfold Stage at h ⊢
  cases hr : s.receiver with
  | readFrame | testAlert =>
    rw [hr] at h
    exact ⟨h.1.trans hset.symm, hactivated ▸ h.2⟩
  | deactivate =>
    rw [hr] at h
    exact ⟨h.1, hset.trans h.2.1, hactivated ▸ h.2.2⟩
  | forceUpdate | clearAlert =>
    rw [hr] at h
    exact ⟨h.1, hactivated.trans h.2.1, h.2.2⟩
  | requestStop | join =>
    rw [hr] at h
    exact ⟨h.1, hne, h.2.2⟩

/-! ### The thread of the timer -/

/-- A timer that has been stopped ends. -/
theorem Inv.end_stopped (h : s.Inv) (hstop : s.stopRequested = true) :
    Inv { s with timerThread := .finished } where
  stage := by
    have hr : s.receiver = .join := h.stopRequested hstop
    have hstage := h.stage
    rw [Stage, hr] at hstage ⊢
    exact ⟨hstage.1, TimerThread.noConfusion, hstage.2.2⟩
  stopRequested := h.stopRequested
  isReset := fun _ => .inr (.inl (h.stopRequested hstop))

/-- A timer that fires does so after the last reset. -/
theorem Inv.fire (h : s.Inv) (htimer : s.timerThread = .testStopRequested) :
    Inv { s with timerThread := .setAlert, isReset := false } where
  stage := h.stage.of_timerThread (by rw [htimer]; rfl) (by rw [htimer]; rfl) TimerThread.noConfusion
  stopRequested := h.stopRequested
  isReset := fun hreset => by cases hreset

theorem Inv.setAlert (h : s.Inv) (htimer : s.timerThread = .setAlert)
    (hC : s.receiver ≠ .requestStop ∧ s.receiver ≠ .join) :
    Inv { s with timerThread := .activate, isInDisconnectionAlert := true } where
  stage := by
    have hstage := h.stage
    unfold Stage at hstage ⊢
    rw [htimer] at hstage
    cases hr : s.receiver with
    | readFrame | testAlert =>
      rw [hr] at hstage
      exact ⟨rfl, hstage.2⟩
    | deactivate | forceUpdate | clearAlert =>
      -- this timer has not set the flag yet
      rw [hr] at hstage
      cases hstage.2.1
    | requestStop => exact absurd hr hC.1
    | join => exact absurd hr hC.2
  stopRequested := h.stopRequested
  isReset := fun hreset => by
    have hcases := h.isReset hreset
    simp [htimer, hC.1, hC.2] at hcases

theorem Inv.activate (h : s.Inv) (htimer : s.timerThread = .activate) (arg : Argument) :
    Inv { s with timerThread := .forceUpdate, itsDisplay := s.itsDisplay.activate arg } where
  stage := by
    have hstage := h.stage
    unfold Stage at hstage ⊢
    rw [htimer] at hstage
    cases hr : s.receiver with
    | readFrame | testAlert =>
      rw [hr] at hstage
      exact ⟨hstage.1, MainProcess.counts_activate hstage.2⟩
    | deactivate =>
      rw [hr] at hstage
      exact ⟨hstage.1, rfl, MainProcess.counts_activate hstage.2.2⟩
    | forceUpdate | clearAlert =>
      rw [hr] at hstage
      cases hstage.2.1
    | requestStop | join =>
      rw [hr] at hstage
      exact absurd rfl hstage.2.1
  stopRequested := h.stopRequested
  isReset := fun hreset => by
    have hcases := h.isReset hreset
    simp only [htimer, reduceCtorEq, or_false] at hcases
    exact hcases.imp_right .inl

theorem Inv.forceUpdate (h : s.Inv) (htimer : s.timerThread = .forceUpdate) :
    Inv { s with timerThread := .finished } where
  stage := h.stage.of_timerThread (by rw [htimer]; rfl) (by rw [htimer]; rfl) TimerThread.noConfusion
  stopRequested := h.stopRequested
  isReset := fun hreset => by
    have hcases := h.isReset hreset
    simp only [htimer, reduceCtorEq, or_false] at hcases
    exact hcases.imp_right .inl

theorem Inv.stepTimerThread (h : s.Inv) (hC : s.Orderly .timerThread)
    (ht : s.stepTimerThread = some t) : t.Inv := by
  rw [State.stepTimerThread] at ht
  cases htimer : s.timerThread with
  | waitFor =>
    rw [htimer] at ht
    dsimp only at ht
    split at ht
    case isTrue hstop => exact Option.some.inj ht ▸ h.end_stopped hstop
    case isFalse => cases ht
  | testStopRequested =>
    rw [htimer] at ht
    dsimp only at ht
    split at ht
    case isTrue hstop => exact Option.some.inj ht ▸ h.end_stopped hstop
    case isFalse => exact Option.some.inj ht ▸ h.fire htimer
  | setAlert =>
    rw [htimer] at ht
    exact Option.some.inj ht ▸ h.setAlert htimer (hC htimer)
  | activate =>
    rw [htimer] at ht
    exact Option.some.inj ht ▸ h.activate htimer _
  | forceUpdate =>
    rw [htimer] at ht
    exact Option.some.inj ht ▸ h.forceUpdate htimer
  | finished =>
    rw [htimer] at ht
    cases ht

theorem Inv.timeout (h : s.Inv) (ht : s.step .timeout = some t) : t.Inv := by
  rw [step] at ht
  split at ht
  case isFalse => cases ht
  case isTrue hwait =>
    obtain rfl := Option.some.inj ht
    exact {
      stage := h.stage.of_timerThread (by rw [hwait.1]; rfl) (by rw [hwait.1]; rfl)
        TimerThread.noConfusion
      stopRequested := h.stopRequested
      isReset := fun _ => .inr (.inr (.inr rfl)) }

/-! ### The receiving thread -/

theorem Inv.keepAlive (h : s.Inv) (ht : s.step .keepAlive = some t) : t.Inv := by
  rw [step] at ht
  split at ht
  case isFalse => cases ht
  case isTrue hr =>
    obtain rfl := Option.some.inj ht
    have hstage := h.stage
    rw [Stage, hr] at hstage
    refine ⟨hstage, fun hstop => ?_, fun hreset => ?_⟩
    · cases hr.symm.trans (h.stopRequested hstop)
    · have hcases := h.isReset hreset
      simp only [hr, reduceCtorEq, false_or] at hcases
      exact .inr (.inr hcases)

theorem Inv.testAlert (h : s.Inv) (hr : s.receiver = .testAlert) :
    Inv { s with receiver := if s.isInDisconnectionAlert then .deactivate else .requestStop } := by
  obtain ⟨hflag, hcounts⟩ : s.isInDisconnectionAlert = s.timerThread.hasSet ∧
      s.itsDisplay.Counts s.timerThread.hasActivated := by
    have hstage := h.stage
    rwa [Stage, hr] at hstage
  have hstop : s.stopRequested ≠ true := fun hstop => by cases hr.symm.trans (h.stopRequested hstop)
  split
  case isTrue halert =>
    exact {
      stage := ⟨halert, hflag.symm.trans halert, hcounts⟩
      stopRequested := fun h => absurd h hstop
      isReset := fun hreset => by
        have hcases := h.isReset hreset
        simp only [hr, reduceCtorEq, false_or] at hcases
        exact .inr (.inr hcases) }
  case isFalse halert =>
    have hset : s.timerThread.hasSet = false := hflag ▸ Bool.eq_false_iff.2 halert
    have hne : s.timerThread ≠ .activate := fun heq => by simp [heq, TimerThread.hasSet] at hset
    have hactivated : s.timerThread.hasActivated = false := by
      cases htimer : s.timerThread <;> simp_all [TimerThread.hasSet, TimerThread.hasActivated]
    exact {
      stage := ⟨Bool.eq_false_iff.2 halert, hne, hactivated ▸ hcounts⟩
      stopRequested := fun h => absurd h hstop
      isReset := fun _ => .inl rfl }

theorem Inv.deactivate (h : s.Inv) (hr : s.receiver = .deactivate)
    (hC : s.timerThread ≠ .activate) :
    Inv { s with receiver := .forceUpdate, itsDisplay := s.itsDisplay.deactivate } := by
  obtain ⟨hflag, hset, hcounts⟩ : s.isInDisconnectionAlert = true ∧ s.timerThread.hasSet = true ∧
      s.itsDisplay.Counts s.timerThread.hasActivated := by
    have hstage := h.stage
    rwa [Stage, hr] at hstage
  have hactivated : s.timerThread.hasActivated = true := by
    cases htimer : s.timerThread <;> simp_all [TimerThread.hasSet, TimerThread.hasActivated]
  exact {
    stage := ⟨hflag, hactivated, MainProcess.counts_deactivate hcounts⟩
    stopRequested := fun hstop => by cases hr.symm.trans (h.stopRequested hstop)
    isReset := fun hreset => by
      have hcases := h.isReset hreset
      simp only [hr, reduceCtorEq, false_or] at hcases
      exact .inr (.inr hcases) }

theorem Inv.stepReceiver (h : s.Inv) (hC : s.Orderly .receiver) (ht : s.stepReceiver = some t) :
    t.Inv := by
  rw [State.stepReceiver] at ht
  have hstage := h.stage
  have hstop := h.stopRequested
  have hreset := h.isReset
  unfold Stage at hstage
  cases hr : s.receiver with
  | readFrame =>
    rw [hr] at ht
    cases ht
  | testAlert =>
    rw [hr] at ht
    exact Option.some.inj ht ▸ h.testAlert hr
  | deactivate =>
    rw [hr] at ht
    exact Option.some.inj ht ▸ h.deactivate hr (hC hr)
  | forceUpdate =>
    rw [hr] at ht hstage hstop
    simp only [hr, reduceCtorEq, false_or] at hreset
    obtain rfl := Option.some.inj ht
    exact ⟨hstage, fun h => (by cases hstop h), fun h => .inr (.inr (hreset h))⟩
  -- the timer thread has activated the alert already, and is not about to do so again
  | clearAlert =>
    rw [hr] at ht hstage hstop
    obtain rfl := Option.some.inj ht
    obtain ⟨-, hactivated, hcounts⟩ := hstage
    have hne : s.timerThread ≠ .activate := fun heq => by
      simp [heq, TimerThread.hasActivated] at hactivated
    exact ⟨⟨rfl, hne, hcounts⟩, fun h => (by cases hstop h), fun _ => .inl rfl⟩
  | requestStop =>
    rw [hr] at ht hstage
    obtain rfl := Option.some.inj ht
    exact ⟨hstage, fun _ => rfl, fun _ => .inr (.inl rfl)⟩
  | join =>
    rw [hr] at ht hstage
    dsimp only at ht
    split at ht
    case isFalse => cases ht
    obtain rfl := Option.some.inj ht
    exact ⟨⟨hstage.1, hstage.2.2⟩, fun h => (by cases h), fun _ => .inr (.inr (.inl rfl))⟩

/-- An orderly step keeps the invariant. -/
theorem Inv.step (a : Action) (h : s.Inv) (hC : s.Orderly a) (ht : s.step a = some t) : t.Inv := by
  cases a with
  | keepAlive => exact h.keepAlive ht
  | timeout => exact h.timeout ht
  | timerThread => exact h.stepTimerThread hC ht
  | receiver => exact h.stepReceiver hC ht

theorem Inv.consistent (h : s.Inv) : s.Consistent := by
  have hstage := h.stage
  unfold Stage at hstage
  constructor
  · intro hnot
    simp only [IsInProgress, not_or, not_ne_iff] at hnot
    obtain ⟨hr, hset, hactivate, hupdate⟩ := hnot
    rw [hr] at hstage
    obtain ⟨hflag, hcounts⟩ := hstage
    cases htimer : s.timerThread <;>
      simp_all [TimerThread.hasSet, TimerThread.hasActivated]
  · intro hreset
    have hcases := h.isReset hreset
    -- before the timer has fired, a frame can only be between its last statements
    cases hr : s.receiver with
    | readFrame | testAlert =>
      rw [hr] at hstage
      simp only [hr, reduceCtorEq, false_or] at hcases
      rcases hcases with htimer | htimer <;> exact (htimer ▸ hstage.2 : s.itsDisplay.Counts _)
    | deactivate =>
      rw [hr] at hstage
      simp only [hr, reduceCtorEq, false_or] at hcases
      rcases hcases with htimer | htimer <;> simp [htimer, TimerThread.hasSet] at hstage
    | forceUpdate | clearAlert | requestStop | join =>
      rw [hr] at hstage
      exact hstage.2.2

end State

/-! ## The alert is consistent -/

/-- In each run whose steps are orderly, the alert is active exactly if the flag is set, whenever none
    of the two functions is in progress, and it is inactive as long as no timeout has followed a
    completed reset. -/
theorem alert_of_run {d : MainProcess} (hd : d.Counts false) {l : List Action} {t : State}
    (h : Transition.Meets State.step State.Orderly (State.initial d) l)
    (hrun : Transition.run State.step (State.initial d) l = some t) : t.Consistent :=
  (Transition.inv_of_meets (fun _ a _ hs hC ht => hs.step a hC ht) (State.inv_initial hd) h
    hrun).consistent

/-- A display with one item for the alert. -/
def oneNode : MainProcess := ⟨[⟨0, 0, 0, 0, ""⟩], 0⟩

/-- `alert_of_run` for a timeout and a frame after it. -/
theorem alert_of_run_frame :
    ∃ t, Transition.run State.step (State.initial oneNode) [.timeout, .timerThread, .timerThread,
        .timerThread, .timerThread, .keepAlive, .receiver, .receiver, .receiver, .receiver, .receiver,
        .receiver] = some t ∧ ¬t.IsInProgress ∧ t.Consistent :=
  ⟨_, rfl, by simp [State.IsInProgress], alert_of_run (l := [.timeout, .timerThread, .timerThread,
    .timerThread, .timerThread, .keepAlive, .receiver, .receiver, .receiver, .receiver, .receiver,
    .receiver]) (fun n hn => by simp_all [oneNode]) (by decide) rfl⟩

/-- The timer sets the flag, a frame is processed up to the restart of the timer, and then the timer
    activates the alert. -/
theorem alert_fails_of_between :
    ∃ t, Transition.run State.step (State.initial oneNode) [.timeout, .timerThread, .timerThread,
        .keepAlive, .receiver, .receiver, .receiver, .receiver, .receiver, .timerThread, .timerThread,
        .receiver] = some t ∧ ¬t.IsInProgress ∧ t.isReset = true ∧
      t.isInDisconnectionAlert = false ∧ t.itsDisplay.Counts true ∧ ¬t.Consistent := by
  refine ⟨_, rfl, by simp [State.IsInProgress], rfl, rfl, fun n hn => ?_, fun h => ?_⟩
  · obtain rfl := List.mem_singleton.1 hn
    rfl
  · exact absurd (h.2 rfl _ List.mem_cons_self) (by decide)

/-- The flag is tested before the time is over, and the timer stopped after it has fired. -/
example : (Transition.run State.step (State.initial oneNode) [.keepAlive, .receiver, .timeout,
    .timerThread, .timerThread, .timerThread, .timerThread, .receiver, .receiver]).map (fun t =>
      (t.receiver, t.timerThread, t.isReset, t.itsDisplay.nodes.map (·.activationSemaphore))) =
    some (.readFrame, .waitFor, true, [1]) := by
  decide

end EW8.Rx.Disconnection
