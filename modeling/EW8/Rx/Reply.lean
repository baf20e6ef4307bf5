import EW8.Rx.Gate
import EW8.Lib.Transition

/-!
# A request and its reply

Three threads share the variables of a request: one writes the frame of the request and calls
`expectRequestId` then; one receives the frames, byte by byte; and that of the timer calls
`discardRequestId`. Each takes one statement at a time.

* `Sender`, `Receiver`, `TimerThread`: where the threads are, by their next statements.
* A reply is lost if it is received before `expectRequestId` has been called
  (`answered_fails_of_early`).
* `Orderly`: the steps that lose none. If there are no others, each reply that arrives after its
  request has been written, and before the request times out or another one is written,
  answers the request, unless that has been answered already (`answered_of_run`).

Frames are those of messages with the two signals of a request, which are enabled, and as
their validators accept them; all others leave the variables alone.
-/

namespace EW8.Rx.Reply

/-- The two bytes of a frame, and for statements only the request that it is a reply to: the one that
    was open when it arrived. -/
structure Frame where
  lsb : UInt8
  msb : UInt8
  request : Option ℕ
  deriving DecidableEq, Repr

/-- The frame carries this id. -/
def Frame.Carries (f : Frame) (requestId : UInt16) : Prop :=
  f.lsb = requestId.toUInt8 ∧ f.msb = (requestId >>> 8).toUInt8

instance (f : Frame) (requestId : UInt16) : Decidable (f.Carries requestId) := instDecidableAnd

/-- The thread that sends: `write_frame` or the next statement of `expectRequestId`. -/
inductive Sender
  | writeFrame
  | setRequestId (aRequestId : UInt16)
  | setRequestSent
  | clearLSBByteReceived
  | startRequestTimeoutTimer
  deriving DecidableEq, Repr

/-- The thread that receives: `read_frame` or what comes next for a frame. -/
inductive Receiver
  | readFrame
  | receiveLSB (f : Frame)
  | receiveMSB (f : Frame)
  | stopRequestTimeoutTimer (f : Frame)
  | check (f : Frame)
  deriving DecidableEq, Repr

/-- The thread of the timer: it waits, or the next statement of `discardRequestId`. -/
inductive TimerThread
  | wait
  | clearLSBByteReceived
  | clearRequestSent
  deriving DecidableEq, Repr

/-- The variables and the threads. -/
structure State where
  request : Request
  sender : Sender
  receiver : Receiver
  timerThread : TimerThread
  isTimerActive : Bool
  /-- The frames that have arrived. -/
  socket : List Frame
  /-- For statements only: the number and the id of the last request that has been written, and whether
      it is neither timed out nor followed by another one. -/
  current : ℕ
  currentId : UInt16
  isOpen : Bool
  /-- For statements only: the requests that the id and the timer are those of. -/
  armed : ℕ
  timed : ℕ
  /-- For statements only: the requests to which a reply has been processed, and those that have been
      answered. -/
  finished : List ℕ
  answered : List ℕ
  deriving DecidableEq, Repr

/-- What can happen: a request is written, a frame arrives, the time is over, or a thread takes its next
    step. -/
inductive Action
  | write (aRequestId : UInt16)
  | arrive (lsb msb : UInt8)
  | timeout
  | sender
  | receiver
  | timerThread
  deriving DecidableEq, Repr

namespace State

variable (s : State)

/-- `expectRequestId`, after `write_frame`. Starting a timer waits for its thread. -/
def stepSender : Option State :=
  match s.sender with
  | .writeFrame => none
  | .setRequestId aRequestId =>
    some { s with
      request := { s.request with requestId := aRequestId }
      sender := .setRequestSent
      armed := s.current }
  | .setRequestSent =>
    some { s with
      request := { s.request with isRequestSent := true }
      sender := .clearLSBByteReceived }
  | .clearLSBByteReceived =>
    some { s with
      request := { s.request with isRequestIdLSBByteReceived := false }
      sender := .startRequestTimeoutTimer }
  | .startRequestTimeoutTimer =>
    if s.timerThread = .wait then
      some { s with sender := .writeFrame, isTimerActive := true, timed := s.armed }
    else none

/-- The loop over the signals of a frame, and `stopRequestTimeoutTimer`, which waits for the thread of
    the timer. -/
def stepReceiver : Option State :=
  match s.receiver with
  | .readFrame =>
    match s.socket with
    | [] => none
    | f :: l => some { s with socket := l, receiver := .receiveLSB f }
  | .receiveLSB f =>
    some { s with
      request := s.request.receiveRequestIdByteLSB f.lsb
      receiver := .receiveMSB f }
  | .receiveMSB f =>
    some { s with
      request := s.request.receiveRequestIdByteMSB f.msb
      receiver :=
        if s.request.isRequestIdLSBByteReceived &&
            f.msb.toUInt16 == (s.request.requestId >>> 8 &&& 0xff) then
          .stopRequestTimeoutTimer f
        else .check f }
  | .stopRequestTimeoutTimer f =>
    if s.timerThread = .wait then some { s with receiver := .check f, isTimerActive := false } else none
  | .check f =>
    let s := { s with receiver := .readFrame, finished := f.request.toList ++ s.finished }
    if s.request.isRequestIdLSBByteReceived && !s.request.isRequestSent then
      -- the other signals are processed
      some { s with
        answered :=
          if f.Carries s.request.requestId then s.armed :: s.answered else s.answered }
    else some { s with request := { s.request with isRequestIdLSBByteReceived := false } }

/-- `discardRequestId`, in `fireRequestTimeout`. -/
def stepTimerThread : Option State :=
  match s.timerThread with
  | .wait => none
  | .clearLSBByteReceived =>
    some { s with
      request := { s.request with isRequestIdLSBByteReceived := false }
      timerThread := .clearRequestSent }
  | .clearRequestSent =>
    some { s with
      request := { s.request with isRequestSent := false }
      timerThread := .wait }

/-- A step. -/
def step : Action → Option State
  | .write aRequestId =>
    if s.sender = .writeFrame then
      some { s with
        sender := .setRequestId aRequestId
        current := s.current + 1
        currentId := aRequestId
        isOpen := true }
    else none
  | .arrive lsb msb =>
    let f : Frame := ⟨lsb, msb, none⟩
    some { s with
      socket := s.socket ++ [
        if s.isOpen ∧ f.Carries s.currentId then { f with request := some s.current } else f] }
  | .timeout =>
    if s.isTimerActive ∧ s.timerThread = .wait then
      some { s with
        isTimerActive := false
        timerThread := .clearLSBByteReceived
        isOpen := if s.timed = s.current then false else s.isOpen }
    else none
  | .sender => s.stepSender
  | .receiver => s.stepReceiver
  | .timerThread => s.stepTimerThread

/-- Before the first request. -/
def initial : State where
  request := ⟨0, false, false⟩
  sender := .writeFrame
  receiver := .readFrame
  timerThread := .wait
  isTimerActive := false
  socket := []
  current := 0
  currentId := 0
  isOpen := false
  armed := 0
  timed := 0
  finished := []
  answered := []

/-! ## The steps that lose no reply -/

/-- The frame that is being processed. -/
def frame : Option Frame :=
  match s.receiver with
  | .readFrame => none
  | .receiveLSB f | .receiveMSB f | .stopRequestTimeoutTimer f | .check f => some f

/-- The frames that have arrived and have not been processed to the end. -/
def pending : List Frame := s.frame.toList ++ s.socket

/-- A byte of a frame has been received. -/
def IsHalfReceived : Prop :=
  ∃ f, s.receiver = .receiveMSB f ∨ s.receiver = .stopRequestTimeoutTimer f ∨ s.receiver = .check f

instance : Decidable s.IsHalfReceived :=
  match h : s.receiver with
  | .readFrame => isFalse fun ⟨_, hf⟩ => by simp [h] at hf
  | .receiveLSB _ => isFalse fun ⟨_, hf⟩ => by simp [h] at hf
  | .receiveMSB f => isTrue ⟨f, .inl h⟩
  | .stopRequestTimeoutTimer f => isTrue ⟨f, .inr (.inl h)⟩
  | .check f => isTrue ⟨f, .inr (.inr h)⟩

/-- The request can be answered: it is open, or a reply to it has arrived while it was. -/
def Live (m : ℕ) : Prop :=
  m ∉ s.answered ∧ (m = s.current ∧ s.isOpen = true ∨ ∃ f ∈ s.pending, f.request = some m)

instance (m : ℕ) : Decidable (s.Live m) := instDecidableAnd

/-- The first statement of `expectRequestId` is not executed while a frame is half received, or a reply
    to the request before has not been processed; the first byte of a frame is not received during
    the next two statements, and that of a reply not before them. And the timer discards no
    request that can be answered, and none while a frame is half received. -/
def Orderly (s : State) : Action → Prop
  | .sender => ∀ aRequestId, s.sender = .setRequestId aRequestId → ¬s.IsHalfReceived ∧
      ∀ f ∈ s.pending, ∀ m ∈ f.request, m = s.current ∨ m ∈ s.answered
  | .receiver => ∀ f, s.receiver = .receiveLSB f → s.sender ≠ .setRequestSent ∧
      s.sender ≠ .clearLSBByteReceived ∧
      (f.request = some s.current → ∀ aRequestId, s.sender ≠ .setRequestId aRequestId)
  | .timerThread => (s.timerThread = .clearLSBByteReceived → ¬s.IsHalfReceived) ∧
      (s.timerThread = .clearRequestSent → s.sender = .setRequestSent ∨ ¬s.Live s.armed)
  | _ => True

instance : Decidable (∃ aRequestId, s.sender = .setRequestId aRequestId) :=
  match s.sender with
  | .setRequestId aRequestId => isTrue ⟨aRequestId, rfl⟩
  | .writeFrame | .setRequestSent | .clearLSBByteReceived | .startRequestTimeoutTimer =>
    isFalse fun ⟨_, hi⟩ => Sender.noConfusion hi

instance : (a : Action) → Decidable (s.Orderly a)
  | .write _ | .arrive _ _ | .timeout => isTrue trivial
  | .sender =>
    decidable_of_iff ((∃ aRequestId, s.sender = .setRequestId aRequestId) → ¬s.IsHalfReceived ∧
      ∀ f ∈ s.pending, ∀ m ∈ f.request, m = s.current ∨ m ∈ s.answered) forall_exists_index
  | .receiver =>
    match h : s.receiver with
    | .receiveLSB f =>
      decidable_of_iff (s.sender ≠ .setRequestSent ∧ s.sender ≠ .clearLSBByteReceived ∧
        (f.request = some s.current → ¬∃ aRequestId, s.sender = .setRequestId aRequestId))
        (by simp [Orderly, h])
    | .readFrame | .receiveMSB _ | .stopRequestTimeoutTimer _ | .check _ =>
      isTrue fun f hf => by simp [h] at hf
  | .timerThread => instDecidableAnd

/-! ## The invariant -/

/-- The id is that of the frame that is being processed, which has answered the request. -/
def Matched (f : Frame) : Prop :=
  f.Carries s.request.requestId ∧ s.request.isRequestIdLSBByteReceived = true ∧
    s.request.isRequestSent = false

/-- The request that the frame is a reply to has been answered, or is the one with the id. -/
def Fits (f : Frame) : Prop := ∀ m, f.request = some m → m ∉ s.answered → m = s.armed

/-- What is known of a frame that is being processed, by the next statement. -/
def Stage : Prop :=
  match s.receiver with
  | .readFrame | .receiveLSB _ => True
  | .receiveMSB f =>
    s.Fits f ∧ (s.request.isRequestIdLSBByteReceived = true → f.lsb = s.request.requestId.toUInt8) ∧
      (∀ m, f.request = some m → m ∉ s.answered → s.request.isRequestIdLSBByteReceived = true)
  | .stopRequestTimeoutTimer f => s.Fits f ∧ s.Matched f
  | .check f => s.Fits f ∧ ∀ m, f.request = some m → m ∉ s.answered → s.Matched f

/-- What holds after orderly steps. -/
structure Inv : Prop where
  setRequestId : ∀ aRequestId, s.sender = .setRequestId aRequestId →
    aRequestId = s.currentId ∧ s.armed < s.current
  armed_eq : (∀ aRequestId, s.sender ≠ .setRequestId aRequestId) →
    s.armed = s.current ∧ s.request.requestId = s.currentId
  between : s.IsHalfReceived → s.sender ≠ .setRequestSent ∧ s.sender ≠ .clearLSBByteReceived
  le_current : ∀ f ∈ s.pending, ∀ m, f.request = some m → m ≤ s.current
  carries_currentId : ∀ f ∈ s.pending, f.request = some s.current → f.Carries s.currentId
  carries_requestId : ∀ f ∈ s.pending, f.request = some s.armed → f.Carries s.request.requestId
  eq_or_eq : ∀ f ∈ s.pending, ∀ m, f.request = some m → m ∉ s.answered → m = s.current ∨ m = s.armed
  -- the request is outstanding as long as it can be answered, up to the end of its reply
  sent : s.Live s.armed → s.sender ≠ .setRequestSent → s.request.isRequestSent = true ∨
    ∃ f, (s.receiver = .stopRequestTimeoutTimer f ∨ s.receiver = .check f) ∧ s.Matched f
  stage : s.Stage
  finished_subset : s.finished ⊆ s.answered

variable {s} {t : State}

theorem inv_initial : initial.Inv where
  setRequestId := fun _ h => by cases h
  armed_eq := fun _ => ⟨rfl, rfl⟩
  between := fun ⟨_, h⟩ => by rcases h with h | h | h <;> cases h
  le_current := fun _ h => absurd h List.not_mem_nil
  carries_currentId := fun _ h => absurd h List.not_mem_nil
  carries_requestId := fun _ h => absurd h List.not_mem_nil
  eq_or_eq := fun _ h => absurd h List.not_mem_nil
  sent := by
    rintro ⟨_, ⟨_, hopen⟩ | ⟨f, hf, _⟩⟩
    · cases hopen
    · exact absurd hf List.not_mem_nil
  stage := trivial
  finished_subset := List.Subset.refl _

/-- What can be answered does not depend on how far the frames have been processed. -/
theorem Live.of_pending {m : ℕ} (h : t.Live m) (hpending : s.pending = t.pending)
    (hcurrent : s.current = t.current) (hopen : s.isOpen = t.isOpen)
    (hanswered : s.answered = t.answered) : s.Live m := by
  unfold Live at h ⊢
  rwa [hpending, hcurrent, hopen, hanswered]

/-- Before both bytes of a frame have been received, none has answered the request. -/
theorem Inv.isRequestSent (h : s.Inv) (hlive : s.Live s.armed) (hsender : s.sender ≠ .setRequestSent)
    (hhalf : ∀ f, s.receiver ≠ .stopRequestTimeoutTimer f ∧ s.receiver ≠ .check f) :
    s.request.isRequestSent = true := by
  refine (h.sent hlive hsender).resolve_right ?_
  rintro ⟨f, hf | hf, _⟩
  · exact (hhalf f).1 hf
  · exact (hhalf f).2 hf

theorem Inv.isRequestSent' (h : s.Inv) (hlive : s.Live s.armed)
    (hsender : s.sender ≠ .setRequestSent) (hhalf : ¬s.IsHalfReceived) :
    s.request.isRequestSent = true :=
  h.isRequestSent hlive hsender fun f =>
    ⟨fun hf => hhalf ⟨f, .inr (.inl hf)⟩, fun hf => hhalf ⟨f, .inr (.inr hf)⟩⟩

/-- Between two frames, nothing is known of any. -/
theorem stage_of_not_isHalfReceived (h : ¬s.IsHalfReceived) : s.Stage := by
  unfold Stage
  split
  case h_1 | h_2 => trivial
  case h_3 f hf => exact absurd ⟨f, .inl hf⟩ h
  case h_4 f hf => exact absurd ⟨f, .inr (.inl hf)⟩ h
  case h_5 f hf => exact absurd ⟨f, .inr (.inr hf)⟩ h

theorem not_isHalfReceived_of_readFrame (h : s.receiver = .readFrame) : ¬s.IsHalfReceived := by
  rintro ⟨f, hf⟩
  simp [h] at hf

theorem not_isHalfReceived_of_receiveLSB {f : Frame} (h : s.receiver = .receiveLSB f) :
    ¬s.IsHalfReceived := by
  rintro ⟨g, hg⟩
  simp [h] at hg

/-! ## The steps -/

theorem Inv.write (h : s.Inv) (aRequestId : UInt16) (ht : s.step (.write aRequestId) = some t) :
    t.Inv := by
  rw [step] at ht
  obtain ⟨hsender, rfl⟩ : s.sender = .writeFrame ∧ _ := by
    split at ht
    · next hsender => exact ⟨hsender, Option.some.inj ht⟩
    · cases ht
  have harmed : s.armed = s.current := (h.armed_eq (by simp [hsender])).1
  have hne : s.sender ≠ .setRequestSent := by simp [hsender]
  refine {
    setRequestId := fun i hi => ?_
    armed_eq := fun hset => absurd rfl (hset aRequestId)
    between := fun _ => ⟨Sender.noConfusion, Sender.noConfusion⟩
    le_current := fun f hf m hm => (h.le_current f hf m hm).trans (Nat.le_succ _)
    carries_currentId := fun f hf hm => ?_
    carries_requestId := h.carries_requestId
    eq_or_eq := fun f hf m hm hnot => ?_
    sent := fun hlive _ => ?_
    stage := h.stage
    finished_subset := h.finished_subset }
  · rw [← Sender.setRequestId.inj hi]
    exact ⟨rfl, harmed ▸ Nat.lt_succ_self _⟩
  · -- no reply has arrived yet
    exact absurd (h.le_current f hf _ hm) (Nat.not_succ_le_self _)
  · rcases h.eq_or_eq f hf m hm hnot with hm | hm
    · exact .inr (hm.trans harmed.symm)
    · exact .inr hm
  · -- only a reply that has arrived before keeps the last request alive
    obtain ⟨hnot, ⟨heq, _⟩ | hpending⟩ := hlive
    · exact absurd (harmed.symm.trans heq) (Nat.succ_ne_self _).symm
    · exact h.sent ⟨hnot, .inr hpending⟩ hne

theorem Inv.arrive (h : s.Inv) (lsb msb : UInt8) (ht : s.step (.arrive lsb msb) = some t) :
    t.Inv := by
  rw [step, Option.some.injEq] at ht
  obtain ⟨g, hg, htag⟩ : ∃ g : Frame, t = { s with socket := s.socket ++ [g] } ∧
      ∀ m, g.request = some m → m = s.current ∧ s.isOpen = true ∧ g.Carries s.currentId := by
    refine ⟨_, ht.symm, fun m hm => ?_⟩
    split at hm
    · next hopen =>
      rw [if_pos hopen]
      exact ⟨(Option.some.inj hm).symm, hopen⟩
    · cases hm
  subst hg
  -- the frame that has arrived is the only new one
  have hmem : ∀ f, f ∈ s.frame.toList ++ (s.socket ++ [g]) → f ∈ s.pending ∨ f = g := by
    intro f hf
    rw [← List.append_assoc] at hf
    exact (List.mem_append.1 hf).imp_right List.mem_singleton.1
  refine {
    setRequestId := h.setRequestId
    armed_eq := h.armed_eq
    between := h.between
    le_current := fun f hf m hm => ?_
    carries_currentId := fun f hf hm => ?_
    carries_requestId := fun f hf hm => ?_
    eq_or_eq := fun f hf m hm hnot => ?_
    sent := fun hlive hsender => h.sent ?_ hsender
    stage := h.stage
    finished_subset := h.finished_subset }
  · rcases hmem f hf with hf | rfl
    · exact h.le_current f hf m hm
    · exact (htag m hm).1.le
  · rcases hmem f hf with hf | rfl
    · exact h.carries_currentId f hf hm
    · exact (htag _ hm).2.2
  · rcases hmem f hf with hf | rfl
    · exact h.carries_requestId f hf hm
    · obtain ⟨harmed, _, hcarries⟩ := htag _ hm
      have hset : ∀ i, s.sender ≠ .setRequestId i := fun i hi =>
        (h.setRequestId i hi).2.ne harmed
      exact (h.armed_eq hset).2.symm ▸ hcarries
  · rcases hmem f hf with hf | rfl
    · exact h.eq_or_eq f hf m hm hnot
    · exact .inl (htag m hm).1
  · obtain ⟨hnot, hopen | ⟨f, hf, hm⟩⟩ := hlive
    · exact ⟨hnot, .inl hopen⟩
    · rcases hmem f hf with hf | rfl
      · exact ⟨hnot, .inr ⟨f, hf, hm⟩⟩
      · exact ⟨hnot, .inl ⟨(htag _ hm).1, (htag _ hm).2.1⟩⟩

theorem Inv.timeout (h : s.Inv) (ht : s.step .timeout = some t) : t.Inv := by
  rw [step] at ht
  split at ht
  case isFalse => cases ht
  obtain rfl := Option.some.inj ht
  exact {
    setRequestId := h.setRequestId
    armed_eq := h.armed_eq
    between := h.between
    le_current := h.le_current
    carries_currentId := h.carries_currentId
    carries_requestId := h.carries_requestId
    eq_or_eq := h.eq_or_eq
    sent := fun ⟨hnot, hlive⟩ => h.sent ⟨hnot, hlive.imp_left fun ⟨heq, hopen⟩ => ⟨heq, by
      split at hopen
      · cases hopen
      · exact hopen⟩⟩
    stage := h.stage
    finished_subset := h.finished_subset }

theorem Inv.stepSender (h : s.Inv) (hC : s.Orderly .sender) (ht : s.stepSender = some t) :
    t.Inv := by
  rw [State.stepSender] at ht
  split at ht
  case h_1 => cases ht
  -- from here on the receiver looks for the reply to the current request
  case h_2 aRequestId hsender =>
    obtain ⟨hhalf, hpending⟩ := hC aRequestId hsender
    obtain ⟨hid, harmed⟩ := h.setRequestId aRequestId hsender
    obtain rfl := Option.some.inj ht
    exact {
      setRequestId := fun _ hi => Sender.noConfusion hi
      armed_eq := fun _ => ⟨rfl, hid⟩
      between := fun hr => absurd hr hhalf
      le_current := h.le_current
      carries_currentId := h.carries_currentId
      carries_requestId := fun f hf hm => hid ▸ h.carries_currentId f hf hm
      eq_or_eq := fun f hf m hm hnot => .inl ((hpending f hf m hm).resolve_right hnot)
      sent := fun _ hne => absurd rfl hne
      stage := stage_of_not_isHalfReceived hhalf
      finished_subset := h.finished_subset }
  case h_3 hsender =>
    have hhalf : ¬s.IsHalfReceived := fun hr => (h.between hr).1 hsender
    obtain rfl := Option.some.inj ht
    exact {
      setRequestId := fun _ hi => Sender.noConfusion hi
      armed_eq := fun _ => h.armed_eq (by simp [hsender])
      between := fun hr => absurd hr hhalf
      le_current := h.le_current
      carries_currentId := h.carries_currentId
      carries_requestId := h.carries_requestId
      eq_or_eq := h.eq_or_eq
      sent := fun _ _ => .inl rfl
      stage := stage_of_not_isHalfReceived hhalf
      finished_subset := h.finished_subset }
  -- the reply must not have come in half: its first byte would be forgotten here
  case h_4 hsender =>
    have hhalf : ¬s.IsHalfReceived := fun hr => (h.between hr).2 hsender
    obtain rfl := Option.some.inj ht
    exact {
      setRequestId := fun _ hi => Sender.noConfusion hi
      armed_eq := fun _ => h.armed_eq (by simp [hsender])
      between := fun hr => absurd hr hhalf
      le_current := h.le_current
      carries_currentId := h.carries_currentId
      carries_requestId := h.carries_requestId
      eq_or_eq := h.eq_or_eq
      sent := fun hlive _ => .inl (h.isRequestSent' hlive (by simp [hsender]) hhalf)
      stage := stage_of_not_isHalfReceived hhalf
      finished_subset := h.finished_subset }
  case h_5 hsender =>
    split at ht
    case isFalse => cases ht
    obtain rfl := Option.some.inj ht
    exact {
      setRequestId := fun _ hi => Sender.noConfusion hi
      armed_eq := fun _ => h.armed_eq (by simp [hsender])
      between := fun _ => ⟨Sender.noConfusion, Sender.noConfusion⟩
      le_current := h.le_current
      carries_currentId := h.carries_currentId
      carries_requestId := h.carries_requestId
      eq_or_eq := h.eq_or_eq
      sent := fun hlive _ => h.sent hlive (by simp [hsender])
      stage := h.stage
      finished_subset := h.finished_subset }

theorem Inv.stepTimerThread (h : s.Inv) (hC : s.Orderly .timerThread)
    (ht : s.stepTimerThread = some t) : t.Inv := by
  rw [State.stepTimerThread] at ht
  split at ht
  case h_1 => cases ht
  case h_2 htimer =>
    have hhalf : ¬s.IsHalfReceived := hC.1 htimer
    obtain rfl := Option.some.inj ht
    exact {
      setRequestId := h.setRequestId
      armed_eq := h.armed_eq
      between := h.between
      le_current := h.le_current
      carries_currentId := h.carries_currentId
      carries_requestId := h.carries_requestId
      eq_or_eq := h.eq_or_eq
      sent := fun hlive hsender => .inl (h.isRequestSent' hlive hsender hhalf)
      stage := stage_of_not_isHalfReceived hhalf
      finished_subset := h.finished_subset }
  case h_3 htimer =>
    obtain rfl := Option.some.inj ht
    refine {
      setRequestId := h.setRequestId
      armed_eq := h.armed_eq
      between := h.between
      le_current := h.le_current
      carries_currentId := h.carries_currentId
      carries_requestId := h.carries_requestId
      eq_or_eq := h.eq_or_eq
      sent := fun hlive hsender => ?_
      stage := ?_
      finished_subset := h.finished_subset }
    · rcases hC.2 htimer with hset | hnot
      · exact absurd hset hsender
      · exact absurd hlive hnot
    · -- clearing the flag makes no match undone
      have hmatched : ∀ f, s.Matched f → Matched { s with
          request := { s.request with isRequestSent := false }, timerThread := .wait } f :=
        fun f hf => ⟨hf.1, hf.2.1, rfl⟩
      have hstage := h.stage
      unfold Stage at hstage ⊢
      cases hr : s.receiver with
      | readFrame => trivial
      | receiveLSB f => trivial
      | receiveMSB f =>
        rw [hr] at hstage
        exact hstage
      | stopRequestTimeoutTimer f =>
        rw [hr] at hstage
        exact ⟨hstage.1, hmatched f hstage.2⟩
      | check f =>
        rw [hr] at hstage
        exact ⟨hstage.1, fun m hm hnot => hmatched f (hstage.2 m hm hnot)⟩

/-! ### The receiving thread -/

theorem Inv.readFrame (h : s.Inv) (hr : s.receiver = .readFrame) (ht : s.stepReceiver = some t) :
    t.Inv := by
  rw [State.stepReceiver, hr] at ht
  cases hsocket : s.socket with
  | nil => simp [hsocket] at ht
  | cons f l =>
    obtain rfl : { s with socket := l, receiver := .receiveLSB f } = t := by
      simpa [hsocket] using ht
    have hpending : s.pending = f :: l := by rw [pending, frame, hr, hsocket]; rfl
    have hhalf : ¬IsHalfReceived { s with socket := l, receiver := .receiveLSB f } :=
      not_isHalfReceived_of_receiveLSB rfl
    refine {
      setRequestId := h.setRequestId
      armed_eq := h.armed_eq
      between := fun hr => absurd hr hhalf
      le_current := fun g hg => h.le_current g (hpending ▸ hg)
      carries_currentId := fun g hg => h.carries_currentId g (hpending ▸ hg)
      carries_requestId := fun g hg => h.carries_requestId g (hpending ▸ hg)
      eq_or_eq := fun g hg => h.eq_or_eq g (hpending ▸ hg)
      sent := fun hlive hsender => .inl (h.isRequestSent' ?_ hsender ?_)
      stage := stage_of_not_isHalfReceived hhalf
      finished_subset := h.finished_subset }
    · exact hlive.of_pending hpending rfl rfl rfl
    · exact not_isHalfReceived_of_readFrame hr

theorem Inv.receiveLSB {f : Frame} (h : s.Inv) (hC : s.Orderly .receiver)
    (hr : s.receiver = .receiveLSB f) (ht : s.stepReceiver = some t) : t.Inv := by
  rw [State.stepReceiver, hr, Option.some.injEq] at ht
  obtain ⟨hset, hclear, hnew⟩ := hC f hr
  have hpending : s.pending = f :: s.socket := by rw [pending, frame, hr]; rfl
  have hhalf : ¬s.IsHalfReceived := not_isHalfReceived_of_receiveLSB hr
  have hfit : s.Fits f := by
    intro m hm hnot
    rcases h.eq_or_eq f (hpending ▸ List.mem_cons_self) m hm hnot with rfl | hm
    · exact (h.armed_eq (hnew hm)).1.symm
    · exact hm
  have heq : s.request.receiveRequestIdByteLSB f.lsb = { s.request with
      isRequestIdLSBByteReceived :=
        s.request.isRequestSent && decide (f.lsb = s.request.requestId.toUInt8) } := by
    rw [Request.receiveRequestIdByteLSB, Request.eq_low_iff]
  rw [heq] at ht
  subst ht
  refine {
    setRequestId := h.setRequestId
    armed_eq := h.armed_eq
    between := fun _ => ⟨hset, hclear⟩
    le_current := fun g hg => h.le_current g (hpending ▸ hg)
    carries_currentId := fun g hg => h.carries_currentId g (hpending ▸ hg)
    carries_requestId := fun g hg => h.carries_requestId g (hpending ▸ hg)
    eq_or_eq := fun g hg => h.eq_or_eq g (hpending ▸ hg)
    sent := fun hlive hsender => .inl (h.isRequestSent' ?_ hsender hhalf)
    stage := ⟨hfit, fun hreceived => ?_, fun m hm hnot => ?_⟩
    finished_subset := h.finished_subset }
  · exact hlive.of_pending hpending rfl rfl rfl
  · exact of_decide_eq_true (Bool.and_eq_true_iff.1 hreceived).2
  · -- a reply to the request finds it outstanding
    obtain rfl := hfit m hm hnot
    have hmem : f ∈ s.pending := hpending ▸ List.mem_cons_self
    have hsent : s.request.isRequestSent = true :=
      h.isRequestSent' ⟨hnot, .inr ⟨f, hmem, hm⟩⟩ hset hhalf
    exact Bool.and_eq_true_iff.2 ⟨hsent, decide_eq_true (h.carries_requestId f hmem hm).1⟩

theorem Inv.receiveMSB {f : Frame} (h : s.Inv) (hr : s.receiver = .receiveMSB f)
    (ht : s.stepReceiver = some t) : t.Inv := by
  rw [State.stepReceiver, hr, Option.some.injEq] at ht
  obtain ⟨hfit, hlow, hreceived⟩ : s.Fits f ∧
      (s.request.isRequestIdLSBByteReceived = true → f.lsb = s.request.requestId.toUInt8) ∧
      (∀ m, f.request = some m → m ∉ s.answered → s.request.isRequestIdLSBByteReceived = true) := by
    have hstage := h.stage
    rwa [Stage, hr] at hstage
  have hpending : s.pending = f :: s.socket := by rw [pending, frame, hr]; rfl
  have hmem : f ∈ s.pending := hpending ▸ List.mem_cons_self
  have hbetween := h.between ⟨f, .inl hr⟩
  have hsent : s.Live s.armed → s.sender ≠ .setRequestSent → s.request.isRequestSent = true :=
    fun hlive hsender => h.isRequestSent hlive hsender fun g => by simp [hr]
  rw [Request.receiveRequestIdByteMSB, Request.eq_low_iff] at ht
  by_cases hmatch : (s.request.isRequestIdLSBByteReceived &&
      decide (f.msb = (s.request.requestId >>> 8).toUInt8)) = true
  · rw [if_pos hmatch, if_pos hmatch] at ht
    obtain ⟨hlsb, hmsb⟩ := Bool.and_eq_true_iff.1 hmatch
    have hcarries : f.Carries s.request.requestId := ⟨hlow hlsb, of_decide_eq_true hmsb⟩
    subst ht
    refine {
      setRequestId := h.setRequestId
      armed_eq := h.armed_eq
      between := fun _ => hbetween
      le_current := fun g hg => h.le_current g (hpending ▸ hg)
      carries_currentId := fun g hg => h.carries_currentId g (hpending ▸ hg)
      carries_requestId := fun g hg => h.carries_requestId g (hpending ▸ hg)
      eq_or_eq := fun g hg => h.eq_or_eq g (hpending ▸ hg)
      sent := fun _ _ => .inr ⟨f, .inl rfl, hcarries, hlsb, rfl⟩
      stage := ⟨hfit, hcarries, hlsb, rfl⟩
      finished_subset := h.finished_subset }
  · rw [if_neg hmatch, if_neg hmatch] at ht
    subst ht
    refine {
      setRequestId := h.setRequestId
      armed_eq := h.armed_eq
      between := fun _ => hbetween
      le_current := fun g hg => h.le_current g (hpending ▸ hg)
      carries_currentId := fun g hg => h.carries_currentId g (hpending ▸ hg)
      carries_requestId := fun g hg => h.carries_requestId g (hpending ▸ hg)
      eq_or_eq := fun g hg => h.eq_or_eq g (hpending ▸ hg)
      sent := fun hlive hsender => .inl (hsent ?_ hsender)
      stage := ⟨hfit, fun m hm hnot => absurd ?_ hmatch⟩
      finished_subset := h.finished_subset }
    · exact hlive.of_pending hpending rfl rfl rfl
    · -- the bytes of a reply to the request match
      obtain rfl := hfit m hm hnot
      exact Bool.and_eq_true_iff.2
        ⟨hreceived _ hm hnot, decide_eq_true (h.carries_requestId f hmem hm).2⟩

theorem Inv.stopRequestTimeoutTimer {f : Frame} (h : s.Inv)
    (hr : s.receiver = .stopRequestTimeoutTimer f) (ht : s.stepReceiver = some t) : t.Inv := by
  obtain rfl : { s with receiver := .check f, isTimerActive := false } = t := by
    rw [State.stepReceiver, hr] at ht
    dsimp only at ht
    split at ht
    · exact Option.some.inj ht
    · cases ht
  obtain ⟨hfit, hmatched⟩ : s.Fits f ∧ s.Matched f := by
    have hstage := h.stage
    rwa [Stage, hr] at hstage
  have hpending : s.pending = f :: s.socket := by rw [pending, frame, hr]; rfl
  exact {
    setRequestId := h.setRequestId
    armed_eq := h.armed_eq
    between := fun _ => h.between ⟨f, .inr (.inl hr)⟩
    le_current := fun g hg => h.le_current g (hpending ▸ hg)
    carries_currentId := fun g hg => h.carries_currentId g (hpending ▸ hg)
    carries_requestId := fun g hg => h.carries_requestId g (hpending ▸ hg)
    eq_or_eq := fun g hg => h.eq_or_eq g (hpending ▸ hg)
    sent := fun _ _ => .inr ⟨f, .inr rfl, hmatched⟩
    stage := ⟨hfit, fun _ _ _ => hmatched⟩
    finished_subset := h.finished_subset }

/-- The end of a frame, with the requests that have been answered then. -/
theorem Inv.end_frame {f : Frame} {l : List ℕ} (h : s.Inv) (hr : s.receiver = .check f) (b : Bool)
    (hsubset : s.answered ⊆ l) (hf : ∀ m, f.request = some m → m ∈ l)
    (hsent : s.Live s.armed → s.armed ∉ l → s.sender ≠ .setRequestSent →
      s.request.isRequestSent = true) :
    Inv { s with
      receiver := .readFrame
      finished := f.request.toList ++ s.finished
      request := { s.request with isRequestIdLSBByteReceived := b }
      answered := l } := by
  have hpending : s.pending = f :: s.socket := by rw [pending, frame, hr]; rfl
  have hsocket : ∀ g ∈ s.socket, g ∈ s.pending := fun g hg => hpending ▸ List.mem_cons_of_mem f hg
  refine {
    setRequestId := h.setRequestId
    armed_eq := h.armed_eq
    between := fun hhalf => absurd hhalf (not_isHalfReceived_of_readFrame rfl)
    le_current := fun g hg => h.le_current g (hsocket g hg)
    carries_currentId := fun g hg => h.carries_currentId g (hsocket g hg)
    carries_requestId := fun g hg => h.carries_requestId g (hsocket g hg)
    eq_or_eq := fun g hg m hm hnot =>
      h.eq_or_eq g (hsocket g hg) m hm fun hmem => hnot (hsubset hmem)
    sent := fun ⟨hnot, hlive⟩ hsender => .inl (hsent ?_ hnot hsender)
    stage := trivial
    finished_subset := fun m hm => ?_ }
  · exact ⟨fun hmem => hnot (hsubset hmem),
      hlive.imp_right fun ⟨g, hg, hm⟩ => ⟨g, hsocket g hg, hm⟩⟩
  · rcases List.mem_append.1 hm with hm | hm
    · exact hf m (Option.mem_toList.1 hm)
    · exact hsubset (h.finished_subset hm)

theorem Inv.check {f : Frame} (h : s.Inv) (hr : s.receiver = .check f)
    (ht : s.stepReceiver = some t) : t.Inv := by
  rw [State.stepReceiver, hr] at ht
  obtain ⟨hfit, hmatched⟩ : s.Fits f ∧
      ∀ m, f.request = some m → m ∉ s.answered → s.Matched f := by
    have hstage := h.stage
    rwa [Stage, hr] at hstage
  -- whatever has answered the request is this frame
  have hsent : s.Live s.armed → ¬s.Matched f → s.sender ≠ .setRequestSent →
      s.request.isRequestSent = true := by
    intro hlive hnot hsender
    refine (h.sent hlive hsender).resolve_right ?_
    rintro ⟨g, hg, hmatched⟩
    obtain rfl : f = g := by simpa [hr] using hg
    exact hnot hmatched
  by_cases haccept : s.request.isRequestIdLSBByteReceived = true ∧ s.request.isRequestSent = false
  · obtain ⟨hlsb, hnotSent⟩ := haccept
    by_cases hcarries : f.Carries s.request.requestId
    · obtain rfl : { s with
          receiver := .readFrame
          finished := f.request.toList ++ s.finished
          answered := s.armed :: s.answered } = t := by
        simpa [hlsb, hnotSent, hcarries] using ht
      refine h.end_frame hr _ (List.subset_cons_self _ _) (fun m hm => ?_) fun _ hnot _ => ?_
      · by_cases hmem : m ∈ s.answered
        · exact List.mem_cons_of_mem _ hmem
        · exact hfit m hm hmem ▸ List.mem_cons_self
      · exact absurd List.mem_cons_self hnot
    · obtain rfl : { s with
          receiver := .readFrame
          finished := f.request.toList ++ s.finished } = t := by
        simpa [hlsb, hnotSent, hcarries] using ht
      refine h.end_frame hr _ (List.Subset.refl _) (fun m hm => ?_) fun hlive _ => ?_
      · by_contra hmem
        exact hcarries (hmatched m hm hmem).1
      · exact hsent hlive fun hm => hcarries hm.1
  · obtain rfl : { s with
        receiver := .readFrame
        finished := f.request.toList ++ s.finished
        request := { s.request with isRequestIdLSBByteReceived := false } } = t := by
      simpa [Bool.and_eq_true, haccept] using ht
    refine h.end_frame hr _ (List.Subset.refl _) (fun m hm => ?_) fun hlive _ => ?_
    · by_contra hmem
      exact haccept (hmatched m hm hmem).2
    · exact hsent hlive fun hm => haccept hm.2

theorem Inv.stepReceiver (h : s.Inv) (hC : s.Orderly .receiver) (ht : s.stepReceiver = some t) :
    t.Inv := by
  cases hr : s.receiver with
  | readFrame => exact h.readFrame hr ht
  | receiveLSB f => exact h.receiveLSB hC hr ht
  | receiveMSB f => exact h.receiveMSB hr ht
  | stopRequestTimeoutTimer f => exact h.stopRequestTimeoutTimer hr ht
  | check f => exact h.check hr ht

/-- An orderly step keeps the invariant. -/
theorem Inv.step (a : Action) (h : s.Inv) (hC : s.Orderly a) (ht : s.step a = some t) : t.Inv := by
  cases a with
  | write aRequestId => exact h.write aRequestId ht
  | arrive lsb msb => exact h.arrive lsb msb ht
  | timeout => exact h.timeout ht
  | sender => exact h.stepSender hC ht
  | receiver => exact h.stepReceiver hC ht
  | timerThread => exact h.stepTimerThread hC ht

end State

/-! ## No reply is lost -/

/-- In each run whose steps are orderly, a request has been answered as soon as a reply to it
    has been processed that had arrived after the request was written, and before it timed
    out or another one was written. -/
theorem answered_of_run {l : List Action} {t : State}
    (h : Transition.Meets State.step State.Orderly State.initial l)
    (hrun : Transition.run State.step State.initial l = some t) : t.finished ⊆ t.answered :=
  (Transition.inv_of_meets (fun _ a _ hs hC ht => hs.step a hC ht) State.inv_initial h
    hrun).finished_subset

/-- `answered_of_run` for a reply that arrives once `expectRequestId` has been called. -/
theorem answered_of_run_reply :
    ∃ t, Transition.run State.step State.initial [.write 0x0201, .sender, .sender, .sender, .sender,
        .arrive 1 2, .receiver, .receiver, .receiver, .receiver, .receiver] = some t ∧
      t.finished = [1] ∧ t.finished ⊆ t.answered :=
  ⟨_, rfl, rfl, answered_of_run (l := [.write 0x0201, .sender, .sender, .sender, .sender,
    .arrive 1 2, .receiver, .receiver, .receiver, .receiver, .receiver]) (by decide) rfl⟩

/-- A reply that is received before `expectRequestId` is called, which waits for it in vain then. -/
theorem answered_fails_of_early :
    ∃ t, Transition.run State.step State.initial [.write 0x0201, .arrive 1 2, .receiver, .receiver,
        .receiver, .receiver, .sender, .sender, .sender, .sender] = some t ∧
      t.socket = [] ∧ t.receiver = .readFrame ∧ t.request = ⟨0x0201, true, false⟩ ∧
      t.finished = [1] ∧ ¬t.finished ⊆ t.answered :=
  ⟨_, rfl, rfl, rfl, rfl, rfl, by decide⟩

end EW8.Rx.Reply
