import Mathlib

/-!
# The timer

`Timer::start` and `Timer::stop` run in the thread of their caller, the timeouts in that of the
timer, which `start` begins and `stop` joins; `setSingleShot` is called before. The two threads take
their steps in any order: each access to a field that they share is a step. A wait for the interval
ends when it has passed, at any time, or when `stop` is requested; that `notify_all` can come too
early for it only makes it last longer. A timeout calls neither `start` nor `stop` of its timer.

Proved about every interleaving (`run_construct`):

* *the join*: `timerThread_` is never assigned while it is joinable, which would end the program;
* *the stop*: once `stop` has returned, the timer does not fire before the next `start`; between its
  request and its return it fires at most once, and its join comes to an end;
* *the single shot*: it fires at most once after a `start`.
-/

namespace EW8.Core

/-- Where the thread of the timer is. -/
inductive Timer.ThreadPc
  /-- `while (!stopRequested_)` -/
  | loop
  /-- `cv_.wait_for` -/
  | waiting
  /-- `if (!stopRequested_)` -/
  | elapsed
  /-- `timeout.fire()` -/
  | firing
  /-- `if (singleShot_)` -/
  | fired
  /-- `active_ = false` -/
  | expired
  | finished
  deriving DecidableEq

/-- Where the caller of `start` and `stop` is. In `stop`, `next` is the interval of the `start` that
    has called it, if one has. -/
inductive Timer.CallerPc
  | idle
  /-- `if (!active_ && !timerThread_.joinable()) return` -/
  | guard (next : Option ℤ)
  /-- `stopRequested_ = true` -/
  | request (next : Option ℤ)
  /-- `timerThread_.join()`, if it is joinable -/
  | join (next : Option ℤ)
  /-- `active_ = false` -/
  | joined (next : Option ℤ)
  /-- `interval_ = msec; active_ = true` -/
  | activate (msec : ℤ)
  /-- `stopRequested_ = false` -/
  | clear
  /-- `timerThread_ = std::thread(..)` -/
  | spawn
  deriving DecidableEq

/-- A `Timer`, with its two threads, and the numbers of timeouts since its thread began and since
    `stop` was requested. `timerThread_` is joinable if there is one. -/
structure Timer where
  interval_ : ℤ
  singleShot_ : Bool
  active_ : Bool
  stopRequested_ : Bool
  timerThread_ : Option Timer.ThreadPc
  caller : Timer.CallerPc
  terminated : Bool
  sinceStart : ℕ
  sinceRequest : ℕ

namespace Timer

def construct (singleShot : Bool) : Timer where
  interval_ := 0
  singleShot_ := singleShot
  active_ := false
  stopRequested_ := false
  timerThread_ := none
  caller := .idle
  terminated := false
  sinceStart := 0
  sinceRequest := 0

variable (t : Timer)

/-- A step of the thread of the timer. -/
def threadStep : Option Timer :=
  match t.timerThread_ with
  | none => none
  | some .loop =>
    some { t with timerThread_ := some (if t.stopRequested_ then .finished else .waiting) }
  | some .waiting =>
    some { t with timerThread_ := some (if t.stopRequested_ then .finished else .elapsed) }
  | some .elapsed =>
    some { t with timerThread_ := some (if t.stopRequested_ then .loop else .firing) }
  | some .firing =>
    some { t with
      timerThread_ := some .fired
      sinceStart := t.sinceStart + 1
      sinceRequest := t.sinceRequest + 1 }
  | some .fired => some { t with timerThread_ := some (if t.singleShot_ then .expired else .loop) }
  | some .expired => some { t with active_ := false, timerThread_ := some .finished }
  | some .finished => none

/-- Where the caller is when `stop` returns. -/
def returned : Option ℤ → CallerPc
  | none => .idle
  | some msec => .activate msec

/-- A step of the caller of `start` or `stop`; a join waits for the thread to finish. -/
def callerStep : Option Timer :=
  match t.caller with
  | .idle => none
  | .guard next =>
    some { t with
      caller := if !t.active_ && t.timerThread_.isNone then returned next else .request next }
  | .request next => some { t with stopRequested_ := true, caller := .join next, sinceRequest := 0 }
  | .join next =>
    match t.timerThread_ with
    | none => some { t with caller := .joined next }
    | some .finished => some { t with timerThread_ := none, caller := .joined next }
    | some _ => none
  | .joined next => some { t with active_ := false, caller := returned next }
  | .activate msec => some { t with interval_ := msec, active_ := true, caller := .clear }
  | .clear => some { t with stopRequested_ := false, caller := .spawn }
  | .spawn =>
    some { t with
      timerThread_ := some .loop
      caller := .idle
      terminated := t.terminated || t.timerThread_.isSome
      sinceStart := 0 }

/-- What happens: a call of `setInterval`, `start()`, `start(msec)` or `stop`, when the last one has
    returned, or a step of one of the threads. -/
inductive Action
  | setInterval (msec : ℤ)
  | start
  | startWith (msec : ℤ)
  | stop
  | caller
  | thread
  deriving DecidableEq

/-- A call when no other runs. -/
def call (t' : Timer) : Option Timer := if t.caller = .idle then some t' else none

def step : Action → Option Timer
  | .setInterval msec => t.call { t with interval_ := msec }
  | .start => t.call (if t.interval_ ≤ 0 then t else { t with caller := .guard (some t.interval_) })
  | .startWith msec => t.call { t with caller := .guard (some msec) }
  | .stop => t.call { t with caller := .guard none }
  | .caller => t.callerStep
  | .thread => t.threadStep

/-- One action after the other. -/
def run : List Action → Timer → Option Timer
  | [], t => some t
  | a :: actions, t => (t.step a).bind (run actions)

/-! ## The invariant -/

/-- The thread has been begun, and has not finished. -/
def running : Option ThreadPc → Bool
  | none => false
  | some .finished => false
  | some _ => true

/-- The timeouts that may still come from a thread that a `stop` was requested of. -/
def pending : Option ThreadPc → ℕ
  | some .firing => 1
  | _ => 0

/-- The timeouts that may still come from the thread of a single shot. -/
def toCome : Option ThreadPc → ℕ
  | some .loop => 1
  | some .waiting => 1
  | some .elapsed => 1
  | some .firing => 1
  | _ => 0

/-- What holds of the fields, by where the caller is. -/
def CallerInv : Prop :=
  match t.caller with
  | .idle | .guard _ | .request _ =>
    t.active_ = running t.timerThread_ ∧ (t.stopRequested_ → t.timerThread_ = none)
  | .join _ => t.stopRequested_ ∧ t.sinceRequest + pending t.timerThread_ ≤ 1
  | .joined _ => t.timerThread_ = none ∧ t.sinceRequest ≤ 1
  | .activate _ => t.timerThread_ = none ∧ t.active_ = false
  | .clear => t.timerThread_ = none ∧ t.active_
  | .spawn => t.timerThread_ = none ∧ t.active_ ∧ t.stopRequested_ = false

structure Inv : Prop where
  terminated : t.terminated = false
  single : t.singleShot_ → t.sinceStart + toCome t.timerThread_ ≤ 1
  caller : t.CallerInv

variable {t} {t' : Timer}

theorem inv_construct (singleShot : Bool) : (construct singleShot).Inv :=
  ⟨rfl, fun _ => Nat.zero_le 1, rfl, fun _ => rfl⟩

/-- A step of the thread leaves the caller where it is. -/
theorem threadStep_caller (h : t.threadStep = some t') :
    t'.caller = t.caller ∧ t'.terminated = t.terminated ∧ t'.singleShot_ = t.singleShot_ ∧
      t'.stopRequested_ = t.stopRequested_ := by
  rw [threadStep] at h
  split at h <;> cases h <;> exact ⟨rfl, rfl, rfl, rfl⟩

/-- The timeouts to come of a single shot only get fewer. -/
theorem threadStep_toCome (h : t.threadStep = some t') (hsingle : t.singleShot_) :
    t'.sinceStart + toCome t'.timerThread_ ≤ t.sinceStart + toCome t.timerThread_ := by
  rw [threadStep] at h
  cases hstop : t.stopRequested_ <;> split at h <;> cases h <;> simp [*, toCome]

/-- So do those that a requested stop does not hold up. -/
theorem threadStep_pending (h : t.threadStep = some t') (hstop : t.stopRequested_) :
    t'.sinceRequest + pending t'.timerThread_ ≤ t.sinceRequest + pending t.timerThread_ := by
  rw [threadStep] at h
  cases hsingle : t.singleShot_ <;> split at h <;> cases h <;> simp [*, pending]

/-- While no stop is requested, `active_` tells whether the thread runs. -/
theorem threadStep_active (h : t.threadStep = some t') (hstop : t.stopRequested_ = false)
    (hactive : t.active_ = running t.timerThread_) : t'.active_ = running t'.timerThread_ := by
  rw [threadStep] at h
  split at h <;> cases h <;> grind [running]

theorem threadStep_isSome (h : t.threadStep = some t') : t.timerThread_ ≠ none := by
  rintro hnone
  rw [threadStep, hnone] at h
  cases h

theorem Inv.threadStep (h : t.Inv) (hstep : t.threadStep = some t') : t'.Inv := by
  obtain ⟨hcaller, hterminated, hsingle, hstop⟩ := threadStep_caller hstep
  have hsome := threadStep_isSome hstep
  refine ⟨hterminated.trans h.terminated, fun hs => ?_, ?_⟩
  · exact (threadStep_toCome hstep (hsingle ▸ hs)).trans (h.single (hsingle ▸ hs))
  · have hinv := h.caller
    rw [CallerInv] at hinv ⊢
    rw [hcaller]
    cases hc : t.caller with
    | idle | guard next | request next =>
      rw [hc] at hinv
      have hfalse : t.stopRequested_ = false := by
        rw [← Bool.not_eq_true]
        exact fun hs => hsome (hinv.2 hs)
      refine ⟨threadStep_active hstep hfalse hinv.1, fun hs => ?_⟩
      rw [hstop, hfalse] at hs
      cases hs
    | join next =>
      rw [hc] at hinv
      exact ⟨hstop ▸ hinv.1, (threadStep_pending hstep hinv.1).trans hinv.2⟩
    | joined next | activate msec | clear | spawn =>
      rw [hc] at hinv
      exact absurd hinv.1 hsome

theorem callerInv_returned (next : Option ℤ) (hactive : t.active_ = false)
    (hnone : t.timerThread_ = none) : CallerInv { t with caller := returned next } := by
  cases next with
  | none =>
    refine ⟨?_, fun _ => hnone⟩
    rw [hactive, hnone]
    rfl
  | some msec => exact ⟨hnone, hactive⟩

theorem pending_le_one (thread : Option ThreadPc) : pending thread ≤ 1 := by
  rcases thread with _ | pc
  · exact Nat.zero_le 1
  · cases pc <;> decide

theorem Inv.callerStep (h : t.Inv) (hstep : t.callerStep = some t') : t'.Inv := by
  obtain ⟨hterminated, hsingle, hinv⟩ := h
  rw [CallerInv] at hinv
  rw [Timer.callerStep] at hstep
  cases hc : t.caller with
  | idle =>
    rw [hc] at hstep
    cases hstep
  | guard next =>
    rw [hc] at hstep hinv
    cases hstep
    refine ⟨hterminated, hsingle, ?_⟩
    cases hguard : !t.active_ && t.timerThread_.isNone with
    | true =>
      rw [Bool.and_eq_true, Bool.not_eq_true', Option.isNone_iff_eq_none] at hguard
      exact callerInv_returned next hguard.1 hguard.2
    | false => exact hinv
  | request next =>
    rw [hc] at hstep hinv
    cases hstep
    refine ⟨hterminated, hsingle, rfl, ?_⟩
    exact (Nat.zero_add _).trans_le (pending_le_one _)
  | join next =>
    rw [hc] at hstep hinv
    cases hthread : t.timerThread_ with
    | none =>
      rw [hthread] at hstep hinv hsingle
      cases hstep
      exact ⟨hterminated, hsingle, rfl, hinv.2⟩
    | some pc =>
      rw [hthread] at hstep hinv hsingle
      cases pc <;> cases hstep
      exact ⟨hterminated, hsingle, rfl, hinv.2⟩
  | joined next =>
    rw [hc] at hstep hinv
    cases hstep
    exact ⟨hterminated, hsingle,
      callerInv_returned (t := { t with active_ := false }) next rfl hinv.1⟩
  | activate msec =>
    rw [hc] at hstep hinv
    cases hstep
    exact ⟨hterminated, hsingle, hinv.1, rfl⟩
  | clear =>
    rw [hc] at hstep hinv
    cases hstep
    exact ⟨hterminated, hsingle, hinv.1, hinv.2, rfl⟩
  | spawn =>
    rw [hc] at hstep hinv
    cases hstep
    refine ⟨?_, fun _ => le_refl 1, hinv.2.1, fun hs => ?_⟩
    · rw [hterminated, hinv.1]
      rfl
    · rw [hinv.2.2] at hs
      cases hs

theorem call_eq {t'' : Timer} (h : t.call t'' = some t') : t.caller = .idle ∧ t'' = t' := by
  rw [call] at h
  split_ifs at h with hidle
  exact ⟨hidle, Option.some.inj h⟩

/-- Every action keeps the invariant. -/
theorem Inv.step (h : t.Inv) {a : Action} (hstep : t.step a = some t') : t'.Inv := by
  cases a with
  | setInterval msec =>
    obtain ⟨hidle, rfl⟩ := call_eq hstep
    exact ⟨h.terminated, h.single, h.caller⟩
  | start =>
    obtain ⟨hidle, rfl⟩ := call_eq hstep
    split_ifs
    · exact h
    · have hinv := h.caller
      rw [CallerInv, hidle] at hinv
      exact ⟨h.terminated, h.single, hinv⟩
  | startWith msec | stop =>
    obtain ⟨hidle, rfl⟩ := call_eq hstep
    have hinv := h.caller
    rw [CallerInv, hidle] at hinv
    exact ⟨h.terminated, h.single, hinv⟩
  | caller => exact h.callerStep hstep
  | thread => exact h.threadStep hstep

theorem Inv.run {actions : List Action} (h : t.Inv) (hrun : run actions t = some t') : t'.Inv := by
  induction actions generalizing t with
  | nil =>
    cases hrun
    exact h
  | cons a actions ih =>
    obtain ⟨t'', hstep, hrest⟩ := Option.bind_eq_some_iff.1 hrun
    exact ih (h.step hstep) hrest

/-! ## After a stop -/

/-- The action is a call of `start`. -/
def Action.isStart : Action → Bool
  | .start => true
  | .startWith _ => true
  | _ => false

/-- The thread does not run, and no `start` is on its way. -/
structure Quiet (t : Timer) : Prop where
  thread : running t.timerThread_ = false
  caller : t.caller ∈ [.idle, .guard none, .request none, .join none, .joined none]

theorem Quiet.threadStep (h : t.Quiet) : t.threadStep = none := by
  have hthread := h.thread
  rw [Timer.threadStep]
  cases ht : t.timerThread_ with
  | none => rfl
  | some pc =>
    rw [ht] at hthread
    cases pc <;> first | rfl | cases hthread

theorem Quiet.callerStep (h : t.Quiet) (hstep : t.callerStep = some t') :
    t'.Quiet ∧ t'.sinceStart = t.sinceStart := by
  obtain ⟨hthread, hcaller⟩ := h
  simp only [List.mem_cons, List.not_mem_nil, or_false] at hcaller
  rw [Timer.callerStep] at hstep
  obtain hc | hc | hc | hc | hc := hcaller
  · rw [hc] at hstep
    cases hstep
  · rw [hc] at hstep
    cases hstep
    refine ⟨⟨hthread, ?_⟩, rfl⟩
    cases !t.active_ && t.timerThread_.isNone <;> simp [returned]
  · rw [hc] at hstep
    cases hstep
    exact ⟨⟨hthread, by simp⟩, rfl⟩
  · rw [hc] at hstep
    cases ht : t.timerThread_ with
    | none =>
      rw [ht] at hstep
      cases hstep
      exact ⟨⟨rfl, by simp⟩, rfl⟩
    | some pc =>
      rw [ht] at hstep
      cases pc <;> cases hstep
      exact ⟨⟨rfl, by simp⟩, rfl⟩
  · rw [hc] at hstep
    cases hstep
    exact ⟨⟨hthread, by simp [returned]⟩, rfl⟩

theorem Quiet.step (h : t.Quiet) {a : Action} (ha : a.isStart = false)
    (hstep : t.step a = some t') : t'.Quiet ∧ t'.sinceStart = t.sinceStart := by
  cases a with
  | setInterval msec =>
    obtain ⟨-, rfl⟩ := call_eq hstep
    exact ⟨⟨h.thread, h.caller⟩, rfl⟩
  | start | startWith msec => cases ha
  | stop =>
    obtain ⟨-, rfl⟩ := call_eq hstep
    exact ⟨⟨h.thread, by simp⟩, rfl⟩
  | caller => exact h.callerStep hstep
  | thread =>
    rw [Timer.step, h.threadStep] at hstep
    cases hstep

/-- A timer that has been stopped does not fire before the next `start`. -/
theorem Quiet.run {actions : List Action} (h : t.Quiet)
    (hactions : ∀ a ∈ actions, a.isStart = false) (hrun : run actions t = some t') :
    t'.sinceStart = t.sinceStart := by
  induction actions generalizing t with
  | nil =>
    cases hrun
    rfl
  | cons a actions ih =>
    rw [List.forall_mem_cons] at hactions
    obtain ⟨t'', hstep, hrest⟩ := Option.bind_eq_some_iff.1 hrun
    obtain ⟨hquiet, hcount⟩ := h.step hactions.1 hstep
    exact (ih hquiet hactions.2 hrest).trans hcount

theorem Inv.quiet (h : t.Inv) (hidle : t.caller = .idle) (hactive : t.active_ = false) :
    t.Quiet := by
  have hinv := h.caller
  rw [CallerInv, hidle] at hinv
  exact ⟨hinv.1.symm.trans hactive, by simp [hidle]⟩

/-- A join comes to its end after at most three steps of the thread. -/
theorem Inv.join (h : t.Inv) {next : Option ℤ} (hc : t.caller = .join next) :
    ∃ k ≤ 3, ∃ t', Timer.run (List.replicate k .thread ++ [.caller]) t = some t' ∧
      t'.caller = .joined next := by
  have hinv := h.caller
  rw [CallerInv, hc] at hinv
  obtain ⟨interval, single, active, stopRequested, thread, caller, terminated, n, m⟩ := t
  obtain rfl : stopRequested = true := hinv.1
  obtain rfl : caller = .join next := hc
  rcases thread with _ | _ | _ | _ | _ | _ | _ | _
  · exact ⟨0, by omega, _, rfl, rfl⟩
  · exact ⟨1, by omega, _, rfl, rfl⟩
  · exact ⟨1, by omega, _, rfl, rfl⟩
  · exact ⟨2, by omega, _, rfl, rfl⟩
  · cases single <;> exact ⟨3, by omega, _, rfl, rfl⟩
  · cases single <;> exact ⟨2, by omega, _, rfl, rfl⟩
  · exact ⟨1, by omega, _, rfl, rfl⟩
  · exact ⟨0, by omega, _, rfl, rfl⟩

/-- What holds in every state that the two threads can get a timer to. -/
theorem run_construct {singleShot : Bool} {actions : List Action}
    (hrun : run actions (construct singleShot) = some t) :
    t.terminated = false ∧ (t.singleShot_ → t.sinceStart ≤ 1) ∧
      (∀ next, t.caller = .joined next → t.timerThread_ = none ∧ t.sinceRequest ≤ 1) ∧
      (∀ next, t.caller = .join next →
        ∃ k ≤ 3, ∃ t', run (List.replicate k .thread ++ [.caller]) t = some t' ∧
          t'.caller = .joined next) ∧
      (t.caller = .idle → t.active_ = running t.timerThread_) ∧
      (t.caller = .idle → t.active_ = false → ∀ actions' t',
        (∀ a ∈ actions', a.isStart = false) → run actions' t = some t' →
          t'.sinceStart = t.sinceStart) := by
  have h := (inv_construct singleShot).run hrun
  refine ⟨h.terminated, fun hs => le_of_add_le_left (h.single hs), fun next hc => ?_,
    fun next hc => h.join hc, fun hidle => ?_, fun hidle hactive actions' t' hactions hrun' => ?_⟩
  · have hinv := h.caller
    rw [CallerInv, hc] at hinv
    exact hinv
  · have hinv := h.caller
    rw [CallerInv, hidle] at hinv
    exact hinv.1
  · exact (h.quiet hidle hactive).run hactions hrun'

/-- A timeout that is on its way when `stop` is requested comes before `stop` returns. -/
theorem run_construct_late : ∃ t, run [.startWith 5, .caller, .caller, .caller, .caller, .thread,
      .thread, .thread, .stop, .caller, .caller, .thread, .thread, .thread, .caller]
        (construct false) = some t ∧
    t.sinceRequest = 1 ∧ t.terminated = false ∧ t.timerThread_ = none := by
  have hrun : run [.startWith 5, .caller, .caller, .caller, .caller, .thread, .thread, .thread,
      .stop, .caller, .caller, .thread, .thread, .thread, .caller] (construct false) = some _ := rfl
  obtain ⟨hterminated, -, hjoined, -⟩ := run_construct hrun
  exact ⟨_, hrun, rfl, hterminated, (hjoined none rfl).1⟩

end Timer

end EW8.Core
