import EW8.Update.Session

/-!
# Agreement on the chunks of an upload

A data packet has no chunk number: the engine stores it as its next chunk, and the client
sends the chunk whose number it was told last. Acknowledgements say no more than their code,
so that the client takes one that comes late for the answer to its latest packet.

As long as every chunk number that the client takes answers its latest packet
(`ownNumber`), all data packets are stored under their own number (`stored_chunks`). What
carries the proof, in `Agrees`, is that at most one of them is under way at any time, and that
it is the chunk which the engine is to store next.

Otherwise, two acknowledgements that come late are enough for the first chunk to be stored
twice (`stored_chunks_fails_of_late_numbers`).
-/

namespace EW8.Update

/-- The data of a data packet. -/
def Packet.data : Packet → Option (List UInt8)
  | command _ => none
  | sendData data => some data

namespace Upload

variable (u : Upload) {k : ℤ}

/-- `d` is the `k`-th chunk of the file. -/
def IsChunk (k : ℤ) (d : List UInt8) : Prop := ∃ n : ℕ, k = n ∧ d = u.chunkAt n

/-- The answer `k` to the question for the next chunk leads to no chunk, or to one whose
    offset fits in 32 bits. -/
def readable (k : ℤ) : Bool :=
  k = chunkNumberError || k = allChunksAreDone || (0 ≤ k && k * u.chunkSize < 2 ^ 32)

variable {u}

theorem isChunk_readChunk (h : u.readable k = true) (herror : k ≠ chunkNumberError)
    (hdone : k ≠ allChunksAreDone) : u.IsChunk k (u.readChunk k) := by
  simp only [readable, herror, hdone, decide_false, Bool.false_or, Bool.and_eq_true,
    decide_eq_true_eq] at h
  lift k to ℕ using h.1 with n
  refine ⟨n, rfl, ?_⟩
  have hmod : toUInt (u.chunkSize * n) = n * u.chunkSize := by
    rw [toUInt, mul_comm, Int.emod_eq_of_lt (by positivity) h.2]
    exact Int.toNat_natCast _
  rw [readChunk, hmod, chunkAt]

theorem IsChunk.ne_default {d : List UInt8} (h : u.IsChunk k d) :
    k ≠ ControlFileHeader.defaultChunkNo := by
  obtain ⟨n, rfl, -⟩ := h
  rw [ControlFileHeader.defaultChunkNo]
  omega

end Upload

namespace Session

variable (u : Upload) (s : Session)

/-! ## The condition -/

/-- A chunk number that the client takes while it waits for one answers its latest packet, and
    can be read. -/
def ownNumber (s : Session) : Action → Bool
  | .acknowledge =>
    match s.client.pc, s.link.answers with
    | .running c .waiting, (n, .ackChunk k) :: _ =>
      !c.asksChunk || (n = s.link.sent && u.readable k)
    | _, _ => true
  | _ => true

/-! ## The invariant -/

/-- The next chunk that the engine is to store. -/
def next : ℤ := s.engine.controlFile.header.next

/-- The data of packets. -/
def dataOf (l : List (ℕ × Packet)) : List (List UInt8) := l.filterMap fun r => r.2.data

/-- The data that the engine has still to store: in `WriteFile`, or on the way. -/
def underWay : List (List UInt8) :=
  (s.engine.writing.map Prod.snd).toList ++ dataOf s.link.requests

/-- No command on the way changes the layout of the upload. -/
def Settled : Prop := ∀ n c, (n, .command c) ∈ s.link.requests → c.isSetup = false

/-- The client has been told the number of the next chunk, and nothing else is under way. -/
structure Informed : Prop where
  idle : s.link.Idle
  writing : s.engine.writing = none
  readable : u.readable s.client.intBuffer = true
  next : s.client.intBuffer = allChunksAreDone ∨ s.client.intBuffer = s.next

/-- The client is about to send the next chunk. -/
structure Ready (d : List UInt8) : Prop where
  underWay : s.underWay = []
  settled : s.Settled
  isChunk : u.IsChunk s.next d

/-- The client and the engine agree on the next chunk. -/
structure Agrees : Prop where
  ordered : s.link.Ordered
  serving : s.link.serving = none ↔ s.engine.writing = none
  inFly : ∀ c phase, s.client.pc = .running c phase → s.client.commandInFly = c.op
  /-- An answer to the latest packet has the number of the next chunk. -/
  answer : ∀ k, (s.link.sent, .ackChunk k) ∈ s.link.answers →
    k = ControlFileHeader.defaultChunkNo ∨ k = s.next
  /-- What is under way is the next chunk. -/
  underWay : s.underWay = [] ∨ ∃ d, s.underWay = [d] ∧ u.IsChunk s.next d ∧ s.Settled
  writing : ∀ k d, s.engine.writing = some (k, d) → k = s.next
  start : s.client.pc = .start → s.underWay = []
  setup : ∀ c phase, s.client.pc = .running c phase → c.stage = .setup → s.underWay = []
  waiting : ∀ c, s.client.pc = .running c .waiting → c.asksChunk = true →
    s.client.arrAck c.op = .ackChunk → s.Informed u
  returned : ∀ c, s.client.pc = .running c (.returned .ackChunk) → c.asksChunk = true →
    s.Informed u
  ready : ∀ d phase, s.client.pc = .running (.writeCh d) phase → s.Ready u d
  handed : ∀ x ∈ s.engine.controlFile.pd.handed, u.IsChunk x.1 x.2

/-! ## The steps -/

variable {u s} {t : Session}

@[simp] theorem dataOf_append (l l' : List (ℕ × Packet)) :
    dataOf (l ++ l') = dataOf l ++ dataOf l' :=
  List.filterMap_append

@[simp] theorem dataOf_cons_command (n : ℕ) (c : Command) (l : List (ℕ × Packet)) :
    dataOf ((n, .command c) :: l) = dataOf l := rfl

@[simp] theorem dataOf_cons_sendData (n : ℕ) (d : List UInt8) (l : List (ℕ × Packet)) :
    dataOf ((n, .sendData d) :: l) = d :: dataOf l := rfl

theorem Informed.underWay (h : s.Informed u) : s.underWay = [] := by
  rw [Session.underWay, h.writing, h.idle.requests]
  rfl

theorem Informed.settled (h : s.Informed u) : s.Settled := by
  intro n c hc
  rw [h.idle.requests] at hc
  cases hc

namespace Agrees

/-- A step of the engine that changes neither the next chunk, nor what has been handed over,
    nor what is being written. -/
theorem of_engine {e : Engine} (h : s.Agrees u) (hw : e.writing = s.engine.writing)
    (hnext : e.controlFile.header.next = s.next)
    (hpd : e.controlFile.pd.handed = s.engine.controlFile.pd.handed) :
    ({ s with engine := e } : Session).Agrees u := by
  have hunder : ({ s with engine := e } : Session).underWay = s.underWay := by
    rw [Session.underWay, Session.underWay, hw]
  have hinf (hs : s.Informed u) : ({ s with engine := e } : Session).Informed u :=
    ⟨hs.idle, hw.trans hs.writing, hs.readable, hs.next.imp_right fun hn => hn.trans hnext.symm⟩
  have hchunk {d : List UInt8} (hd : u.IsChunk s.next d) :
      u.IsChunk ({ s with engine := e } : Session).next d := by
    rw [Session.next, hnext]
    exact hd
  exact {
    ordered := h.ordered
    serving := by rw [hw]; exact h.serving
    inFly := h.inFly
    answer := fun k hk => (h.answer k hk).imp_right fun hn => hn.trans hnext.symm
    underWay := by
      rw [hunder]
      exact h.underWay.imp_right fun ⟨d, hd, hc, hset⟩ => ⟨d, hd, hchunk hc, hset⟩
    writing := fun k d hkd => (h.writing k d (hw ▸ hkd)).trans hnext.symm
    start := fun hpc => hunder.trans (h.start hpc)
    setup := fun c phase hpc hc => hunder.trans (h.setup c phase hpc hc)
    waiting := fun c hpc hc hack => hinf (h.waiting c hpc hc hack)
    returned := fun c hpc hc => hinf (h.returned c hpc hc)
    ready := fun d phase hpc =>
      have hr := h.ready d phase hpc
      ⟨hunder.trans hr.underWay, hr.settled, hchunk hr.isChunk⟩
    handed := by rw [hpd]; exact h.handed }

theorem writer {fault : Option WriteFault} (h : s.Agrees u)
    (hstep : s.step u (.writer fault) = some t) : t.Agrees u := by
  obtain ⟨e, he, rfl⟩ := Option.map_eq_some_iff.1 hstep
  unfold Engine.writerStep at he
  split_ifs at he
  obtain rfl := Option.some.inj he
  exact h.of_engine rfl (ControlFile.intThread_next fault) (ControlFile.intThread_handed fault)

theorem script {i : ℕ} (h : s.Agrees u) (hstep : s.step u (.script i) = some t) :
    t.Agrees u := by
  obtain ⟨p, hp, rfl⟩ := Option.map_eq_some_iff.1 hstep
  obtain ⟨hheader, hpd⟩ := CANProcessor.scriptStep_controlFile hp
  exact h.of_engine rfl (congrArg _ hheader) (congrArg _ hpd)

theorem scriptStatus {i : ℕ} {v : String} {done : Bool} (h : s.Agrees u)
    (hstep : s.step u (.scriptStatus i v done) = some t) : t.Agrees u := by
  obtain ⟨p, hp, rfl⟩ := Option.map_eq_some_iff.1 hstep
  obtain ⟨hheader, hpd⟩ := CANProcessor.scriptStatus_controlFile hp
  exact h.of_engine rfl (congrArg _ hheader) (congrArg _ hpd)

/-- With messages lost. -/
theorem of_fewer {link : Exchange Packet Acknowledge} (h : s.Agrees u) (hord : link.Ordered)
    (hsent : link.sent = s.link.sent) (hserv : link.serving = s.link.serving)
    (hreq : link.requests.Sublist s.link.requests) (hans : link.answers.Sublist s.link.answers) :
    ({ s with link := link } : Session).Agrees u := by
  -- what is under way is a part of what was, and so is still one chunk at most
  have hsub : ({ s with link := link } : Session).underWay.Sublist s.underWay :=
    (hreq.filterMap _).append_left _
  have hempty (hs : s.underWay = []) : ({ s with link := link } : Session).underWay = [] :=
    List.sublist_nil.1 (hs ▸ hsub)
  have hsettled (hs : s.Settled) : ({ s with link := link } : Session).Settled :=
    fun n c hc => hs n c (hreq.subset hc)
  have hinf (hs : s.Informed u) : ({ s with link := link } : Session).Informed u := by
    refine ⟨⟨?_, hserv.trans hs.idle.serving, ?_⟩, hs.writing, hs.readable, hs.next⟩
    · exact List.sublist_nil.1 (hs.idle.requests ▸ hreq)
    · exact List.sublist_nil.1 (hs.idle.answers ▸ hans)
  exact {
    ordered := hord
    serving := by rw [hserv]; exact h.serving
    inFly := h.inFly
    answer := fun k hk => h.answer k (hsent ▸ hans.subset hk)
    underWay := by
      rcases h.underWay with hs | ⟨d, hd, hchunk, hset⟩
      · exact .inl (hempty hs)
      · rw [hd] at hsub
        refine (List.sublist_singleton.1 hsub).imp_right fun hd' => ?_
        exact ⟨d, hd', hchunk, hsettled hset⟩
    writing := h.writing
    start := fun hpc => hempty (h.start hpc)
    setup := fun c phase hpc hc => hempty (h.setup c phase hpc hc)
    waiting := fun c hpc hc hack => hinf (h.waiting c hpc hc hack)
    returned := fun c hpc hc => hinf (h.returned c hpc hc)
    ready := fun d phase hpc =>
      have hr := h.ready d phase hpc
      ⟨hempty hr.underWay, hsettled hr.settled, hr.isChunk⟩
    handed := h.handed }

theorem losePacket {i : ℕ} (h : s.Agrees u) (hstep : s.step u (.losePacket i) = some t) :
    t.Agrees u := by
  obtain rfl := Option.some.inj hstep
  exact h.of_fewer (h.ordered.loseRequest i) rfl rfl (List.eraseIdx_sublist ..) (List.Sublist.refl _)

theorem loseAcknowledge {i : ℕ} (h : s.Agrees u)
    (hstep : s.step u (.loseAcknowledge i) = some t) : t.Agrees u := by
  obtain rfl := Option.some.inj hstep
  exact h.of_fewer (h.ordered.loseAnswer i) rfl rfl (List.Sublist.refl _) (List.eraseIdx_sublist ..)

/-- An acknowledgement arrives: if it is the chunk number that the client waits for, the
    client knows the next chunk. -/
theorem acknowledge (h : s.Agrees u) (hown : ownNumber u s .acknowledge = true)
    (hstep : s.step u .acknowledge = some t) : t.Agrees u := by
  obtain ⟨⟨⟨n, ack⟩, link⟩, hrec, rfl⟩ := Option.map_eq_some_iff.1 hstep
  obtain ⟨l, hl, hlink⟩ := Exchange.receive_eq_some.1 hrec
  have hsub : l.Sublist s.link.answers := hl ▸ List.sublist_cons_self ..
  -- the client reads no buffer that is not there yet: it knew nothing before
  have hnot : ¬s.Informed u := fun hs => by simp [hs.idle.answers] at hl
  have hpc : (s.client.ackHandler ack).pc = s.client.pc := by cases ack <;> rfl
  have hfly : (s.client.ackHandler ack).commandInFly = s.client.commandInFly := by
    cases ack <;> rfl
  have hnext : ({ s with client := s.client.ackHandler ack, link := link } : Session).next = s.next :=
    rfl
  have hfewer := h.of_fewer (h.ordered.receive hrec) (by rw [hlink]) (by rw [hlink])
    (by rw [hlink]) (by rw [hlink]; exact hsub)
  exact {
    ordered := hfewer.ordered
    serving := hfewer.serving
    inFly := fun c phase hc => hfly.trans (h.inFly c phase (hpc ▸ hc))
    answer := hfewer.answer
    underWay := hfewer.underWay
    writing := hfewer.writing
    start := fun hc => hfewer.start (hpc ▸ hc)
    setup := fun c phase hc hset => hfewer.setup c phase (hpc ▸ hc) hset
    waiting := fun c hc hask hcode => by
      have hc' : s.client.pc = .running c .waiting := hpc ▸ hc
      have hack : ack.code = .ackChunk := by
        have hupd : (s.client.ackHandler ack).arrAck c.op = ack.code := by
          rw [← h.inFly c _ hc']
          exact Function.update_self ..
        exact hupd.symm.trans hcode
      cases ack with
      | ackChunk k =>
        simp only [ownNumber, hc', hl, hask, Bool.not_true, Bool.false_or, Bool.and_eq_true,
          decide_eq_true_eq] at hown
        have hidle := h.ordered.idle_of_latest hrec hown.1
        have hwriting : s.engine.writing = none :=
          h.serving.1 (by rw [← hidle.serving, hlink])
        refine ⟨hidle, hwriting, hown.2, h.answer k ?_⟩
        rw [hl, hown.1]
        exact List.mem_cons_self
      | _ => cases hack
    returned := fun c hc hask => absurd (h.returned c (hpc ▸ hc) hask) hnot
    ready := fun d phase hc =>
      have hr := hfewer.ready d phase (hpc ▸ hc)
      ⟨hr.underWay, hr.settled, hr.isChunk⟩
    handed := h.handed }

/-- The engine has handled a packet, when the client could not know the next chunk. -/
theorem of_handled {e : Engine} {link : Exchange Packet Acknowledge} (h : s.Agrees u)
    (ht : t = { s with engine := e, link := link }) (hbusy : ¬s.Informed u) (hord : link.Ordered)
    (hserving : link.serving = none ↔ e.writing = none)
    (hanswer : ∀ k, (link.sent, .ackChunk k) ∈ link.answers →
      k = ControlFileHeader.defaultChunkNo ∨ k = t.next)
    (hunder : t.underWay = [] ∨ ∃ d, t.underWay = [d] ∧ u.IsChunk t.next d ∧ t.Settled)
    (hwriting : ∀ k d, e.writing = some (k, d) → k = t.next)
    (hempty : s.underWay = [] → t.underWay = []) (hready : ∀ d, s.Ready u d → t.Ready u d)
    (hhanded : ∀ x ∈ e.controlFile.pd.handed, u.IsChunk x.1 x.2) : t.Agrees u := by
  subst ht
  exact {
    ordered := hord
    serving := hserving
    inFly := h.inFly
    answer := hanswer
    underWay := hunder
    writing := hwriting
    start := fun hpc => hempty (h.start hpc)
    setup := fun c phase hpc hc => hempty (h.setup c phase hpc hc)
    waiting := fun c hpc hc hack => absurd (h.waiting c hpc hc hack) hbusy
    returned := fun c hpc hc => absurd (h.returned c hpc hc) hbusy
    ready := fun d phase hpc => hready d (h.ready d phase hpc)
    handed := hhanded }

/-- The only answer with the number of the latest packet is the one just given. -/
theorem answer_latest {link : Exchange Packet Acknowledge} {n m : ℕ} {ack b : Acknowledge}
    (hord : link.Ordered) (hserving : link.serving = some n)
    (hm : (m, b) ∈ (link.answer ack).answers) (hlatest : m = link.sent) : b = ack := by
  rw [Exchange.answer, hserving, List.mem_append] at hm
  rcases hm with hm | hm
  · have hlt := hord.lt_of_mem hm (n := n) (List.mem_append_left _ (by rw [hserving]; simp))
    exact absurd hlatest hlt.ne
  · simp only [Option.toList_some, List.map_cons, List.map_nil, List.mem_singleton,
      Prod.mk.injEq] at hm
    exact hm.2

/-- A command at most changes the layout, and then there is no data under way. -/
theorem command {n : ℕ} {l : List (ℕ × Packet)} {c : Command} {o : Outcome} {e : Engine}
    {ack : Acknowledge} (h : s.Agrees u) (hserving : s.link.serving = none)
    (hreq : s.link.requests = (n, .command c) :: l)
    (he : s.engine.commandHandler o c = some (e, ack))
    (ht : t = { s with
      engine := e
      link := ({ s.link with serving := some n, requests := l } : Exchange _ _).answer ack }) :
    t.Agrees u := by
  have hh := Engine.handled_of_commandHandler he
  have hord := h.ordered.take (Exchange.take_eq_some.2 ⟨n, l, hserving, hreq, rfl⟩)
  -- a command of the setup would change the number of the next chunk, but none is under way
  have hnext (hs : s.Settled) : t.next = s.next := by
    have hc : c.isSetup = false := hs n c (by rw [hreq]; exact List.mem_cons_self)
    rw [ht]
    exact congrArg ControlFileHeader.next (hh.header hc)
  have hunder : t.underWay = s.underWay := by
    rw [ht, Session.underWay, Session.underWay, hreq, hh.writing]
    rfl
  have hsettled (hs : s.Settled) : t.Settled := by
    rw [ht]
    exact fun m c' hc' => hs m c' (by rw [hreq]; exact List.mem_cons_of_mem _ hc')
  refine h.of_handled ht (fun hs => by simp [hs.idle.requests] at hreq) (hord.answer ack)
    (iff_of_true rfl (hh.writing.trans (h.serving.1 hserving))) (fun k hk => ?_) ?_
    (fun k d hk => ?_) (fun hs => hunder.trans hs) (fun d hd => ?_) ?_
  · have hack := answer_latest hord rfl hk rfl
    rw [ht]
    exact hh.chunk k hack.symm
  · rw [hunder]
    refine h.underWay.imp_right ?_
    rintro ⟨d, hd, hchunk, hset⟩
    exact ⟨d, hd, by rw [hnext hset]; exact hchunk, hsettled hset⟩
  · rw [hh.writing, h.serving.1 hserving] at hk
    cases hk
  · exact ⟨hunder.trans hd.underWay, hsettled hd.settled, by
      rw [hnext hd.settled]
      exact hd.isChunk⟩
  · rw [hh.pd]
    exact h.handed

/-- `WriteFile` hands over what was under way, under the number of the next chunk. -/
theorem handOver {n : ℕ} {d : List UInt8} {link : Exchange Packet Acknowledge}
    (h : s.Agrees u) (hord : link.Ordered) (hserving : link.serving = some n)
    (hbusy : ¬s.Informed u) (hunder : s.underWay = d :: dataOf link.requests)
    (ht : t = { s with
      engine := s.engine.handOver s.next d
      link := link.answer (s.engine.handOver s.next d).ackNextChunk }) : t.Agrees u := by
  obtain hd | ⟨d', hd, hchunk, -⟩ := h.underWay
  · simp [hd] at hunder
  · obtain ⟨rfl, hempty⟩ := List.cons.inj (hd ▸ hunder)
    have hunder' : t.underWay = [] := by
      rw [ht]
      exact hempty.symm
    refine h.of_handled ht hbusy (hord.answer _) (iff_of_true rfl rfl) (fun k hk => ?_)
      (.inl hunder') (fun k d hk => by cases hk) (fun _ => hunder')
      (fun d'' hr => by simp [hr.underWay] at hd) (fun x hx => ?_)
    · have hack := answer_latest hord hserving hk rfl
      obtain rfl := Acknowledge.ackChunk.inj hack
      rw [ht]
      exact CANProcessor.getNextChunk_fst
    · rcases List.mem_append.1 hx with hx | hx
      · exact h.handed x hx
      · rw [List.mem_singleton.1 hx]
        exact hchunk

/-- A data packet arrives: it is the next chunk, or `WriteFile` does not store it. -/
theorem sendData {n : ℕ} {l : List (ℕ × Packet)} {d : List UInt8} (h : s.Agrees u)
    (hserving : s.link.serving = none) (hreq : s.link.requests = (n, .sendData d) :: l)
    (ht : t = s.answer { s.link with serving := some n, requests := l }
      (s.engine.dataHandler d)) : t.Agrees u := by
  have hord := h.ordered.take (Exchange.take_eq_some.2 ⟨n, l, hserving, hreq, rfl⟩)
  have hwriting := h.serving.1 hserving
  have hbusy : ¬s.Informed u := fun hs => by simp [hs.idle.requests] at hreq
  have hunder : s.underWay = d :: dataOf l := by
    rw [Session.underWay, hwriting, hreq]
    rfl
  have hnotReady (d' : List UInt8) : ¬s.Ready u d' := fun hr => by simp [hr.underWay] at hunder
  obtain hd | ⟨d', hd, hchunk, hset⟩ := h.underWay
  · simp [hd] at hunder
  obtain ⟨rfl, hempty⟩ := List.cons.inj (hd.symm.trans hunder)
  rw [Engine.dataHandler] at ht
  have hpd := s.engine.controlFile.pd_writeFile
  -- after an error of the thread nothing is stored, and nothing is under way any more
  have hdropped {cf : ControlFile} {ack : Acknowledge} (hcf : cf.pd = s.engine.controlFile.pd)
      (hack : ∀ k, ack = .ackChunk k →
        k = ControlFileHeader.defaultChunkNo ∨ k = cf.header.next)
      (ht : t = { s with
        engine := s.engine.withControlFile cf
        link := ({ s.link with serving := some n, requests := l } : Exchange _ _).answer ack }) :
      t.Agrees u := by
    have hunder' : t.underWay = [] := by
      rw [ht, Session.underWay]
      change (s.engine.writing.map Prod.snd).toList ++ dataOf l = []
      rw [hwriting, ← hempty]
      rfl
    refine h.of_handled ht hbusy (hord.answer ack) (iff_of_true rfl hwriting) (fun k hk => ?_)
      (.inl hunder') (fun k d hk => ?_) (fun _ => hunder') (fun d' hr => absurd hr (hnotReady d')) ?_
    · have hack' := answer_latest hord rfl hk rfl
      rw [ht]
      exact hack k hack'.symm
    · change s.engine.writing = some (k, d) at hk
      rw [hwriting] at hk
      cases hk
    · change ∀ x ∈ cf.pd.handed, _
      rw [hcf]
      exact h.handed
  split at ht
  · rename_i cf hcf
    rw [hcf] at hpd
    refine hdropped hpd (fun k hk => ?_) ht
    obtain rfl := Acknowledge.ackChunk.inj hk
    exact CANProcessor.getNextChunk_fst
  · rename_i cf err hne hcf
    rw [hcf] at hpd
    exact hdropped hpd (fun k hk => by cases hk) ht
  · rename_i cf chunk hcf
    obtain ⟨-, rfl⟩ := ControlFile.writeFile_waits hcf hchunk.ne_default
    split_ifs at ht
    · exact h.handOver hord rfl hbusy hunder ht
    · -- the chunk before is not stored yet
      have hunder' : t.underWay = [d'] := by
        rw [ht, ← hd, hunder]
        rfl
      refine h.of_handled ht hbusy hord (iff_of_false (by simp) (by simp)) (fun k hk => ?_)
        (.inr ⟨d', hunder', ?_, ?_⟩) (fun k d hk => ?_) (fun hs => by simp [hs] at hd)
        (fun d hr => absurd hr (hnotReady d)) h.handed
      · exact absurd rfl (hord.lt_of_mem (n := n) hk (by simp)).ne
      · rw [ht]
        exact hchunk
      · rw [ht]
        exact fun m c hc => hset m c (by rw [hreq]; exact List.mem_cons_of_mem _ hc)
      · cases hk
        rw [ht]
        rfl

theorem receive {o : Outcome} (h : s.Agrees u) (hstep : s.step u (.receive o) = some t) :
    t.Agrees u := by
  obtain ⟨⟨p, link⟩, htake, hmap⟩ := Option.bind_eq_some_iff.1 hstep
  obtain ⟨r, hr, rfl⟩ := Option.map_eq_some_iff.1 hmap
  obtain ⟨n, l, hserving, hreq, rfl⟩ := Exchange.take_eq_some.1 htake
  cases p with
  | command c =>
    obtain ⟨⟨e, ack⟩, he, rfl⟩ := Option.map_eq_some_iff.1 hr
    exact h.command hserving hreq he rfl
  | sendData d =>
    obtain rfl := Option.some.inj hr
    exact h.sendData hserving hreq rfl

theorem finishWrite (h : s.Agrees u) (hstep : s.step u .finishWrite = some t) : t.Agrees u := by
  obtain ⟨⟨e, ack⟩, he, rfl⟩ := Option.map_eq_some_iff.1 hstep
  unfold Engine.finishWrite at he
  split at he
  · cases he
  · rename_i k d hwriting
    split_ifs at he
    cases he
    obtain rfl := h.writing k d hwriting
    obtain ⟨n, hserving⟩ := Option.ne_none_iff_exists'.1 (mt h.serving.1 (by simp [hwriting]))
    refine h.handOver h.ordered hserving (fun hs => by simp [hs.writing] at hwriting) ?_ rfl
    rw [Session.underWay, hwriting]
    rfl

/-- The client starts the call `n`. -/
theorem perform {b : Client} {n : Call} (h : s.Agrees u)
    (hsetup : n.stage = .setup → s.underWay = [])
    (hready : ∀ d, n = .writeCh d ∨ n = .pushData d → s.Ready u d)
    (ht : t = { s with client := b.perform n, link := s.link.send ((b.perform n).packet u n) }) :
    t.Agrees u := by
  have hpc : t.client.pc = .running n .sent := by rw [ht]; rfl
  have hnext : t.next = s.next := by rw [ht]; rfl
  have hunder : t.underWay =
      s.underWay ++ ((b.perform n).packet u n).toList.filterMap Packet.data := by
    rw [ht]
    cases hp : (b.perform n).packet u n with
    | none => simp [Session.underWay, Exchange.send]
    | some p => cases p <;> simp [Session.underWay, Exchange.send, dataOf, Packet.data]
  have hsettled (hs : s.Settled) (hn : n.stage ≠ .setup) : t.Settled := by
    intro m c hc
    rw [ht] at hc
    rcases List.mem_append.1 hc with hc | hc
    · exact hs m c hc
    · by_cases hpush : ∃ d, n = .pushData d
      · obtain ⟨d, rfl⟩ := hpush
        simp only [Client.packet] at hc
        split_ifs at hc <;> simp at hc
      · obtain ⟨command, hcommand, hset⟩ :=
          (b.perform n).packet_eq_command (u := u) (c := n) fun d hd => hpush ⟨d, hd⟩
        simp only [hcommand, Option.toList_some, List.map_cons, List.map_nil, List.mem_singleton,
          Prod.mk.injEq, Packet.command.injEq] at hc
        rw [hc.2]
        exact Bool.eq_false_iff.2 fun htrue => hn (hset htrue)
  -- every call but that for the data sends a command
  have hcommand (hpush : ∀ d, n ≠ .pushData d) : t.underWay = s.underWay := by
    obtain ⟨command, hc, -⟩ := (b.perform n).packet_eq_command (u := u) (c := n) hpush
    rw [hunder, hc]
    exact List.append_nil _
  exact {
    ordered := by rw [ht]; exact h.ordered.send _
    serving := by rw [ht]; exact h.serving
    inFly := fun c phase hc => by
      rw [hpc] at hc
      cases hc
      rw [ht]
      rfl
    answer := fun k hk => by
      rw [ht] at hk
      have hle := h.ordered.le_sent (s.link.sent + 1)
        (List.mem_append_left _ (List.mem_map_of_mem (f := Prod.fst) hk))
      exact absurd hle (by omega)
    underWay := by
      by_cases hpush : ∃ d, n = .pushData d
      · -- the data sent is the next chunk
        obtain ⟨d, rfl⟩ := hpush
        have hr := hready d (.inr rfl)
        rw [hunder, hr.underWay]
        simp only [Client.packet]
        split_ifs
        · refine .inr ⟨d, rfl, ?_, hsettled hr.settled (by simp [Call.stage])⟩
          rw [hnext]
          exact hr.isChunk
        · exact .inl rfl
      · rw [hcommand fun d hd => hpush ⟨d, hd⟩, hnext]
        by_cases hset : n.stage = .setup
        · exact .inl (hsetup hset)
        · refine h.underWay.imp_right ?_
          rintro ⟨d, hd, hchunk, hs⟩
          exact ⟨d, hd, hchunk, hsettled hs hset⟩
    writing := fun k d hk => by
      rw [ht] at hk
      exact (h.writing k d hk).trans hnext.symm
    start := fun hc => by rw [hpc] at hc; cases hc
    setup := fun c phase hc hset => by
      rw [hpc] at hc
      cases hc
      rw [hcommand fun d hd => by rw [hd] at hset; cases hset]
      exact hsetup hset
    waiting := fun c hc => by rw [hpc] at hc; cases hc
    returned := fun c hc => by rw [hpc] at hc; cases hc
    ready := fun d phase hc => by
      rw [hpc] at hc
      obtain ⟨rfl, -⟩ := Pc.running.inj hc
      have hr := hready d (.inl rfl)
      refine ⟨?_, hsettled hr.settled (by simp [Call.stage]), ?_⟩
      · rw [hcommand (by simp)]
        exact hr.underWay
      · rw [hnext]
        exact hr.isChunk
    handed := by rw [ht]; exact h.handed }

/-- The thread of `UploadFile` goes on within a call, or returns. -/
theorem of_pc {a : Client} (h : s.Agrees u)
    (hfly : ∀ c phase, a.pc = .running c phase → a.commandInFly = c.op)
    (hbuf : ∀ c phase, a.pc = .running c phase → a.intBuffer = s.client.intBuffer)
    (hstart : a.pc ≠ .start)
    (hrun : ∀ c phase, a.pc = .running c phase → ∃ phase', s.client.pc = .running c phase')
    (hwaiting : ∀ c, a.pc = .running c .waiting → c.asksChunk = true →
      a.arrAck c.op = .ackChunk → s.Informed u)
    (hreturned : ∀ c, a.pc = .running c (.returned .ackChunk) → c.asksChunk = true →
      s.Informed u) : ({ s with client := a } : Session).Agrees u := by
  have hinf {c : Call} {phase : Phase} (hpc : a.pc = .running c phase) (hs : s.Informed u) :
      ({ s with client := a } : Session).Informed u := by
    refine ⟨hs.idle, hs.writing, ?_, ?_⟩
    · rw [hbuf c phase hpc]
      exact hs.readable
    · rw [hbuf c phase hpc]
      exact hs.next
  exact {
    ordered := h.ordered
    serving := h.serving
    inFly := hfly
    answer := h.answer
    underWay := h.underWay
    writing := h.writing
    start := fun hpc => absurd hpc hstart
    setup := fun c phase hpc hc => by
      obtain ⟨phase', hpc'⟩ := hrun c phase hpc
      exact h.setup c phase' hpc' hc
    waiting := fun c hpc hc hack => hinf hpc (hwaiting c hpc hc hack)
    returned := fun c hpc hc => hinf hpc (hreturned c hpc hc)
    ready := fun d phase hpc => by
      obtain ⟨phase', hpc'⟩ := hrun (.writeCh d) phase hpc
      have hr := h.ready d phase' hpc'
      exact ⟨hr.underWay, hr.settled, hr.isChunk⟩
    handed := h.handed }

theorem client (h : s.Agrees u) (hstep : s.step u .client = some t) : t.Agrees u := by
  obtain ⟨⟨a, o⟩, ha, ht⟩ := Option.map_eq_some_iff.1 hstep
  cases Client.steps_of_step ha with
  | start hpc =>
    exact h.perform (fun _ => h.start hpc) (fun d hd => by rcases hd with hd | hd <;> cases hd)
      ht.symm
  | @wait c hpc =>
    obtain rfl := ht
    refine h.of_pc (fun c' phase hc => ?_) (fun _ _ _ => rfl) (by simp) (fun c' phase hc => ?_)
      (fun c' hc _ hack => ?_) (fun c' hc => by simp at hc)
    · cases hc
      exact h.inFly c _ hpc
    · cases hc
      exact ⟨_, hpc⟩
    · cases hc
      simp at hack
  | @ret c hpc =>
    obtain rfl := ht
    refine h.of_pc (fun c' phase hc => ?_) (fun _ _ _ => rfl) (by simp) (fun c' phase hc => ?_)
      (fun c' hc => by simp at hc) (fun c' hc hask => ?_)
    · cases hc
      exact h.inFly c _ hpc
    · cases hc
      exact ⟨_, hpc⟩
    · obtain ⟨rfl, hack⟩ := Pc.running.inj hc
      exact h.waiting _ hpc hask (Phase.returned.inj hack)
  | @call c ack b n hpc hres =>
    refine h.perform (fun hn => ?_) (fun d hd => ?_) ht.symm
    · cases Client.leads_of_resume hres with
      | setup hc hn => exact h.setup c _ hpc hc
      | late hc hn' => rw [hn'] at hn; cases hn
      | _ => cases hn
    · cases Client.leads_of_resume hres with
      | setup hc hn => rcases hd with rfl | rfl <;> cases hn
      | late hc hn => rcases hd with rfl | rfl <;> cases hn
      | writeCh hask herror hdone =>
        -- the client has just been told the number of the chunk
        obtain rfl := Call.writeCh.inj (hd.resolve_right (by simp))
        have hs := h.returned c hpc hask
        refine ⟨hs.underWay, hs.settled, ?_⟩
        rw [← hs.next.resolve_left hdone]
        exact Upload.isChunk_readChunk hs.readable herror hdone
      | pushData =>
        obtain rfl := Call.pushData.inj (hd.resolve_left (by simp))
        exact h.ready _ _ hpc
      | _ => rcases hd with hd | hd <;> cases hd
  | exit hpc hres =>
    obtain rfl := ht
    exact h.of_pc (fun _ _ hc => by cases hc) (fun _ _ hc => by cases hc) (by simp)
      (fun _ _ hc => by cases hc) (fun _ hc => by cases hc) (fun _ hc => by cases hc)

/-- Every step in which the client takes no other chunk number keeps the agreement. -/
theorem step {a : Action} (h : s.Agrees u) (hown : ownNumber u s a = true)
    (hstep : s.step u a = some t) : t.Agrees u := by
  cases a with
  | client => exact h.client hstep
  | acknowledge => exact h.acknowledge hown hstep
  | receive o => exact h.receive hstep
  | finishWrite => exact h.finishWrite hstep
  | writer fault => exact h.writer hstep
  | script i => exact h.script hstep
  | scriptStatus i v done => exact h.scriptStatus hstep
  | losePacket i => exact h.losePacket hstep
  | loseAcknowledge i => exact h.loseAcknowledge hstep

/-- At the start, nothing is under way. -/
theorem of_initial (h : s.Initial) : s.Agrees u := by
  have hunder : s.underWay = [] := by
    rw [Session.underWay, h.writing, h.idle.requests]
    rfl
  exact {
    ordered := h.idle.ordered
    serving := by simp [h.idle.serving, h.writing]
    inFly := fun c phase hpc => by rw [h.pc] at hpc; cases hpc
    answer := fun k hk => by rw [h.idle.answers] at hk; cases hk
    underWay := .inl hunder
    writing := fun k d hk => by rw [h.writing] at hk; cases hk
    start := fun _ => hunder
    setup := fun c phase hpc => by rw [h.pc] at hpc; cases hpc
    waiting := fun c hpc => by rw [h.pc] at hpc; cases hpc
    returned := fun c hpc => by rw [h.pc] at hpc; cases hpc
    ready := fun d phase hpc => by rw [h.pc] at hpc; cases hpc
    handed := fun x hx => by rw [h.handed] at hx; cases hx }

end Agrees

/-- Every chunk that the engine takes to be stored is the chunk of the file with its number,
    in every run in which each chunk number that the client takes answers its latest packet. -/
theorem stored_chunks {l : List Action} (h : s.Initial)
    (hC : Transition.Meets (Session.step u) (fun s a => ownNumber u s a = true) s l)
    (ht : Transition.run (Session.step u) s l = some t) :
    ∀ x ∈ t.engine.controlFile.pd.handed, u.IsChunk x.1 x.2 :=
  (Transition.inv_of_meets (I := Agrees u) (fun _ _ _ hs hown hstep => hs.step hown hstep)
    (.of_initial h) hC ht).handed

/-! ## A run -/

/-- A client that has not started, and an engine that has stored nothing. -/
def fresh : Session where
  client := .fresh
  engine := ⟨⟨⟨⟨0, 0, 0, 0, 0, 0, 0⟩, Vector.replicate 32 0, [], .none, "",
    ⟨[], 0, .ok, 0, true, []⟩, Vector.replicate 32 0,
    ⟨fun loc => if loc = .download then some .empty else none, none, .download⟩⟩, .ready, []⟩, none⟩
  link := ⟨0, [], none, []⟩

theorem fresh_initial : fresh.Initial :=
  ⟨rfl, ⟨rfl, rfl, rfl⟩, rfl, List.forall_mem_nil _, rfl⟩

/-- The engine handles a packet, and all system calls succeed. -/
def receiveOk : Action := .receive ⟨fun _ => false, true, 0⟩

/-- A call whose packet is answered while the client waits, and the start of the next call. -/
def inTime : List Action := [.client, receiveOk, .acknowledge, .client, .client]

/-- A call whose acknowledgement is under way when the client gives up. -/
def late : List Action := [.client, receiveOk, .client, .client]

/-- A call whose packet is lost. -/
def lost : List Action := [.client, .losePacket 0, .client, .client]

/-- Both chunks of a file arrive. -/
theorem stored_chunks_twoBytes : ∃ t,
    Transition.run (Session.step .twoBytes) fresh
      (.client :: lost ++ inTime ++ inTime ++ inTime ++ inTime ++ inTime ++ .writer none :: inTime ++
        inTime) = some t ∧
    t.engine.controlFile.pd.handed = [(0, [1]), (1, [2])] ∧
    ∀ x ∈ t.engine.controlFile.pd.handed, Upload.twoBytes.IsChunk x.1 x.2 := by
  have hrun : (Transition.run (Session.step .twoBytes) fresh
      (.client :: lost ++ inTime ++ inTime ++ inTime ++ inTime ++ inTime ++ .writer none :: inTime ++
        inTime)).map (fun t => t.engine.controlFile.pd.handed) = some [(0, [1]), (1, [2])] := by
    decide +kernel
  obtain ⟨t, ht, hhanded⟩ := Option.map_eq_some_iff.1 hrun
  exact ⟨t, ht, hhanded, stored_chunks fresh_initial (by decide +kernel) ht⟩

/-- The acknowledgement of the last setup packet and of a question for the next chunk come late,
    each in the next call: the number of the first chunk answers the first chunk itself, and so
    this chunk is sent once more, and stored as the second one. -/
theorem stored_chunks_fails_of_late_numbers : ¬ ∀ (u : Upload) (s t : Session) (l : List Action),
    s.Initial → Transition.run (Session.step u) s l = some t →
    ∀ x ∈ t.engine.controlFile.pd.handed, u.IsChunk x.1 x.2 := by
  intro hall
  have hrun : (Transition.run (Session.step .twoBytes) fresh
      (.client :: lost ++ inTime ++ inTime ++ inTime ++ late ++ inTime ++ inTime ++ late ++ inTime ++
        inTime ++ inTime ++ .writer none :: inTime ++ inTime)).map
      (fun t => t.engine.controlFile.pd.handed) = some [(0, [1]), (1, [1])] := by
    decide +kernel
  obtain ⟨t, ht, hhanded⟩ := Option.map_eq_some_iff.1 hrun
  obtain ⟨n, hn, hd⟩ := hall _ _ t _ fresh_initial ht (1, [1]) (by simp [hhanded])
  obtain rfl : n = 1 := Int.ofNat.inj hn.symm
  exact absurd hd (by decide)

end Session

end EW8.Update
