import EW8.Update.Busy
import EW8.Update.Chunks
import EW8.Update.Effects

/-!
# What is installed

The client compares the hash of the image with the one that it has been given, and then has the
image installed. The engine hashes the image as it is on the disk, also while the thread has still to
store a chunk; and the script of the power-on makes the engine ready when it ends, also during an
update, so that the image can be removed.

* `verified_of_run`: an update script finds an image with the hash that the client has been given,
  and this image stays as long as the script runs, in the runs in which the image is hashed after
  the last chunk has been stored, and not removed while a script is to run (`safe`);
* `verified_fails_of_pending`: a chunk that is stored after the image has been hashed.

The packets of a run come in three parts: those before the check of the image, the check, and those
after it (`Packet.SentIn`). As they keep their order, a run goes from one state to the next
(`Session.Unchecked`, `Session.Checked`, `Session.Removed`), and whatever has been delayed belongs to
a part that the engine has not yet passed.
-/

namespace EW8.Update

/-! ## Packets -/

namespace Packet

/-- `CAN_CHECK_SIGN` for the whole image. -/
def check : Packet := .command (.checkSign ControlFileHeader.defaultChunkNo)

/-- The packets before the check of the image. -/
def isEarly : Packet → Bool
  | sendData _ => true
  | command (.setVersion _) => true
  | command (.setInfo ..) => true
  | command .getNumWrCh => true
  | command (.writeCh _) => true
  | command (.userRemove _) => true
  | command .userGetVer => true
  | command .getUpdStatus => true
  | _ => false

/-- The packets after the request for the update. -/
def isLate : Packet → Bool
  | command (.userRemove _) => true
  | command .userGetVer => true
  | command .getUpdStatus => true
  | command .forceRollback => true
  | _ => false

/-- The packets that the client sends in each stage. -/
def SentIn (p : Packet) : Stage → Prop
  | .setup => p.isEarly = true
  | .chunks => p.isEarly = true
  | .verify => p = check
  | .update => p = .command .userUpdate
  | .late => p.isLate = true

end Packet

namespace Client

variable {u : Upload} {a b : Client} {c : Call} {o : Option Call} {p : Packet} {ack : Acknowledge}

theorem sentIn_packet (h : p ∈ a.packet u c) : p.SentIn c.stage := by
  cases c with
  | getVersion use => cases use <;> cases h <;> rfl
  | getStatus use => cases use <;> cases h <;> rfl
  | remove use => cases use <;> cases h <;> rfl
  | pushData chunk =>
    simp only [packet] at h
    split_ifs at h
    · cases h
      rfl
    · cases h
  | _ => cases h; rfl

/-- `VerifyContent` has the hash of the image. -/
def HasHash (a : Client) : Prop :=
  a.pc = .running .verify .waiting ∧ a.arrAck .verify = .ackData ∨
    a.pc = .running .verify (.returned .ackData)

/-- The thread of `UploadFile` gets no hash by itself. -/
theorem hasHash_of_steps (h : Steps u a b o) (hb : b.HasHash) :
    a.HasHash ∧ b.sha256Buffer = a.sha256Buffer := by
  cases h with
  | start hpc => rcases hb with ⟨hb, -⟩ | hb <;> cases hb
  | @wait c hpc =>
    rcases hb with ⟨hb, hack⟩ | hb
    · cases hb
      have hreset : Function.update a.arrAck .verify AckCode.timeout .verify = .ackData := hack
      rw [Function.update_self] at hreset
      cases hreset
    · cases hb
  | @ret c hpc =>
    rcases hb with ⟨hb, -⟩ | hb
    · cases hb
    · obtain ⟨rfl, hack⟩ := Pc.running.inj hb
      exact ⟨.inl ⟨hpc, Phase.returned.inj hack⟩, rfl⟩
  | call hpc hres => rcases hb with ⟨hb, -⟩ | hb <;> cases hb
  | exit hpc hres => rcases hb with ⟨hb, -⟩ | hb <;> cases hb

/-- It comes with an acknowledgement. -/
theorem hasHash_of_ackHandler (h : (a.ackHandler ack).HasHash) :
    (∃ k sha2, ack = .ackData k sha2 ∧ (a.ackHandler ack).sha256Buffer = sha2) ∨
      a.HasHash ∧ (a.ackHandler ack).sha256Buffer = a.sha256Buffer := by
  have hold (hcode : ack.code ≠ .ackData) (hpc : (a.ackHandler ack).pc = a.pc) : a.HasHash := by
    rw [HasHash, hpc] at h
    refine h.imp_left (And.imp_right fun hack => ?_)
    have hupdate : Function.update a.arrAck a.commandInFly ack.code .verify = .ackData := hack
    by_cases hfly : OperationWaitState.verify = a.commandInFly
    · rw [← hfly, Function.update_self] at hupdate
      exact absurd hupdate hcode
    · rwa [Function.update_of_ne hfly] at hupdate
  cases ack with
  | ackData k sha2 => exact .inl ⟨k, sha2, rfl, rfl⟩
  | _ => exact .inr ⟨hold (by simp [Acknowledge.code]) rfl, rfl⟩

end Client

/-! ## The engine -/

namespace CANProcessor

variable {p p' : CANProcessor} {i : ℕ} {v : String} {done : Bool}

/-- A script that starts finds the image that is there. -/
theorem runUpdate_of_scriptStep {image : Option (Option (List UInt8))}
    (h : p.scriptStep i = some p') (ht : .runUpdate image ∈ p'.scripts) :
    .runUpdate image ∈ p.scripts ∨
      image = some p.controlFile.image ∧ .runUpdate none ∈ p.scripts := by
  unfold scriptStep at h
  split at h
  · cases h
  · rename_i hi
    cases h
    rcases List.mem_or_eq_of_mem_set ht with ht | ht
    · exact .inl ht
    · rw [ScriptThread.runUpdate.inj ht, ControlFile.image_setUpdateStatus]
      exact .inr ⟨rfl, List.mem_of_getElem? hi⟩
  all_goals
    cases h
    exact .inl (List.mem_of_mem_eraseIdx ht)

theorem image_scriptStep (h : p.scriptStep i = some p') :
    p'.controlFile.image = p.controlFile.image := by
  rcases scriptStep_status h with heq | ⟨status, heq⟩
  · rw [heq]
  · rw [heq, ControlFile.image_setUpdateStatus]

theorem image_scriptStatus (h : p.scriptStatus i v done = some p') :
    p'.controlFile.image = p.controlFile.image :=
  (scriptStatus_read h).2.2 .none

end CANProcessor

namespace Engine

variable {e e' : Engine} {o : Outcome} {p : Packet} {r : Option Acknowledge}

/-- Only the request for an update makes an update script run. -/
theorem runUpdate_of_receive {image : Option (Option (List UInt8))}
    (h : e.receive o p = some (e', r)) (ht : .runUpdate image ∈ e'.processor.scripts) :
    .runUpdate image ∈ e.processor.scripts ∨ image = none ∧ p = .command .userUpdate := by
  cases p with
  | sendData buf =>
    obtain ⟨cf, hcf⟩ := e.exists_dataHandler buf
    rw [show (e.dataHandler buf).1 = e' from congrArg Prod.fst (Option.some.inj h)] at hcf
    rw [hcf] at ht
    exact .inl ht
  | command c =>
    obtain ⟨⟨x, ack⟩, hx, heq⟩ := Option.map_eq_some_iff.1 h
    cases heq
    rcases scripts_commandHandler hx with ⟨-, cf, hcf⟩ | ⟨state, t, hc, -, hstart⟩
    · rw [hcf] at ht
      exact .inl ht
    · rw [hstart, CANProcessor.startScript, CANProcessor.runScript] at ht
      split_ifs at ht
      · rcases List.mem_append.1 ht with ht | ht
        · exact .inl ht
        · obtain rfl := List.mem_singleton.1 ht
          cases c <;> cases hc
          exact .inr ⟨rfl, rfl⟩
      · exact .inl ht

/-- A packet that has been answered leaves no call of `WriteFile` that waits. -/
theorem writing_of_receive {ack : Acknowledge} (hwriting : e.writing = none)
    (h : e.receive o p = some (e', some ack)) : e'.writing = none := by
  cases p with
  | sendData buf =>
    have hdata : e.dataHandler buf = (e', some ack) := Option.some.inj h
    unfold dataHandler at hdata
    split at hdata
    · cases hdata
      exact hwriting
    · cases hdata
      exact hwriting
    · split_ifs at hdata
      · cases hdata
        rfl
      · cases hdata
  | command c =>
    obtain ⟨⟨x, ack'⟩, hx, heq⟩ := Option.map_eq_some_iff.1 h
    cases heq
    exact (handled_of_commandHandler hx).writing.trans hwriting

theorem writing_of_finishWrite {ack : Acknowledge} (h : e.finishWrite = some (e', ack)) :
    ∃ x, e.writing = some x ∧ e'.writing = none := by
  unfold finishWrite at h
  split at h
  · cases h
  · rename_i chunk buf hwriting
    split_ifs at h
    cases h
    exact ⟨(chunk, buf), hwriting, rfl⟩

/-- The hash that the engine answers with is one that it has computed. -/
theorem checked_of_receive {k : ℤ} {sha2 : SHA2Store}
    (h : e.receive o p = some (e', some (.ackData k sha2))) :
    ∃ chunk, p = .command (.checkSign chunk) ∧
      (e.controlFile.checkChunkSHA2 chunk).2.2 = some sha2 := by
  cases p with
  | sendData buf =>
    have hack : (e.dataHandler buf).2 = some (.ackData k sha2) :=
      congrArg Prod.snd (Option.some.inj h)
    unfold dataHandler at hack
    split at hack
    · cases hack
    · cases hack
    · split_ifs at hack
      cases hack
  | command c =>
    obtain ⟨⟨x, ack⟩, hx, heq⟩ := Option.map_eq_some_iff.1 h
    cases heq
    cases c with
    | checkSign chunk =>
      refine ⟨chunk, rfl, ?_⟩
      simp only [commandHandler] at hx
      split at hx
      · rename_i heq
        cases hx
        unfold CANProcessor.checkChunkSHA2 at heq
        split at heq
        · rename_i heq'
          cases heq
          rw [controlFile, heq']
        · cases heq
        · cases heq
      · cases hx
    | setInfo fileSize chunkSize =>
      obtain ⟨⟨q, status⟩, -, hack⟩ := Option.map_eq_some_iff.1 hx
      cases status <;> cases hack
    | writeCh size =>
      simp only [commandHandler] at hx
      split_ifs at hx <;> cases hx
    | getUpdStatus => cases hx
    | unknown => cases hx
    | _ =>
      simp only [commandHandler] at hx
      split at hx <;> cases hx

end Engine

/-- The thread of an update. -/
def ScriptThread.isUpdate : ScriptThread → Bool
  | runUpdate _ => true
  | _ => false

namespace Session

variable (u : Upload) (s : Session)

/-! ## The condition, and the states of a run -/

/-- An update script that runs has found an image with the hash that the client has been given, and
    this image is still there. -/
def Verified : Prop :=
  ∀ image, .runUpdate (some image) ∈ s.engine.processor.scripts →
    image = s.engine.controlFile.image ∧ ∃ b, image = some b ∧ sha256 b = u.shaInp

/-- The image is hashed once all chunks are stored, and not removed while an update is to run. -/
def safe (s : Session) : Action → Bool
  | .receive _ =>
    match s.link.requests with
    | (_, .command (.checkSign _)) :: _ => s.engine.controlFile.pd.writtenStatus
    | (_, .command (.userRemove _)) :: _ =>
      s.engine.processor.state ≠ .ready || !s.engine.processor.scripts.any ScriptThread.isUpdate
    | _ => true
  | _ => true

/-- No update has been asked for. -/
def Quiet : Prop := ∀ image, .runUpdate image ∉ s.engine.processor.scripts

/-- Before the engine has answered the check of the image with a hash. -/
structure Unchecked : Prop where
  stage : ∀ c phase, s.client.pc = .running c phase → c.stage ≠ .update ∧ c.stage ≠ .late
  requests : ∀ r ∈ s.link.requests, r.2.isEarly = true ∨ r.2 = .check
  -- the check is the last packet
  last : s.link.requests.Pairwise fun r _ => r.2 ≠ .check
  asked : ∀ r ∈ s.link.requests, r.2 = .check → s.client.pc ≠ .start ∧
    ∀ c phase, s.client.pc = .running c phase → c.stage = .verify
  answers : ∀ r ∈ s.link.answers, ∀ k sha2, r.2 ≠ .ackData k sha2
  hash : ¬s.client.HasHash
  quiet : s.Quiet

/-- The engine has answered the check with the hash `sha2`, and the image has not been removed. -/
structure Checked (sha2 : SHA2Store) : Prop where
  start : s.client.pc ≠ .start
  stage : ∀ c phase, s.client.pc = .running c phase → c.stage ≠ .setup ∧ c.stage ≠ .chunks
  verify : ∀ c phase, s.client.pc = .running c phase → c.stage = .verify → s.link.requests = []
  requests : ∀ r ∈ s.link.requests, r.2 = .command .userUpdate ∧ sha2 = u.shaInp ∨ r.2.isLate = true
  -- the request for the update is the first packet
  first : s.link.requests.Pairwise fun _ r => r.2 ≠ .command .userUpdate
  removing : ∀ n v, (n, .command (.userRemove v)) ∈ s.link.requests →
    ∀ c phase, s.client.pc = .running c phase → c.stage = .late
  answers : ∀ r ∈ s.link.answers, ∀ k hash, r.2 = .ackData k hash → hash = sha2
  hash : s.client.HasHash → s.client.sha256Buffer = sha2
  image : ∃ b, s.engine.controlFile.image = some b ∧ sha256 b = sha2
  written : s.engine.controlFile.pd.writtenStatus = true
  writing : s.engine.writing = none
  scripts : ∀ image, .runUpdate image ∈ s.engine.processor.scripts → sha2 = u.shaInp ∧
    ∀ x ∈ image, x = s.engine.controlFile.image

/-- The image has been removed. -/
structure Removed : Prop where
  start : s.client.pc ≠ .start
  stage : ∀ c phase, s.client.pc = .running c phase → c.stage = .late
  requests : ∀ r ∈ s.link.requests, r.2 ≠ .command .userUpdate
  quiet : s.Quiet

variable {u s} {t : Session} {sha2 : SHA2Store} {link : Exchange Packet Acknowledge}
  {x : Engine × Option Acknowledge}

@[simp] theorem client_answer : (s.answer link x).client = s.client := by
  rcases x with ⟨e, _ | ack⟩ <;> rfl

@[simp] theorem engine_answer : (s.answer link x).engine = x.1 := by
  rcases x with ⟨e, _ | ack⟩ <;> rfl

@[simp] theorem requests_answer : (s.answer link x).link.requests = link.requests := by
  rcases x with ⟨e, _ | ack⟩ <;> rfl

theorem mem_answer {r : ℕ × Acknowledge} (h : r ∈ (s.answer link x).link.answers) :
    r ∈ link.answers ∨ x.2 = some r.2 := by
  rcases x with ⟨e, _ | ack⟩
  · exact .inl h
  · exact (Exchange.mem_answer h).imp_right fun hr => congrArg some hr.symm

/-- A script runs or writes a status. -/
structure Scripts (e e' : Engine) : Prop where
  writing : e'.writing = e.writing
  pd : e'.controlFile.pd = e.controlFile.pd
  image : e'.controlFile.image = e.controlFile.image
  scripts : ∀ image, .runUpdate image ∈ e'.processor.scripts → .runUpdate image ∈ e.processor.scripts ∨
    image = some e.controlFile.image ∧ .runUpdate none ∈ e.processor.scripts

theorem scripts_of_script {i : ℕ} (hstep : s.step u (.script i) = some t) :
    ∃ e, t = { s with engine := e } ∧ Scripts s.engine e := by
  obtain ⟨p, hp, rfl⟩ := Option.map_eq_some_iff.1 hstep
  exact ⟨_, rfl, rfl, (CANProcessor.scriptStep_controlFile hp).2, CANProcessor.image_scriptStep hp,
    fun _ => CANProcessor.runUpdate_of_scriptStep hp⟩

theorem scripts_of_scriptStatus {i : ℕ} {v : String} {done : Bool}
    (hstep : s.step u (.scriptStatus i v done) = some t) :
    ∃ e, t = { s with engine := e } ∧ Scripts s.engine e := by
  obtain ⟨p, hp, rfl⟩ := Option.map_eq_some_iff.1 hstep
  refine ⟨_, rfl, rfl, (CANProcessor.scriptStatus_controlFile hp).2,
    CANProcessor.image_scriptStatus hp, fun image h => .inl ?_⟩
  rwa [← (CANProcessor.scriptStatus_scripts hp).2]

/-! ## Before the check -/

namespace Unchecked

variable {e : Engine} {a b : Client} {c : Call} {o : Outcome} {n : ℕ} {p : Packet}
  {l : List (ℕ × Packet)} {r : Option Acknowledge}

theorem of_initial (h : s.Initial) : s.Unchecked where
  stage := fun c phase hpc => by rw [h.pc] at hpc; cases hpc
  requests := fun r hr => by rw [h.idle.requests] at hr; cases hr
  last := by rw [h.idle.requests]; exact .nil
  asked := fun r hr => by rw [h.idle.requests] at hr; cases hr
  answers := fun r hr => by rw [h.idle.answers] at hr; cases hr
  hash := by
    rintro (⟨hpc, -⟩ | hpc)
    · cases h.pc.symm.trans hpc
    · cases h.pc.symm.trans hpc
  quiet := fun image ht => by cases h.scripts _ ht

theorem of_fewer (h : s.Unchecked) (hrequests : link.requests.Sublist s.link.requests)
    (hanswers : link.answers.Sublist s.link.answers) :
    ({ s with link := link } : Session).Unchecked where
  stage := h.stage
  requests := fun r hr => h.requests r (hrequests.subset hr)
  last := h.last.sublist hrequests
  asked := fun r hr => h.asked r (hrequests.subset hr)
  answers := fun r hr => h.answers r (hanswers.subset hr)
  hash := h.hash
  quiet := h.quiet

theorem of_engine (h : s.Unchecked) (hquiet : ({ s with engine := e } : Session).Quiet) :
    ({ s with engine := e } : Session).Unchecked where
  stage := h.stage
  requests := h.requests
  last := h.last
  asked := h.asked
  answers := h.answers
  hash := h.hash
  quiet := hquiet

theorem acknowledge (h : s.Unchecked) (hstep : s.step u .acknowledge = some t) : t.Unchecked := by
  obtain ⟨⟨⟨n, ack⟩, link⟩, hreceive, rfl⟩ := Option.map_eq_some_iff.1 hstep
  obtain ⟨l, hanswers, rfl⟩ := Exchange.receive_eq_some.1 hreceive
  have hpc : (s.client.ackHandler ack).pc = s.client.pc := by cases ack <;> rfl
  exact {
    stage := fun c phase hc => h.stage c phase (hpc.symm.trans hc)
    requests := h.requests
    last := h.last
    asked := fun r hr hcheck => hpc.symm ▸ h.asked r hr hcheck
    answers := fun r hr => h.answers r (hanswers ▸ List.mem_cons_of_mem _ hr)
    hash := fun hb => by
      rcases Client.hasHash_of_ackHandler hb with ⟨k, sha2, hack, -⟩ | ⟨ha, -⟩
      · exact h.answers (n, ack) (hanswers ▸ List.mem_cons_self) k sha2 hack
      · exact h.hash ha
    quiet := h.quiet }

theorem perform (h : s.Unchecked) (hc : c.stage ≠ .update ∧ c.stage ≠ .late)
    (hno : ∀ r ∈ s.link.requests, r.2 ≠ .check) :
    ({ s with
      client := b.perform c
      link := s.link.send ((b.perform c).packet u c) } : Session).Unchecked where
  stage := fun c' phase hpc => by cases hpc; exact hc
  requests := fun r hr => by
    rcases Exchange.mem_send hr with hr | hr
    · exact h.requests r hr
    · have hsent := Client.sentIn_packet hr
      cases hstage : c.stage with
      | setup => rw [hstage] at hsent; exact .inl hsent
      | chunks => rw [hstage] at hsent; exact .inl hsent
      | verify => rw [hstage] at hsent; exact .inr hsent
      | update => exact absurd hstage hc.1
      | late => exact absurd hstage hc.2
  last := Exchange.pairwise_send h.last fun r hr _ _ => hno r hr
  asked := fun r hr hcheck => by
    refine ⟨fun hpc => (by cases hpc), fun c' phase hpc => ?_⟩
    cases hpc
    rcases Exchange.mem_send hr with hr | hr
    · exact absurd hcheck (hno r hr)
    · have hsent := Client.sentIn_packet hr
      rw [hcheck] at hsent
      cases hstage : c.stage with
      | verify => rfl
      | _ => rw [hstage] at hsent; cases hsent
  answers := h.answers
  hash := by
    rintro (⟨hpc, -⟩ | hpc)
    · cases hpc
    · cases hpc
  quiet := h.quiet

/-- The thread of `UploadFile` goes on within a call, or returns. -/
theorem of_pc (h : s.Unchecked) (hstart : a.pc ≠ .start)
    (hrun : ∀ c phase, a.pc = .running c phase → ∃ phase', s.client.pc = .running c phase')
    (hhash : ¬a.HasHash) : ({ s with client := a } : Session).Unchecked where
  stage := fun c phase hpc => by
    obtain ⟨phase', hpc'⟩ := hrun c phase hpc
    exact h.stage c phase' hpc'
  requests := h.requests
  last := h.last
  asked := fun r hr hcheck => by
    refine ⟨hstart, fun c phase hpc => ?_⟩
    obtain ⟨phase', hpc'⟩ := hrun c phase hpc
    exact (h.asked r hr hcheck).2 c phase' hpc'
  answers := h.answers
  hash := hhash
  quiet := h.quiet

theorem client (h : s.Unchecked) (hstep : s.step u .client = some t) : t.Unchecked := by
  obtain ⟨⟨a, o⟩, ha, rfl⟩ := Option.map_eq_some_iff.1 hstep
  have hhash : ¬a.HasHash := fun hb => h.hash (Client.hasHash_of_steps (Client.steps_of_step ha) hb).1
  cases Client.steps_of_step ha with
  | start hpc =>
    exact h.perform (by decide) fun r hr hcheck => (h.asked r hr hcheck).1 hpc
  | wait hpc =>
    refine h.of_pc (by simp) (fun c phase hc => ?_) hhash
    cases hc
    exact ⟨_, hpc⟩
  | ret hpc =>
    refine h.of_pc (by simp) (fun c phase hc => ?_) hhash
    cases hc
    exact ⟨_, hpc⟩
  | @call c ack b n hpc hres =>
    -- the check is only sent from the loop over the chunks, with no other one under way
    have hno (hstage : c.stage ≠ .verify) : ∀ r ∈ s.link.requests, r.2 ≠ .check :=
      fun r hr hcheck => hstage ((h.asked r hr hcheck).2 c _ hpc)
    obtain ⟨hupdate, hlate⟩ := h.stage c _ hpc
    cases Client.leads_of_resume hres with
    | setup hc hn => exact h.perform (by simp [hn]) (hno (by simp [hc]))
    | firstChunk hc => exact h.perform (by decide) (hno (by simp [hc]))
    | nextChunk hc => exact h.perform (by decide) (hno (by simp [hc]))
    | writeCh hc _ _ =>
      refine h.perform (by simp [Call.stage]) (hno ?_)
      cases c <;> cases hc <;> simp [Call.stage]
    | pushData => exact h.perform (by simp [Call.stage]) (hno (by simp [Call.stage]))
    | verify hc => exact h.perform (by decide) (hno (by simp [hc]))
    | update _ => exact absurd (.inr hpc) h.hash
    | passUpdate => exact absurd (.inr hpc) h.hash
    | initial => exact absurd rfl hupdate
    | late hc hn => exact absurd hc hlate
  | exit hpc hres =>
    exact h.of_pc (by simp) (fun c phase hc => by cases hc) hhash

theorem finishWrite (h : s.Unchecked) (hstep : s.step u .finishWrite = some t) : t.Unchecked := by
  obtain ⟨⟨e, ack⟩, hfinish, rfl⟩ := Option.map_eq_some_iff.1 hstep
  unfold Engine.finishWrite at hfinish
  split at hfinish
  · cases hfinish
  · split_ifs at hfinish
    cases hfinish
    exact {
      stage := h.stage
      requests := h.requests
      last := h.last
      asked := h.asked
      answers := fun r hr k sha2 hk => by
        rcases Exchange.mem_answer hr with hr | hr
        · exact h.answers r hr k sha2 hk
        · cases hr.symm.trans hk
      hash := h.hash
      quiet := h.quiet }

/-- A packet that is not answered with a hash. -/
theorem of_receive (h : s.Unchecked) (hrequests : s.link.requests = (n, p) :: l)
    (hr : s.engine.receive o p = some (e, r)) (hno : ∀ k sha2, r ≠ some (.ackData k sha2)) :
    (s.answer { s.link with serving := some n, requests := l } (e, r)).Unchecked where
  stage := by simpa using h.stage
  requests := fun x hx => by
    rw [requests_answer] at hx
    exact h.requests x (hrequests ▸ List.mem_cons_of_mem _ hx)
  last := by
    rw [requests_answer]
    exact (List.pairwise_cons.1 (hrequests ▸ h.last)).2
  asked := fun x hx => by
    rw [requests_answer] at hx
    rw [client_answer]
    exact h.asked x (hrequests ▸ List.mem_cons_of_mem _ hx)
  answers := fun x hx k sha2 hk => by
    rcases mem_answer hx with hx | hx
    · exact h.answers x hx k sha2 hk
    · exact hno k sha2 (hx.trans (congrArg some hk))
  hash := by simpa using h.hash
  quiet := fun image ht => by
    rw [engine_answer] at ht
    rcases Engine.runUpdate_of_receive hr ht with ht | ⟨-, rfl⟩
    · exact h.quiet image ht
    · rcases h.requests _ (hrequests ▸ List.mem_cons_self) with hearly | hcheck
      · cases hearly
      · cases hcheck

/-- The check, answered with the hash of the image. -/
theorem checked_of_receive {k : ℤ} (h : s.Unchecked) (hrequests : s.link.requests = (n, p) :: l)
    (hr : s.engine.receive o p = some (e, some (.ackData k sha2)))
    (hwriting : s.engine.writing = none) (hwritten : s.engine.controlFile.pd.writtenStatus = true) :
    (s.answer { s.link with serving := some n, requests := l }
      (e, some (.ackData k sha2))).Checked u sha2 := by
  obtain ⟨chunk, rfl, hsha2⟩ := Engine.checked_of_receive hr
  have hcheck : (.command (.checkSign chunk) : Packet) = .check := by
    rcases h.requests _ (hrequests ▸ List.mem_cons_self) with hearly | hcheck
    · cases hearly
    · exact hcheck
  obtain rfl : chunk = ControlFileHeader.defaultChunkNo :=
    Command.checkSign.inj (Packet.command.inj hcheck)
  obtain ⟨hstart, hstage⟩ := h.asked _ (hrequests ▸ List.mem_cons_self) hcheck
  -- the check is the last packet that the client has sent
  obtain rfl : l = [] := by
    have hlast := (List.pairwise_cons.1 (hrequests ▸ h.last)).1
    exact List.eq_nil_iff_forall_not_mem.2 fun r hr => hlast r hr hcheck
  obtain ⟨⟨x, ack⟩, hx, heq⟩ := Option.map_eq_some_iff.1 hr
  cases heq
  have hhandled := Engine.handled_of_commandHandler hx
  -- the check may set a new status, but leaves the image
  have himage : x.controlFile.image = s.engine.controlFile.image := by
    have heffect := Engine.commandEffect hx
    generalize x.controlFile = cf at heffect ⊢
    cases heffect with
    | same => rfl
    | checked => exact ControlFile.image_setUpdateStatus _
  exact {
    start := hstart
    stage := fun c phase hpc => by simp [hstage c phase hpc]
    verify := fun _ _ _ _ => rfl
    requests := fun r hr => by cases hr
    first := .nil
    removing := fun n v hr => by cases hr
    answers := fun r hr k' hash hk => by
      rcases Exchange.mem_answer hr with hr | hr
      · exact absurd hk (h.answers r hr k' hash)
      · exact (Acknowledge.ackData.inj (hr.symm.trans hk)).2.symm
    hash := fun hb => absurd hb h.hash
    image := by
      rw [engine_answer, himage]
      exact ControlFile.checkChunkSHA2_whole hsha2
    written := (congrArg _ hhandled.pd).trans hwritten
    writing := hhandled.writing.trans hwriting
    scripts := fun image ht => by
      rcases Engine.runUpdate_of_receive hr ht with ht | ⟨-, hupdate⟩
      · exact absurd ht (h.quiet image)
      · cases hupdate }

end Unchecked

/-! ## After the check -/

namespace Checked

variable {e : Engine} {a b : Client} {c : Call} {o : Outcome} {n : ℕ} {p : Packet}
  {l : List (ℕ × Packet)} {r : Option Acknowledge}

theorem verified (h : s.Checked u sha2) : s.Verified u := by
  intro image ht
  obtain ⟨hsha2, himage⟩ := h.scripts _ ht
  obtain ⟨b, hb, hhash⟩ := h.image
  have heq := himage image rfl
  exact ⟨heq, b, heq.trans hb, hhash.trans hsha2⟩

theorem of_fewer (h : s.Checked u sha2) (hrequests : link.requests.Sublist s.link.requests)
    (hanswers : link.answers.Sublist s.link.answers) :
    ({ s with link := link } : Session).Checked u sha2 where
  start := h.start
  stage := h.stage
  verify := fun c phase hpc hc => List.sublist_nil.1 (h.verify c phase hpc hc ▸ hrequests)
  requests := fun r hr => h.requests r (hrequests.subset hr)
  first := h.first.sublist hrequests
  removing := fun n v hr => h.removing n v (hrequests.subset hr)
  answers := fun r hr => h.answers r (hanswers.subset hr)
  hash := h.hash
  image := h.image
  written := h.written
  writing := h.writing
  scripts := h.scripts

theorem of_scripts (h : s.Checked u sha2) (he : Scripts s.engine e) :
    ({ s with engine := e } : Session).Checked u sha2 where
  start := h.start
  stage := h.stage
  verify := h.verify
  requests := h.requests
  first := h.first
  removing := h.removing
  answers := h.answers
  hash := h.hash
  image := by
    rw [he.image]
    exact h.image
  written := (congrArg _ he.pd).trans h.written
  writing := he.writing.trans h.writing
  scripts := fun image ht => by
    rw [he.image]
    rcases he.scripts image ht with hold | ⟨rfl, hnone⟩
    · exact h.scripts image hold
    · exact ⟨(h.scripts none hnone).1, fun x hx => (Option.some.inj hx).symm⟩

theorem acknowledge (h : s.Checked u sha2) (hstep : s.step u .acknowledge = some t) :
    t.Checked u sha2 := by
  obtain ⟨⟨⟨n, ack⟩, link⟩, hreceive, rfl⟩ := Option.map_eq_some_iff.1 hstep
  obtain ⟨l, hanswers, rfl⟩ := Exchange.receive_eq_some.1 hreceive
  have hpc : (s.client.ackHandler ack).pc = s.client.pc := by cases ack <;> rfl
  exact {
    start := fun hc => h.start (hpc.symm.trans hc)
    stage := fun c phase hc => h.stage c phase (hpc.symm.trans hc)
    verify := fun c phase hc => h.verify c phase (hpc.symm.trans hc)
    requests := h.requests
    first := h.first
    removing := fun n v hr c phase hc => h.removing n v hr c phase (hpc.symm.trans hc)
    answers := fun r hr => h.answers r (hanswers ▸ List.mem_cons_of_mem _ hr)
    hash := fun hb => by
      rcases Client.hasHash_of_ackHandler hb with ⟨k, hash, hack, hbuffer⟩ | ⟨ha, hbuffer⟩
      · exact hbuffer.trans (h.answers (n, ack) (hanswers ▸ List.mem_cons_self) k hash hack)
      · exact hbuffer.trans (h.hash ha)
    image := h.image
    written := h.written
    writing := h.writing
    scripts := h.scripts }

/-- The request for the update is sent when nothing else is under way, and comes first. -/
theorem perform (h : s.Checked u sha2)
    (hc : c.stage = .update ∧ sha2 = u.shaInp ∧ s.link.requests = [] ∨ c.stage = .late) :
    ({ s with
      client := b.perform c
      link := s.link.send ((b.perform c).packet u c) } : Session).Checked u sha2 where
  start := fun hpc => by cases hpc
  stage := fun c' phase hpc => by
    cases hpc
    rcases hc with ⟨hc, -⟩ | hc <;> simp [hc]
  verify := fun c' phase hpc hverify => by
    cases hpc
    rcases hc with ⟨hc, -⟩ | hc <;> cases hc.symm.trans hverify
  requests := fun r hr => by
    rcases Exchange.mem_send hr with hr | hr
    · exact h.requests r hr
    · have hsent := Client.sentIn_packet hr
      rcases hc with ⟨hc, hsha2, -⟩ | hc
      · rw [hc] at hsent
        exact .inl ⟨hsent, hsha2⟩
      · rw [hc] at hsent
        exact .inr hsent
  first := by
    refine Exchange.pairwise_send h.first fun r hr p hp => ?_
    rcases hc with ⟨-, -, hnil⟩ | hc
    · rw [hnil] at hr
      cases hr
    · have hsent := Client.sentIn_packet hp
      rw [hc] at hsent
      rintro rfl
      cases hsent
  removing := fun n v hr c' phase hpc => by
    cases hpc
    rcases hc with ⟨hc, -, hnil⟩ | hc
    · rcases Exchange.mem_send hr with hr | hr
      · rw [hnil] at hr
        cases hr
      · have hsent := Client.sentIn_packet hr
        rw [hc] at hsent
        cases hsent
    · exact hc
  answers := h.answers
  hash := by
    rintro (⟨hpc, -⟩ | hpc)
    · cases hpc
    · cases hpc
  image := h.image
  written := h.written
  writing := h.writing
  scripts := h.scripts

theorem of_pc (h : s.Checked u sha2) (hstart : a.pc ≠ .start)
    (hrun : ∀ c phase, a.pc = .running c phase → ∃ phase', s.client.pc = .running c phase')
    (hhash : a.HasHash → a.sha256Buffer = sha2) : ({ s with client := a } : Session).Checked u sha2 where
  start := hstart
  stage := fun c phase hpc => by
    obtain ⟨phase', hpc'⟩ := hrun c phase hpc
    exact h.stage c phase' hpc'
  verify := fun c phase hpc => by
    obtain ⟨phase', hpc'⟩ := hrun c phase hpc
    exact h.verify c phase' hpc'
  requests := h.requests
  first := h.first
  removing := fun n v hr c phase hpc => by
    obtain ⟨phase', hpc'⟩ := hrun c phase hpc
    exact h.removing n v hr c phase' hpc'
  answers := h.answers
  hash := hhash
  image := h.image
  written := h.written
  writing := h.writing
  scripts := h.scripts

theorem client (h : s.Checked u sha2) (hstep : s.step u .client = some t) : t.Checked u sha2 := by
  obtain ⟨⟨a, o⟩, ha, rfl⟩ := Option.map_eq_some_iff.1 hstep
  have hhash : a.HasHash → a.sha256Buffer = sha2 := fun hb => by
    obtain ⟨hs, hbuffer⟩ := Client.hasHash_of_steps (Client.steps_of_step ha) hb
    exact hbuffer.trans (h.hash hs)
  cases Client.steps_of_step ha with
  | start hpc => exact absurd hpc h.start
  | wait hpc =>
    refine h.of_pc (by simp) (fun c phase hc => ?_) hhash
    cases hc
    exact ⟨_, hpc⟩
  | ret hpc =>
    refine h.of_pc (by simp) (fun c phase hc => ?_) hhash
    cases hc
    exact ⟨_, hpc⟩
  | @call c ack b n hpc hres =>
    obtain ⟨hsetup, hchunks⟩ := h.stage c _ hpc
    cases Client.leads_of_resume hres with
    | setup hc hn => exact absurd hc hsetup
    | firstChunk hc => exact absurd hc hsetup
    | nextChunk hc => exact absurd hc hchunks
    | writeCh hc _ _ => cases c <;> cases hc <;> exact absurd rfl hchunks
    | pushData => exact absurd rfl hchunks
    | verify hc => exact absurd hc hchunks
    | update hsha =>
      exact h.perform (.inl ⟨rfl, (h.hash (.inr hpc)).symm.trans hsha, h.verify _ _ hpc rfl⟩)
    | passUpdate => exact h.perform (.inr rfl)
    | initial => exact h.perform (.inr rfl)
    | late hc hn => exact h.perform (.inr hn)
  | exit hpc hres =>
    exact h.of_pc (by simp) (fun c phase hc => by cases hc) hhash

theorem receive (h : s.Checked u sha2) (hsafe : safe s (.receive o) = true)
    (hrequests : s.link.requests = (n, p) :: l) (hr : s.engine.receive o p = some (e, r)) :
    (s.answer { s.link with serving := some n, requests := l } (e, r)).Checked u sha2 ∨
      (s.answer { s.link with serving := some n, requests := l } (e, r)).Removed := by
  have hpacket := h.requests _ (hrequests ▸ List.mem_cons_self)
  have htail : ∀ x ∈ l, x ∈ s.link.requests := fun x hx => hrequests ▸ List.mem_cons_of_mem _ hx
  obtain ⟨hfirst, hrest⟩ := List.pairwise_cons.1 (hrequests ▸ h.first)
  cases p with
  | sendData buf => rcases hpacket with ⟨hpacket, -⟩ | hpacket <;> cases hpacket
  | command c =>
    obtain ⟨⟨x, ack⟩, hx, heq⟩ := Option.map_eq_some_iff.1 hr
    cases heq
    have hhandled := Engine.handled_of_commandHandler hx
    -- of the packets that may still be under way, only the removal changes files
    have heffect : x.controlFile = s.engine.controlFile ∨
        ∃ v, c = .userRemove v ∧ s.engine.processor.state = .ready := by
      have heffect := Engine.commandEffect hx
      generalize x.controlFile = cf at heffect ⊢
      cases heffect with
      | same => exact .inl rfl
      | removed hready => exact .inr ⟨_, rfl, hready⟩
      | _ => rcases hpacket with ⟨hpacket, -⟩ | hpacket <;> cases hpacket
    rcases heffect with hcf | ⟨v, rfl, hready⟩
    · refine .inl {
        start := h.start
        stage := h.stage
        verify := fun c phase hpc hc => ?_
        requests := fun r hr => h.requests r (htail r hr)
        first := hrest
        removing := fun n v hr => h.removing n v (htail _ hr)
        answers := fun r hr' k hash hk => ?_
        hash := h.hash
        image := by rw [engine_answer, hcf]; exact h.image
        written := (congrArg _ hhandled.pd).trans h.written
        writing := hhandled.writing.trans h.writing
        scripts := fun image ht => ?_ }
      · rw [h.verify c phase hpc hc] at hrequests
        cases hrequests
      · rcases Exchange.mem_answer hr' with hold | hnew
        · exact h.answers r hold k hash hk
        · obtain rfl := hnew.symm.trans hk
          obtain ⟨chunk, hcheck, -⟩ := Engine.checked_of_receive hr
          rw [hcheck] at hpacket
          rcases hpacket with ⟨hpacket, -⟩ | hpacket <;> cases hpacket
      · rw [engine_answer] at ht ⊢
        rw [hcf]
        rcases Engine.runUpdate_of_receive hr ht with hold | ⟨rfl, hupdate⟩
        · exact h.scripts image hold
        · rw [hupdate] at hpacket
          rcases hpacket with ⟨-, hsha2⟩ | hpacket
          · exact ⟨hsha2, fun x hx => by cases hx⟩
          · cases hpacket
    -- a removal that is safe finds no update that has been asked for
    · have hquiet : s.Quiet := by
        intro image ht
        simp only [safe, hrequests, hready, ne_eq, not_true_eq_false, decide_false, Bool.false_or,
          Bool.not_eq_true', List.any_eq_false] at hsafe
        exact hsafe _ ht rfl
      refine .inr ⟨h.start, h.removing n v (hrequests ▸ List.mem_cons_self), hfirst, fun image ht => ?_⟩
      rw [engine_answer] at ht
      rcases Engine.runUpdate_of_receive hr ht with hold | ⟨-, hupdate⟩
      · exact hquiet image hold
      · cases hupdate

end Checked

/-! ## After the removal -/

namespace Removed

variable {e : Engine} {o : Outcome} {n : ℕ} {p : Packet} {l : List (ℕ × Packet)}
  {r : Option Acknowledge}

theorem of_fewer (h : s.Removed) (hrequests : link.requests.Sublist s.link.requests) :
    ({ s with link := link } : Session).Removed :=
  ⟨h.start, h.stage, fun r hr => h.requests r (hrequests.subset hr), h.quiet⟩

theorem of_engine (h : s.Removed) (hquiet : ({ s with engine := e } : Session).Quiet) :
    ({ s with engine := e } : Session).Removed :=
  ⟨h.start, h.stage, h.requests, hquiet⟩

theorem acknowledge (h : s.Removed) (hstep : s.step u .acknowledge = some t) : t.Removed := by
  obtain ⟨⟨⟨n, ack⟩, link⟩, hreceive, rfl⟩ := Option.map_eq_some_iff.1 hstep
  obtain ⟨l, hanswers, rfl⟩ := Exchange.receive_eq_some.1 hreceive
  have hpc : (s.client.ackHandler ack).pc = s.client.pc := by cases ack <;> rfl
  exact ⟨fun hc => h.start (hpc.symm.trans hc), fun c phase hc => h.stage c phase (hpc.symm.trans hc),
    h.requests, h.quiet⟩

theorem of_pc {a : Client} (h : s.Removed) (hstart : a.pc ≠ .start)
    (hrun : ∀ c phase, a.pc = .running c phase → ∃ phase', s.client.pc = .running c phase') :
    ({ s with client := a } : Session).Removed := by
  refine ⟨hstart, fun c phase hpc => ?_, h.requests, h.quiet⟩
  obtain ⟨phase', hpc'⟩ := hrun c phase hpc
  exact h.stage c phase' hpc'

theorem client (h : s.Removed) (hstep : s.step u .client = some t) : t.Removed := by
  obtain ⟨⟨a, o⟩, ha, rfl⟩ := Option.map_eq_some_iff.1 hstep
  cases Client.steps_of_step ha with
  | start hpc => exact absurd hpc h.start
  | wait hpc =>
    refine h.of_pc (by simp) fun c phase hc => ?_
    cases hc
    exact ⟨_, hpc⟩
  | ret hpc =>
    refine h.of_pc (by simp) fun c phase hc => ?_
    cases hc
    exact ⟨_, hpc⟩
  | @call c ack b n hpc hres =>
    have hlate := h.stage c _ hpc
    have hn : n.stage = .late := by
      cases Client.leads_of_resume hres with
      | late hc hn => exact hn
      | initial => rfl
      | passUpdate => rfl
      | setup hc hn => cases hlate.symm.trans hc
      | firstChunk hc => cases hlate.symm.trans hc
      | nextChunk hc => cases hlate.symm.trans hc
      | writeCh hc _ _ => cases c <;> cases hc <;> cases hlate
      | pushData => cases hlate
      | verify hc => cases hlate.symm.trans hc
      | update _ => cases hlate
    refine ⟨fun hpc => (by cases hpc), fun c' phase hpc => ?_, fun r hr => ?_, h.quiet⟩
    · cases hpc
      exact hn
    · rcases Exchange.mem_send hr with hr | hr
      · exact h.requests r hr
      · have hsent := Client.sentIn_packet hr
        rw [hn] at hsent
        rintro hupdate
        rw [hupdate] at hsent
        cases hsent
  | exit hpc hres => exact h.of_pc (by simp) fun c phase hc => by cases hc

theorem receive (h : s.Removed) (hrequests : s.link.requests = (n, p) :: l)
    (hr : s.engine.receive o p = some (e, r)) :
    (s.answer { s.link with serving := some n, requests := l } (e, r)).Removed where
  start := by simpa using h.start
  stage := by simpa using h.stage
  requests := fun x hx => by
    rw [requests_answer] at hx
    exact h.requests x (hrequests ▸ List.mem_cons_of_mem _ hx)
  quiet := fun image ht => by
    rw [engine_answer] at ht
    rcases Engine.runUpdate_of_receive hr ht with ht | ⟨-, hupdate⟩
    · exact h.quiet image ht
    · exact h.requests _ (hrequests ▸ List.mem_cons_self) hupdate

theorem finishWrite (h : s.Removed) (hstep : s.step u .finishWrite = some t) : t.Removed := by
  obtain ⟨⟨e, ack⟩, hfinish, rfl⟩ := Option.map_eq_some_iff.1 hstep
  unfold Engine.finishWrite at hfinish
  split at hfinish
  · cases hfinish
  · split_ifs at hfinish
    cases hfinish
    exact ⟨h.start, h.stage, h.requests, h.quiet⟩

end Removed

/-! ## Runs -/

/-- What holds in the runs whose steps are safe. -/
structure Guarded (u : Upload) (s : Session) : Prop where
  writing : s.link.serving = none → s.engine.writing = none
  part : s.Unchecked ∨ (∃ sha2, s.Checked u sha2) ∨ s.Removed

namespace Guarded

variable {e : Engine} {a : Action} {l : List Action}

theorem of_initial (h : s.Initial) : s.Guarded u :=
  ⟨fun _ => h.writing, .inl (.of_initial h)⟩

theorem verified (h : s.Guarded u) : s.Verified u := by
  rcases h.part with h | ⟨sha2, h⟩ | h
  · exact fun image ht => absurd ht (h.quiet _)
  · exact h.verified
  · exact fun image ht => absurd ht (h.quiet _)

theorem client (h : s.Guarded u) (hstep : s.step u .client = some t) : t.Guarded u := by
  constructor
  · obtain ⟨⟨a, o⟩, ha, rfl⟩ := Option.map_eq_some_iff.1 hstep
    cases o <;> exact h.writing
  · rcases h.part with h | ⟨sha2, h⟩ | h
    · exact .inl (h.client hstep)
    · exact .inr (.inl ⟨sha2, h.client hstep⟩)
    · exact .inr (.inr (h.client hstep))

theorem acknowledge (h : s.Guarded u) (hstep : s.step u .acknowledge = some t) : t.Guarded u := by
  constructor
  · obtain ⟨⟨⟨n, ack⟩, link⟩, hreceive, rfl⟩ := Option.map_eq_some_iff.1 hstep
    obtain ⟨l, -, rfl⟩ := Exchange.receive_eq_some.1 hreceive
    exact h.writing
  · rcases h.part with h | ⟨sha2, h⟩ | h
    · exact .inl (h.acknowledge hstep)
    · exact .inr (.inl ⟨sha2, h.acknowledge hstep⟩)
    · exact .inr (.inr (h.acknowledge hstep))

theorem receive {o : Outcome} (h : s.Guarded u) (hsafe : safe s (.receive o) = true)
    (hstep : s.step u (.receive o) = some t) : t.Guarded u := by
  obtain ⟨⟨p, link⟩, htake, hstep⟩ := Option.bind_eq_some_iff.1 hstep
  obtain ⟨n, l, hserving, hrequests, rfl⟩ := Exchange.take_eq_some.1 htake
  obtain ⟨⟨e, r⟩, hr, rfl⟩ := Option.map_eq_some_iff.1 hstep
  have hwriting := h.writing hserving
  constructor
  · cases r with
    | none => exact fun hnone => by cases hnone
    | some ack => exact fun _ => Engine.writing_of_receive hwriting hr
  · rcases h.part with h | ⟨sha2, h⟩ | h
    · by_cases hhash : ∃ k sha2, r = some (.ackData k sha2)
      · obtain ⟨k, sha2, rfl⟩ := hhash
        obtain ⟨chunk, rfl, -⟩ := Engine.checked_of_receive hr
        simp only [safe, hrequests] at hsafe
        exact .inr (.inl ⟨sha2, h.checked_of_receive hrequests hr hwriting hsafe⟩)
      · exact .inl (h.of_receive hrequests hr fun k sha2 hk => hhash ⟨k, sha2, hk⟩)
    · exact .inr ((h.receive hsafe hrequests hr).imp_left fun h => ⟨sha2, h⟩)
    · exact .inr (.inr (h.receive hrequests hr))

theorem finishWrite (h : s.Guarded u) (hstep : s.step u .finishWrite = some t) : t.Guarded u := by
  obtain ⟨⟨e, ack⟩, hfinish, ht⟩ := Option.map_eq_some_iff.1 hstep
  obtain ⟨x, hx, hfree⟩ := Engine.writing_of_finishWrite hfinish
  constructor
  · exact fun _ => ht ▸ hfree
  · rcases h.part with h | ⟨sha2, h⟩ | h
    · exact .inl (h.finishWrite hstep)
    · cases h.writing.symm.trans hx
    · exact .inr (.inr (h.finishWrite hstep))

theorem writer {fault : Option WriteFault} (h : s.Guarded u)
    (hstep : s.step u (.writer fault) = some t) : t.Guarded u := by
  obtain ⟨e, he, rfl⟩ := Option.map_eq_some_iff.1 hstep
  unfold Engine.writerStep at he
  split_ifs at he with hwritten
  cases he
  refine ⟨h.writing, ?_⟩
  rcases h.part with h | ⟨sha2, h⟩ | h
  · exact .inl (h.of_engine h.quiet)
  · exact absurd h.written hwritten
  · exact .inr (.inr (h.of_engine h.quiet))

/-- A step of a script. -/
theorem of_scripts (h : s.Guarded u) (he : Scripts s.engine e) :
    ({ s with engine := e } : Session).Guarded u := by
  have hquiet (hs : s.Quiet) : ({ s with engine := e } : Session).Quiet := by
    intro image ht
    rcases he.scripts image ht with hold | ⟨-, hold⟩
    · exact hs image hold
    · exact hs none hold
  refine ⟨fun hserving => he.writing.trans (h.writing hserving), ?_⟩
  rcases h.part with h | ⟨sha2, h⟩ | h
  · exact .inl (h.of_engine (hquiet h.quiet))
  · exact .inr (.inl ⟨sha2, h.of_scripts he⟩)
  · exact .inr (.inr (h.of_engine (hquiet h.quiet)))

/-- A packet is lost. -/
theorem of_fewer (h : s.Guarded u) (hserving : link.serving = s.link.serving)
    (hrequests : link.requests.Sublist s.link.requests)
    (hanswers : link.answers.Sublist s.link.answers) :
    ({ s with link := link } : Session).Guarded u := by
  refine ⟨fun hnone => h.writing (hserving.symm.trans hnone), ?_⟩
  rcases h.part with h | ⟨sha2, h⟩ | h
  · exact .inl (h.of_fewer hrequests hanswers)
  · exact .inr (.inl ⟨sha2, h.of_fewer hrequests hanswers⟩)
  · exact .inr (.inr (h.of_fewer hrequests))

theorem step (h : s.Guarded u) (hsafe : safe s a = true) (hstep : s.step u a = some t) :
    t.Guarded u := by
  cases a with
  | client => exact h.client hstep
  | acknowledge => exact h.acknowledge hstep
  | receive o => exact h.receive hsafe hstep
  | finishWrite => exact h.finishWrite hstep
  | writer fault => exact h.writer hstep
  | script i =>
    obtain ⟨e, rfl, he⟩ := scripts_of_script hstep
    exact h.of_scripts he
  | scriptStatus i v done =>
    obtain ⟨e, rfl, he⟩ := scripts_of_scriptStatus hstep
    exact h.of_scripts he
  | losePacket i =>
    cases hstep
    exact h.of_fewer rfl (List.eraseIdx_sublist ..) (.refl _)
  | loseAcknowledge i =>
    cases hstep
    exact h.of_fewer rfl (.refl _) (List.eraseIdx_sublist ..)

end Guarded

/-- In every run whose steps are safe, an update script finds an image with the hash that the client
    has been given, and the image stays as it is as long as the script runs. -/
theorem verified_of_run {l : List Action} (h : s.Initial)
    (hC : Transition.Meets (Session.step u) (fun s a => safe s a = true) s l)
    (ht : Transition.run (Session.step u) s l = some t) : t.Verified u :=
  (Transition.inv_of_meets (I := Guarded u) (fun _ _ _ hs hsafe hstep => hs.step hsafe hstep)
    (.of_initial h) hC ht).verified

/-! ## Examples -/

/-- The file of two chunks, with its hash. -/
def hashed : Upload where
  file := [1, 2]
  version := "1"
  sha2code := "a12871fee210fb8619291eaea194581cbd2531e4b23759d225f6806923f63222".toList
  chunkSize := 1
  flag := ""
  chunkSize_pos := Nat.one_pos
  chunkSize_le := one_le_maxChunkSize

/-- The upload, the check, and the start of the script. -/
theorem verified_of_run_hashed : ∃ t,
    Transition.run (step hashed) fresh
      (.client :: lost ++ inTime ++ inTime ++ inTime ++ inTime ++ inTime ++ .writer none :: inTime ++
        inTime ++ .writer none :: inTime ++ [receiveOk, .script 0]) = some t ∧
    t.engine.processor.scripts = [.runUpdate (some (some [1, 2]))] ∧ t.Verified hashed := by
  have hrun : (Transition.run (step hashed) fresh
      (.client :: lost ++ inTime ++ inTime ++ inTime ++ inTime ++ inTime ++ .writer none :: inTime ++
        inTime ++ .writer none :: inTime ++ [receiveOk, .script 0])).map
      (fun t => t.engine.processor.scripts) = some [.runUpdate (some (some [1, 2]))] := by
    decide +kernel
  obtain ⟨t, ht, hscripts⟩ := Option.map_eq_some_iff.1 hrun
  exact ⟨t, ht, hscripts, verified_of_run fresh_initial (by decide +kernel) ht⟩

/-- An engine with the image of an upload before, whose control files are gone. -/
def remains : Session where
  client := .fresh
  engine := fresh.engine.withControlFile { fresh.engine.controlFile with
    fs := ⟨fun loc => if loc = .download then some .empty
      else if loc = .version "1" then some (VersionDir.empty.setFile .none (some [1, 2])) else none,
      none, .download⟩ }
  link := ⟨0, [], none, []⟩

theorem remains_initial : remains.Initial :=
  ⟨rfl, ⟨rfl, rfl, rfl⟩, rfl, List.forall_mem_nil _, rfl⟩

/-- Acknowledgements that come late lead to the first chunk being sent in the place of the second one.
    It has still to be stored when the image is hashed, and is stored while the script runs. -/
theorem verified_fails_of_pending : ¬ ∀ (u : Upload) (s t : Session) (l : List Action),
    s.Initial → Transition.run (step u) s l = some t → t.Verified u := by
  intro hall
  have hrun : (Transition.run (step hashed) remains
      (.client :: lost ++ inTime ++ inTime ++ inTime ++ late ++ inTime ++ inTime ++ late ++ inTime ++
        inTime ++ inTime ++ .writer none :: inTime ++ inTime ++ .acknowledge :: .acknowledge :: lost ++
        inTime ++ inTime ++ [receiveOk, .script 0, .writer none])).map
      (fun t => (t.engine.processor.scripts, t.engine.controlFile.image)) =
        some ([.runUpdate (some (some [1, 2]))], some [1, 1]) := by
    decide +kernel
  obtain ⟨t, ht, hend⟩ := Option.map_eq_some_iff.1 hrun
  obtain ⟨hscripts, himage⟩ := Prod.mk.inj hend
  have hsame := (hall _ _ t _ remains_initial ht (some [1, 2]) (by rw [hscripts]; simp)).1
  rw [himage] at hsame
  exact absurd hsame (by decide)

end Session

end EW8.Update
