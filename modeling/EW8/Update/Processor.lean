import EW8.Update.ControlFile

/-!
# The engine of the updater

The device's side of an update, from one logical packet to its acknowledgement: the commands
of `CANProcessor`, the threads that run its scripts, and `CommandHandler` and `DataHandler`,
by which the engine answers a packet (`Engine.receive`). A data packet may have to wait until
the chunk before it is stored (`Engine.finishWrite`). Meanwhile other threads go on:
`Engine.writerStep`, that stores a chunk, and `CANProcessor.scriptStep`.

What a command leaves as it is, is said by `Engine.handled_of_commandHandler`.
-/

namespace EW8.Update

/-! ## Packets -/

/-- The packets with a command, `CAN_COMMANDS`, from the client to the engine. -/
inductive Command
  | setVersion (version : String)
  | setInfo (fileSize : UInt32) (chunkSize : UInt16)
  | getNumWrCh
  | writeCh (size : UInt16)
  | checkSign (chunk : ℤ)
  | userUpdate
  | userRemove (version : String)
  | userGetVer
  | getUpdStatus
  | forceRollback
  /-- A type that is none of these. -/
  | unknown
  deriving DecidableEq, Repr

/-- The commands that lay out an upload anew. -/
def Command.isSetup : Command → Bool
  | setVersion _ => true
  | setInfo .. => true
  | _ => false

/-- The packets from the client to the engine. -/
inductive Packet
  | command (c : Command)
  /-- `CAN_SEND_DATA`. -/
  | sendData (data : List UInt8)
  deriving DecidableEq, Repr

/-- The packets from the engine to the client, `CAN_ACKNOWLEDGES`. -/
inductive Acknowledge
  | ackOk
  | nackGen
  | nackNres
  | nackParam
  | nackSig
  | nackVer
  | ackExists
  | ackWithVer (version : String)
  | ackChunk (chunk : ℤ)
  | nackCom
  | ackData (chunk : ℤ) (sha256 : SHA2Store)
  | ackUpdateStatus (status : UpdateStatus)
  deriving DecidableEq

/-! ## Commands -/

/-- `CANProcessorState`. -/
inductive CANProcessorState
  | ready
  | downloading
  | perror
  | updating
  | rollingback
  deriving DecidableEq, Repr

/-- `CANProcessorStatus`. -/
inductive CANProcessorStatus
  | ok
  | dirExists
  | activeTransmission
  | needVersion
  | fileWriteError
  | sha2Error
  | contentPending
  | scriptError
  | needToWait
  deriving DecidableEq, Repr

/-- A thread that runs a script. -/
inductive ScriptThread
  /-- `RunUpdate`: with the image at the start of the script, once it is running. -/
  | runUpdate (image : Option (Option (List UInt8)))
  | runRollback
  | runPowerOn
  deriving DecidableEq, Repr

/-- `CANProcessor`, and its threads. -/
structure CANProcessor where
  controlFile : ControlFile
  state : CANProcessorState
  scripts : List ScriptThread

namespace CANProcessor

variable (p : CANProcessor)

/-- `SetVersion`. -/
def setVersion (fails : FsCall → Bool) (v : String) : CANProcessor × CANProcessorStatus :=
  if p.state ≠ .ready then (p, .activeTransmission)
  else
    match p.controlFile.checkVersion fails v with
    | (cf, .ok) =>
      match cf.writeExistingVersion fails v with
      | (cf, .ok) => ({ p with controlFile := cf }, .dirExists)
      | (cf, _) => ({ p with controlFile := cf }, .fileWriteError)
    | (cf, _) =>
      match cf.writeNewVersion fails v with
      | (cf, .ok) => ({ p with controlFile := cf }, .ok)
      | (cf, _) => ({ p with controlFile := cf }, .fileWriteError)

/-- `SetInfo`; `none` where it divides by zero. -/
def setInfo (size chunkSize : ℕ) : Option (CANProcessor × CANProcessorStatus) :=
  if p.state ≠ .ready then some (p, .activeTransmission)
  else
    (p.controlFile.initControlFile size chunkSize).map fun
      | (cf, .ok) => ({ p with controlFile := cf.setUpdateStatus .uploading }, .ok)
      | (cf, _) => ({ p with controlFile := cf }, .fileWriteError)

/-- `GetNextChunk`: the chunk that it sets, and its status. -/
def getNextChunk : ℤ × CANProcessorStatus :=
  let chunk := p.controlFile.header.next
  if p.state = .ready then
    (if chunk ≥ p.controlFile.header.chunks then ControlFileHeader.defaultChunkNo else chunk, .ok)
  else (chunk, .needVersion)

/-- `CheckChunkSize`. -/
def checkChunkSize (size : ℕ) : Bool :=
  let header := p.controlFile.header
  let chSize := if header.next + 1 ≥ header.chunks then header.lastChunkSize else header.chunkSize
  let chSize := if chSize = 0 then header.chunkSize else chSize
  chSize = size

/-- `CheckChunkSHA2`. -/
def checkChunkSHA2 (chunk : ℤ) : CANProcessor × CANProcessorStatus × Option SHA2Store :=
  match p.controlFile.checkChunkSHA2 chunk with
  | (cf, .ok, sha2) => ({ p with controlFile := cf }, .ok, sha2)
  | (cf, .sha2Error, sha2) => ({ p with controlFile := cf }, .sha2Error, sha2)
  | (cf, _, sha2) => ({ p with controlFile := cf }, .fileWriteError, sha2)

/-- `RunScript`; `created` is the outcome of `pthread_create`. -/
def runScript (created : Bool) (t : ScriptThread) : CANProcessor :=
  if created then { p with scripts := p.scripts ++ [t] } else p

/-- `UpdateContent`. -/
def updateContent (created : Bool) : CANProcessor × CANProcessorStatus :=
  if p.state = .ready then
    ({ p with state := .updating }.runScript created (.runUpdate none), .contentPending)
  else (p, .needToWait)

/-- `ForceRollBack`. -/
def forceRollBack (created : Bool) : CANProcessor × CANProcessorStatus :=
  if p.state = .ready then
    ({ p with state := .rollingback }.runScript created .runRollback, .contentPending)
  else (p, .needToWait)

/-- `RemoveContent`. -/
def removeContent (v : String) : CANProcessor × CANProcessorStatus :=
  if p.state ≠ .ready then (p, .needToWait)
  else
    match p.controlFile.removeContent v with
    | (cf, .ok) => ({ p with controlFile := cf }, .ok)
    | (cf, _) => ({ p with controlFile := cf }, .needVersion)

/-- `GetContentVersion`: the version, where there is one. -/
def getContentVersion : Option String :=
  if p.controlFile.version.length < 1 then none else some p.controlFile.version

/-! ## Scripts -/

/-- The `i`-th thread goes on: `RunUpdate` starts its script, or a script ends. -/
def scriptStep (i : ℕ) : Option CANProcessor :=
  match p.scripts[i]? with
  | none => none
  | some (.runUpdate none) =>
    let cf := p.controlFile.setUpdateStatus .onExecution
    some { p with controlFile := cf, scripts := p.scripts.set i (.runUpdate (some cf.image)) }
  | some (.runUpdate (some _)) => some { p with state := .ready, scripts := p.scripts.eraseIdx i }
  | some .runRollback =>
    some { p with
      controlFile := p.controlFile.setUpdateStatus .rollback
      state := .ready
      scripts := p.scripts.eraseIdx i }
  | some .runPowerOn => some { p with state := .ready, scripts := p.scripts.eraseIdx i }

/-- The update script that the `i`-th thread runs writes the status of the version `v`, as
    `update.sh` does at its end, and `updater_run.sh` after an error. -/
def scriptStatus (i : ℕ) (v : String) (done : Bool) : Option CANProcessor :=
  match p.scripts[i]? with
  | some (.runUpdate (some _)) =>
    let text := if done then "done\n".toList else "error".toList
    let fs := p.controlFile.fs
    let dirs := Function.update fs.dirs (.version v)
      ((fs.dirs (.version v)).map fun d => { d with status := some text })
    some { p with controlFile := { p.controlFile with fs := { fs with dirs := dirs } } }
  | _ => none

/-! ## What the commands leave as it is -/

variable {p} {p' : CANProcessor} {fails : FsCall → Bool} {v : String} {chunk : ℤ} {created : Bool}

theorem pd_setVersion (p : CANProcessor) (fails : FsCall → Bool) (v : String) :
    (p.setVersion fails v).1.controlFile.pd = p.controlFile.pd := by
  have hcheck := p.controlFile.pd_checkVersion fails v
  unfold setVersion
  split
  · rfl
  · split
    · rename_i cf heq
      rw [heq] at hcheck
      have hwrite := cf.pd_writeVersion fails v
      unfold ControlFile.writeExistingVersion
      split
      all_goals
        rename_i heq'
        rw [heq'] at hwrite
        exact hwrite.trans hcheck
    · rename_i cf err hne heq
      rw [heq] at hcheck
      have hwrite := cf.pd_writeNewVersion fails v
      split
      all_goals
        rename_i heq'
        rw [heq'] at hwrite
        exact hwrite.trans hcheck

theorem pd_setInfo {size chunkSize : ℕ} {r : CANProcessor × CANProcessorStatus}
    (h : p.setInfo size chunkSize = some r) : r.1.controlFile.pd = p.controlFile.pd := by
  unfold setInfo at h
  split_ifs at h
  · rw [← Option.some.inj h]
  · obtain ⟨x, hx, rfl⟩ := Option.map_eq_some_iff.1 h
    have hpd := ControlFile.pd_initControlFile hx
    rcases x with ⟨cf, err⟩
    cases err <;> exact hpd

theorem removeContent_fst (p : CANProcessor) (v : String) :
    (p.removeContent v).1.controlFile.pd = p.controlFile.pd ∧
    (p.removeContent v).1.controlFile.header = p.controlFile.header := by
  have h := p.controlFile.removeContent_fst v
  unfold removeContent
  split
  · exact ⟨rfl, rfl⟩
  · split
    all_goals
      rename_i heq
      rw [heq] at h
      exact h

/-- The check of a chunk, or of the image, writes nothing but the status. -/
theorem checkChunkSHA2_fst (p : CANProcessor) (chunk : ℤ) : (p.checkChunkSHA2 chunk).1 = p ∨
    (p.checkChunkSHA2 chunk).1 =
      { p with controlFile := p.controlFile.setUpdateStatus .uploaded } := by
  have h := p.controlFile.checkChunkSHA2_fst chunk
  unfold checkChunkSHA2
  split
  all_goals
    rename_i heq
    rw [heq] at h
    rcases h with rfl | rfl
    · exact .inl rfl
    · exact .inr rfl

/-- The number of the next chunk, or that there is none. -/
theorem getNextChunk_fst : p.getNextChunk.1 = ControlFileHeader.defaultChunkNo ∨
    p.getNextChunk.1 = p.controlFile.header.next := by
  unfold getNextChunk
  dsimp only
  split_ifs
  · exact .inl rfl
  · exact .inr rfl
  · exact .inr rfl

@[simp] theorem controlFile_runScript (t : ScriptThread) :
    (p.runScript created t).controlFile = p.controlFile := by
  unfold runScript
  split <;> rfl

theorem controlFile_updateContent (p : CANProcessor) (created : Bool) :
    (p.updateContent created).1.controlFile = p.controlFile := by
  unfold updateContent
  split <;> simp

theorem controlFile_forceRollBack (p : CANProcessor) (created : Bool) :
    (p.forceRollBack created).1.controlFile = p.controlFile := by
  unfold forceRollBack
  split <;> simp

theorem scriptStep_controlFile {i : ℕ} (h : p.scriptStep i = some p') :
    p'.controlFile.header = p.controlFile.header ∧ p'.controlFile.pd = p.controlFile.pd := by
  unfold scriptStep at h
  split at h
  · cases h
  all_goals
    obtain rfl := Option.some.inj h
    exact ⟨rfl, rfl⟩

theorem scriptStatus_controlFile {i : ℕ} {done : Bool} (h : p.scriptStatus i v done = some p') :
    p'.controlFile.header = p.controlFile.header ∧ p'.controlFile.pd = p.controlFile.pd := by
  unfold scriptStatus at h
  split at h
  · obtain rfl := Option.some.inj h
    exact ⟨rfl, rfl⟩
  · cases h

end CANProcessor

/-! ## The engine -/

/-- The outcomes, in the handling of a command, that are not up to the engine. -/
structure Outcome where
  fails : FsCall → Bool
  /-- `pthread_create` succeeds. -/
  created : Bool
  /-- The chunk number in `CAN_ACK_DATA`, that is whatever the buffer holds. -/
  stale : ℤ

/-- `CANUpdateEngine` above the level of frames. -/
structure Engine where
  processor : CANProcessor
  /-- The call of `WriteFile` that waits for the thread: the chunk and its bytes. -/
  writing : Option (ℤ × List UInt8)

namespace Engine

variable (e : Engine)

/-- The control file. -/
def controlFile : ControlFile := e.processor.controlFile

/-- The engine with another state of the processor. -/
def withProcessor (p : CANProcessor) : Engine := { e with processor := p }

/-- The engine with another control file. -/
def withControlFile (cf : ControlFile) : Engine :=
  { e with processor := { e.processor with controlFile := cf } }

/-- `CommandHandler`; `none` where the process is killed by a division by zero. -/
def commandHandler (o : Outcome) : Command → Option (Engine × Acknowledge)
  | .setVersion v =>
    match e.processor.setVersion o.fails v with
    | (p, .ok) => some (e.withProcessor p, .ackOk)
    | (p, .dirExists) => some (e.withProcessor p, .ackExists)
    | (p, _) => some (e.withProcessor p, .nackParam)
  | .setInfo fileSize chunkSize =>
    (e.processor.setInfo fileSize.toNat chunkSize.toNat).map fun
      | (p, .ok) => (e.withProcessor p, .ackOk)
      | (p, _) => (e.withProcessor p, .nackParam)
  | .getNumWrCh =>
    match e.processor.getNextChunk with
    | (_, .needVersion) => some (e, .nackVer)
    | (chunk, _) => some (e, .ackChunk chunk)
  | .writeCh size =>
    if e.processor.checkChunkSize size.toNat then some (e, .ackOk) else some (e, .nackCom)
  | .checkSign chunk =>
    match e.processor.checkChunkSHA2 chunk with
    | (p, .ok, some sha2) => some (e.withProcessor p, .ackData o.stale sha2)
    | (p, _) => some (e.withProcessor p, .nackSig)
  | .userUpdate =>
    match e.processor.updateContent o.created with
    | (p, .contentPending) => some (e.withProcessor p, .ackOk)
    | (p, _) => some (e.withProcessor p, .nackGen)
  | .userRemove v =>
    match e.processor.removeContent v with
    | (p, .ok) => some (e.withProcessor p, .ackOk)
    | (p, _) => some (e.withProcessor p, .nackNres)
  | .userGetVer =>
    match e.processor.getContentVersion with
    | none => some (e, .nackNres)
    | some v => some (e, .ackWithVer v)
  | .getUpdStatus => some (e, .ackUpdateStatus e.controlFile.getUpdateStatus)
  | .forceRollback =>
    match e.processor.forceRollBack o.created with
    | (p, .contentPending) => some (e.withProcessor p, .ackOk)
    | (p, _) => some (e.withProcessor p, .nackGen)
  | .unknown => some (e, .nackGen)

/-- The acknowledgement of a data packet that `WriteFile` has taken. -/
def ackNextChunk : Acknowledge := .ackChunk e.processor.getNextChunk.1

/-- `WriteFile` hands over the chunk. -/
def handOver (chunk : ℤ) (buf : List UInt8) : Engine :=
  { e.withControlFile (e.controlFile.handOver chunk buf) with writing := none }

/-- `DataHandler` and the acknowledgement after it, if `WriteFile` need not wait. -/
def dataHandler (buf : List UInt8) : Engine × Option Acknowledge :=
  match e.controlFile.writeFile with
  | (cf, .returned .ok) => (e.withControlFile cf, some (e.withControlFile cf).ackNextChunk)
  | (cf, .returned _) => (e.withControlFile cf, some .nackGen)
  | (_, .waits chunk) =>
    if e.controlFile.pd.writtenStatus then
      (e.handOver chunk buf, some (e.handOver chunk buf).ackNextChunk)
    else ({ e with writing := some (chunk, buf) }, none)

/-- A packet arrives. -/
def receive (o : Outcome) : Packet → Option (Engine × Option Acknowledge)
  | .command c => (e.commandHandler o c).map fun r => (r.1, some r.2)
  | .sendData buf => some (e.dataHandler buf)

/-- A call of `WriteFile` that was waiting goes on. -/
def finishWrite : Option (Engine × Acknowledge) :=
  match e.writing with
  | none => none
  | some (chunk, buf) =>
    if e.controlFile.pd.writtenStatus then
      some (e.handOver chunk buf, (e.handOver chunk buf).ackNextChunk)
    else none

/-- The thread stores the chunk handed to it. -/
def writerStep (fault : Option WriteFault) : Option Engine :=
  if e.controlFile.pd.writtenStatus then none
  else some (e.withControlFile (e.controlFile.intThread fault))

/-! ### What a packet leaves as it is -/

variable {e} {e' : Engine} {o : Outcome} {c : Command} {ack : Acknowledge}

/-- What `CommandHandler` leaves of the processor: the function that it calls for the command. -/
inductive Called (p : CANProcessor) (o : Outcome) : Command → CANProcessor → Prop
  | setVersion (v : String) : Called p o (.setVersion v) (p.setVersion o.fails v).1
  | setInfo {fileSize : UInt32} {chunkSize : UInt16} {p' : CANProcessor}
    {status : CANProcessorStatus} (h : p.setInfo fileSize.toNat chunkSize.toNat = some (p', status)) :
    Called p o (.setInfo fileSize chunkSize) p'
  | getNumWrCh : Called p o .getNumWrCh p
  | writeCh (size : UInt16) : Called p o (.writeCh size) p
  | checkSign (chunk : ℤ) : Called p o (.checkSign chunk) (p.checkChunkSHA2 chunk).1
  | userUpdate : Called p o .userUpdate (p.updateContent o.created).1
  | userRemove (v : String) : Called p o (.userRemove v) (p.removeContent v).1
  | userGetVer : Called p o .userGetVer p
  | getUpdStatus : Called p o .getUpdStatus p
  | forceRollback : Called p o .forceRollback (p.forceRollBack o.created).1
  | unknown : Called p o .unknown p

/-- A command changes nothing but the processor. -/
theorem called_of_commandHandler (h : e.commandHandler o c = some (e', ack)) :
    ∃ p, Called e.processor o c p ∧ e' = e.withProcessor p := by
  cases c with
  | setVersion v =>
    have hp := Called.setVersion (p := e.processor) (o := o) v
    simp only [commandHandler] at h
    split at h
    all_goals
      rename_i heq
      cases h
      rw [heq] at hp
      exact ⟨_, hp, rfl⟩
  | setInfo fileSize chunkSize =>
    obtain ⟨⟨p, status⟩, hr, hack⟩ := Option.map_eq_some_iff.1 h
    refine ⟨p, .setInfo hr, ?_⟩
    cases status <;> cases hack <;> rfl
  | getNumWrCh =>
    simp only [commandHandler] at h
    split at h <;> cases h <;> exact ⟨_, .getNumWrCh, rfl⟩
  | writeCh size =>
    simp only [commandHandler] at h
    split_ifs at h <;> cases h <;> exact ⟨_, .writeCh size, rfl⟩
  | checkSign chunk =>
    have hp := Called.checkSign (p := e.processor) (o := o) chunk
    simp only [commandHandler] at h
    split at h
    all_goals
      rename_i heq
      cases h
      rw [heq] at hp
      exact ⟨_, hp, rfl⟩
  | userUpdate =>
    have hp := Called.userUpdate (p := e.processor) (o := o)
    simp only [commandHandler] at h
    split at h
    all_goals
      rename_i heq
      cases h
      rw [heq] at hp
      exact ⟨_, hp, rfl⟩
  | userRemove v =>
    have hp := Called.userRemove (p := e.processor) (o := o) v
    simp only [commandHandler] at h
    split at h
    all_goals
      rename_i heq
      cases h
      rw [heq] at hp
      exact ⟨_, hp, rfl⟩
  | userGetVer =>
    simp only [commandHandler] at h
    split at h <;> cases h <;> exact ⟨_, .userGetVer, rfl⟩
  | getUpdStatus =>
    cases h
    exact ⟨_, .getUpdStatus, rfl⟩
  | forceRollback =>
    have hp := Called.forceRollback (p := e.processor) (o := o)
    simp only [commandHandler] at h
    split at h
    all_goals
      rename_i heq
      cases h
      rw [heq] at hp
      exact ⟨_, hp, rfl⟩
  | unknown =>
    cases h
    exact ⟨_, .unknown, rfl⟩

/-- An answer with a chunk number has that of the next chunk. -/
theorem ackChunk_of_commandHandler {k : ℤ}
    (h : e.commandHandler o c = some (e', .ackChunk k)) :
    k = ControlFileHeader.defaultChunkNo ∨ k = e'.controlFile.header.next := by
  cases c with
  | getNumWrCh =>
    have hchunk := CANProcessor.getNextChunk_fst (p := e.processor)
    simp only [commandHandler] at h
    split at h
    · cases h
    · rename_i heq
      cases h
      rwa [heq] at hchunk
  | setInfo fileSize chunkSize =>
    obtain ⟨⟨p, status⟩, -, hack⟩ := Option.map_eq_some_iff.1 h
    cases status <;> cases hack
  | writeCh size =>
    simp only [commandHandler] at h
    split_ifs at h <;> cases h
  | getUpdStatus => cases h
  | unknown => cases h
  | _ =>
    -- the other commands are answered with other acknowledgements
    simp only [commandHandler] at h
    split at h <;> cases h

/-- What the engine does with the command `c`, as far as the upload in progress goes. -/
structure Handled (e : Engine) (c : Command) (e' : Engine) (ack : Acknowledge) : Prop where
  writing : e'.writing = e.writing
  pd : e'.controlFile.pd = e.controlFile.pd
  header : c.isSetup = false → e'.controlFile.header = e.controlFile.header
  /-- An answer with a chunk number has that of the next chunk. -/
  chunk : ∀ k, ack = .ackChunk k →
    k = ControlFileHeader.defaultChunkNo ∨ k = e'.controlFile.header.next

theorem handled_of_commandHandler (h : e.commandHandler o c = some (e', ack)) :
    Handled e c e' ack := by
  have hchunk : ∀ k, ack = .ackChunk k →
      k = ControlFileHeader.defaultChunkNo ∨ k = e'.controlFile.header.next := fun k hk =>
    ackChunk_of_commandHandler (hk ▸ h)
  obtain ⟨p, hp, rfl⟩ := called_of_commandHandler h
  suffices hframe : p.controlFile.pd = e.controlFile.pd ∧
      (c.isSetup = false → p.controlFile.header = e.controlFile.header) from
    ⟨rfl, hframe.1, hframe.2, hchunk⟩
  cases hp with
  | setVersion v => exact ⟨e.processor.pd_setVersion o.fails v, fun hc => by cases hc⟩
  | setInfo hr => exact ⟨CANProcessor.pd_setInfo hr, fun hc => by cases hc⟩
  | checkSign chunk =>
    rcases e.processor.checkChunkSHA2_fst chunk with hp | hp <;> rw [hp] <;>
      exact ⟨rfl, fun _ => rfl⟩
  | userUpdate =>
    rw [e.processor.controlFile_updateContent o.created]
    exact ⟨rfl, fun _ => rfl⟩
  | userRemove v =>
    obtain ⟨hpd, hheader⟩ := e.processor.removeContent_fst v
    exact ⟨hpd, fun _ => hheader⟩
  | forceRollback =>
    rw [e.processor.controlFile_forceRollBack o.created]
    exact ⟨rfl, fun _ => rfl⟩
  | getNumWrCh | writeCh | userGetVer | getUpdStatus | unknown => exact ⟨rfl, fun _ => rfl⟩

end Engine

end EW8.Update
