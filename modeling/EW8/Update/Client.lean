import EW8.Can.Protocol
import EW8.Update.Processor

/-!
# The client of an upload

`UploadFile` sends a file to the engine and has it installed, by commands of `CANUpdateAPI`
that each send a packet and wait for its acknowledgement (`WaitForAck`). The acknowledgement
comes in by a thread of its own (`Client.ackHandler`), which keeps the code of the last one,
for the command in flight, and what it carries.

The thread of `UploadFile` is a program between whose steps others may act. It is in one of
its calls (`Call`), in one of the phases of that call (`Phase`), and `Client.resume` is what
it does once `WaitForAck` has returned, up to its next call. The functions of the source
that it goes through are named where they end: `Client.afterGetNextChunk` is the rest of
`GetNextChunk`, and what `UploadFile` does with its result.

Every command resets `m_commandInFly` before it returns, so that none finds another one in
flight.
-/

namespace EW8.Update

/-! ## Acknowledgements -/

/-- The codes `CAN_ACKNOWLEDGES`, as kept in `m_arrAck`. -/
inductive AckCode
  | timeout
  | ackOk
  | nackGen
  | nackNres
  | nackParam
  | nackSig
  | nackVer
  | ackExists
  | ackWithVer
  | ackChunk
  | nackCom
  | ackData
  | ackUpdateStatus
  deriving DecidableEq, Repr

/-- The code of an acknowledgement. -/
def Acknowledge.code : Acknowledge → AckCode
  | ackOk => .ackOk
  | nackGen => .nackGen
  | nackNres => .nackNres
  | nackParam => .nackParam
  | nackSig => .nackSig
  | nackVer => .nackVer
  | ackExists => .ackExists
  | ackWithVer _ => .ackWithVer
  | ackChunk _ => .ackChunk
  | nackCom => .nackCom
  | ackData .. => .ackData
  | ackUpdateStatus _ => .ackUpdateStatus

/-- `OperationWaitState`. -/
inductive OperationWaitState
  | noCommand
  | initTransfer
  | getNextChunk
  | pushChunk
  | verify
  | updateCommand
  | discardData
  | getUpdateStatus
  deriving DecidableEq, Repr

/-! ## The program -/

/-- The calls of `GetCurrentVersion`: before the upload, after `UpdateContent`, in the loop. -/
inductive VersionUse
  | previous
  | initial
  | loop
  deriving DecidableEq, Repr

/-- The calls of `DiscardContent`: of the previous version, after an error, at the end. -/
inductive DiscardUse
  | previous
  | failed
  | final
  deriving DecidableEq, Repr

/-- The places where a packet is sent and its acknowledgement waited for. -/
inductive Call
  /-- `GetCurrentVersion`, its two packets. -/
  | getVersion (use : VersionUse)
  | getStatus (use : VersionUse)
  /-- `DiscardContent`, its two packets; the first one only at the end. -/
  | rollback
  | remove (use : DiscardUse)
  /-- `InitTransfer`, its two packets. -/
  | setVersion
  | setInfo
  /-- `GetNextChunk`, before the loop or in it. -/
  | getNextChunk (inLoop : Bool)
  /-- `PushChunk`, its two packets, with the chunk. -/
  | writeCh (chunk : List UInt8)
  | pushData (chunk : List UInt8)
  | verify
  | update
  deriving DecidableEq, Repr

/-- The stages of an upload. -/
inductive Stage
  /-- Until the layout is set up. -/
  | setup
  | chunks
  | verify
  | update
  /-- After `UpdateContent`. -/
  | late
  deriving DecidableEq, Repr

/-- The phases of a call. -/
inductive Phase
  /-- The packet has been sent, and `WaitForAck` has not reset the code yet. -/
  | sent
  | waiting
  /-- `WaitForAck` has returned `ack`. -/
  | returned (ack : AckCode)
  deriving DecidableEq, Repr

/-- Where the thread of `UploadFile` is. -/
inductive Pc
  | start
  | running (c : Call) (phase : Phase)
  | exited (code : ℤ)
  deriving DecidableEq, Repr

/-- The parameters of `UploadFile`, and the file. The chunk size is what `mainprocessapi`
    lets through. -/
structure Upload where
  file : List UInt8
  version : String
  sha2code : List Char
  chunkSize : ℕ
  flag : String
  chunkSize_pos : 0 < chunkSize
  /-- `MAX_CHUNK_SIZE`. -/
  chunkSize_le : chunkSize ≤ 256 * 7

namespace Upload

variable (u : Upload)

/-- The bytes of the file that start at the offset `k * chunkSize`: the `k`-th chunk. -/
def chunkAt (k : ℕ) : List UInt8 := (u.file.drop (k * u.chunkSize)).take u.chunkSize

/-- `fseek` and `fread`: the offset is computed in 32 bits, without a sign. -/
def readChunk (k : ℤ) : List UInt8 := (u.file.drop (toUInt (u.chunkSize * k))).take u.chunkSize

/-- `sha_inp`. -/
def shaInp : SHA2Store := str2hash u.sha2code

end Upload

namespace Call

/-- The command in flight. -/
def op : Call → OperationWaitState
  | getVersion _ => .getUpdateStatus
  | getStatus _ => .getUpdateStatus
  | rollback => .updateCommand
  | remove _ => .discardData
  | setVersion => .initTransfer
  | setInfo => .initTransfer
  | getNextChunk _ => .getNextChunk
  | writeCh _ => .pushChunk
  | pushData _ => .pushChunk
  | verify => .verify
  | update => .updateCommand

/-- The stage of the upload that the call belongs to. -/
def stage : Call → Stage
  | getVersion .previous => .setup
  | getStatus .previous => .setup
  | remove .previous => .setup
  | setVersion => .setup
  | setInfo => .setup
  | getNextChunk _ => .chunks
  | writeCh _ => .chunks
  | pushData _ => .chunks
  | verify => .verify
  | update => .update
  | _ => .late

/-- The calls that take a chunk number from their acknowledgement. -/
def asksChunk : Call → Bool
  | getNextChunk _ => true
  | pushData _ => true
  | _ => false

end Call

/-- `CHUNK_NUMBER_ERROR`. -/
def chunkNumberError : ℤ := -2

/-- `ALL_CHUNKS_ARE_DONE`. -/
def allChunksAreDone : ℤ := -1

/-- `CANUpdateAPI`, and the thread of `UploadFile` with its variables. -/
structure Client where
  arrAck : OperationWaitState → AckCode
  commandInFly : OperationWaitState
  intBuffer : ℤ
  sha256Buffer : SHA2Store
  oStringBuffer : String
  updateStatusBuffer : UpdateStatus
  pc : Pc
  nextChunk : ℤ
  errCount : ℕ
  previousVersion : String
  updStatus : UpdateStatus

/-- What the thread does next: a call, or to return from `UploadFile`. -/
inductive Next
  | call (c : Call)
  | exit (code : ℤ)

namespace Client

variable (u : Upload) (a : Client)

/-! ### Acknowledgements -/

/-- `AckHandler`: what an acknowledgement carries is kept. -/
def takeBuffer : Acknowledge → Client
  | .ackWithVer version => { a with oStringBuffer := version }
  | .ackChunk chunk => { a with intBuffer := chunk }
  | .ackData chunk sha256 => { a with intBuffer := chunk, sha256Buffer := sha256 }
  | .ackUpdateStatus status => { a with updateStatusBuffer := status }
  | _ => a

/-- `AckHandler`: and its code, for the command in flight. -/
def ackHandler (ack : Acknowledge) : Client :=
  { a.takeBuffer ack with arrAck := Function.update a.arrAck a.commandInFly ack.code }

/-! ### Calls -/

/-- The packet of a call, none where it is too long for a logical packet. -/
def packet : Call → Option Packet
  | .getVersion _ => some (.command .userGetVer)
  | .getStatus _ => some (.command .getUpdStatus)
  | .rollback => some (.command .forceRollback)
  | .remove .previous => some (.command (.userRemove a.previousVersion))
  | .remove _ => some (.command (.userRemove u.version))
  | .setVersion => some (.command (.setVersion u.version))
  | .setInfo => some (.command (.setInfo (.ofNat u.file.length) (.ofNat u.chunkSize)))
  | .getNextChunk _ => some (.command .getNumWrCh)
  | .writeCh chunk => some (.command (.writeCh (.ofNat chunk.length)))
  | .pushData chunk =>
    if chunk.length ≤ Can.maxLogicalPacket then some (.sendData chunk) else none
  | .verify => some (.command (.checkSign (-1)))
  | .update => some (.command .userUpdate)

/-- The start of a call. `DataLoop` resets the code before it sends. -/
def perform (c : Call) : Client :=
  { a with
    commandInFly := c.op
    arrAck :=
      match c with
      | .pushData _ => Function.update a.arrAck .pushChunk .timeout
      | _ => a.arrAck
    pc := .running c .sent }

/-! ### The rest of each call -/

/-- The loop over the chunks, at its head. -/
def chunkLoop : Next :=
  if a.nextChunk = chunkNumberError then .call (.getNextChunk true)
  else if a.nextChunk = allChunksAreDone then .call .verify
  else if u.readChunk a.nextChunk = [] then .call .verify
  else .call (.writeCh (u.readChunk a.nextChunk))

/-- The loop that waits for the device, at its head. -/
def statusLoop : Next :=
  if a.updStatus ≠ .done then .call (.getVersion .loop)
  else if u.flag = "-forceRollback" then .call .rollback
  else .call (.remove .final)

/-- After `GetCurrentVersion`; `ok` if it has returned `UPDATE_OK`. -/
def afterGetCurrentVersion (use : VersionUse) (ok : Bool) : Client × Next :=
  match use with
  | .previous =>
    if a.previousVersion ≠ "" ∧ a.previousVersion ≠ u.version then (a, .call (.remove .previous))
    else (a, .call .setVersion)
  | .initial => (a, a.statusLoop u)
  | .loop =>
    if !ok then (a, .exit (-5))
    else if a.updStatus = .executionError then (a, .call (.remove .failed))
    else (a, a.statusLoop u)

/-- `GetCurrentVersion`, after its first packet. -/
def afterGetVersion (use : VersionUse) (ack : AckCode) : Client × Next :=
  if ack = .ackWithVer then
    match use with
    | .previous => ({ a with previousVersion := a.oStringBuffer }, .call (.getStatus use))
    | _ => (a, .call (.getStatus use))
  else a.afterGetCurrentVersion u use false

/-- `GetCurrentVersion`, after its second packet. -/
def afterGetStatus (use : VersionUse) (ack : AckCode) : Client × Next :=
  if ack = .ackUpdateStatus then
    match use with
    | .previous => a.afterGetCurrentVersion u use true
    | _ => { a with updStatus := a.updateStatusBuffer }.afterGetCurrentVersion u use true
  else a.afterGetCurrentVersion u use false

/-- After `DiscardContent`, whose result does not count. -/
def afterDiscardContent : DiscardUse → Next
  | .previous => .call .setVersion
  | .failed => .exit (-6)
  | .final => .exit 0

/-- `InitTransfer`, after its first packet. -/
def afterSetVersion (ack : AckCode) : Next :=
  if ack = .ackExists then .call (.getNextChunk false)
  else if ack = .ackOk then .call .setInfo
  else .exit (-3)

/-- `InitTransfer`, after its second packet. -/
def afterSetInfo (ack : AckCode) : Next :=
  if ack = .ackOk then .call (.getNextChunk false) else .exit (-3)

/-- `GetNextChunk`, after its packet: the loop starts, or goes on. -/
def afterGetNextChunk (inLoop : Bool) (ack : AckCode) : Client × Next :=
  let nextChunk := if ack = .ackChunk then a.intBuffer else chunkNumberError
  let a := { a with nextChunk := nextChunk }
  if !inLoop then
    let a := { a with errCount := 0 }
    (a, a.chunkLoop u)
  else if nextChunk > 0 then
    let a := { a with errCount := 0 }
    (a, a.chunkLoop u)
  else
    let errCount := a.errCount
    let a := { a with errCount := errCount + 1 }
    if errCount > 8 then (a, .exit (-6)) else (a, a.chunkLoop u)

/-- `PushChunk`, after its first packet. -/
def afterWriteCh (chunk : List UInt8) (ack : AckCode) : Client × Next :=
  if ack = .ackOk then (a, .call (.pushData chunk))
  else
    let a := { a with nextChunk := chunkNumberError }
    (a, a.chunkLoop u)

/-- `PushChunk`, after `DataLoop`. -/
def afterPushData (ack : AckCode) : Client × Next :=
  let a := { a with nextChunk := if ack = .ackChunk then a.intBuffer else chunkNumberError }
  (a, a.chunkLoop u)

/-- After `VerifyContent`. -/
def afterVerify (ack : AckCode) : Next :=
  if ack ≠ .ackData then .exit (-4)
  else if a.sha256Buffer ≠ u.shaInp then .exit (-4)
  else if u.flag = "-passUpdate" then .call (.remove .final)
  else .call .update

/-- After `UpdateContent`. -/
def afterUpdate (ack : AckCode) : Next :=
  if ack = .ackOk then .call (.getVersion .initial) else .exit (-4)

/-- What the thread does once `WaitForAck` has returned `ack` in the call `c`. -/
def resume (c : Call) (ack : AckCode) : Client × Next :=
  let a := { a with commandInFly := .noCommand }
  match c with
  | .getVersion use => a.afterGetVersion u use ack
  | .getStatus use => a.afterGetStatus u use ack
  | .rollback => (a, .call (.remove .final))
  | .remove use => (a, afterDiscardContent use)
  | .setVersion => (a, afterSetVersion ack)
  | .setInfo => (a, afterSetInfo ack)
  | .getNextChunk inLoop => a.afterGetNextChunk u inLoop ack
  | .writeCh chunk => a.afterWriteCh u chunk ack
  | .pushData _ => a.afterPushData u ack
  | .verify => (a, a.afterVerify u ack)
  | .update => (a, afterUpdate ack)

/-- A step of the thread: the call that it starts, if any, and the state. -/
def step : Option (Client × Option Call) :=
  match a.pc with
  | .start => some (a.perform (.getVersion .previous), some (.getVersion .previous))
  | .running c .sent =>
    some ({ a with
      arrAck := Function.update a.arrAck c.op .timeout
      pc := .running c .waiting }, none)
  | .running c .waiting => some ({ a with pc := .running c (.returned (a.arrAck c.op)) }, none)
  | .running c (.returned ack) =>
    match a.resume u c ack with
    | (a, .call c) => some (a.perform c, some c)
    | (a, .exit code) => some ({ a with pc := .exited code }, none)
  | .exited _ => none

/-! ### What the thread does in a step -/

variable {u a} {a' : Client} {c n : Call} {ack : AckCode} {chunk : List UInt8}

/-- All calls but one send a command, and those of the setup only send one that lays out the
    upload. -/
theorem packet_eq_command (a : Client) (hc : ∀ d, c ≠ .pushData d) :
    ∃ command, a.packet u c = some (.command command) ∧
      (command.isSetup = true → c.stage = .setup) := by
  cases c with
  | pushData d => exact absurd rfl (hc d)
  | remove use => cases use <;> exact ⟨_, rfl, fun h => by cases h⟩
  | setVersion => exact ⟨_, rfl, fun _ => rfl⟩
  | setInfo => exact ⟨_, rfl, fun _ => rfl⟩
  | _ => exact ⟨_, rfl, fun h => by cases h⟩

/-- The steps of the thread. -/
inductive Steps (u : Upload) (a : Client) : Client → Option Call → Prop
  | start (hpc : a.pc = .start) :
    Steps u a (a.perform (.getVersion .previous)) (some (.getVersion .previous))
  | wait {c : Call} (hpc : a.pc = .running c .sent) :
    Steps u a { a with
      arrAck := Function.update a.arrAck c.op .timeout
      pc := .running c .waiting } none
  | ret {c : Call} (hpc : a.pc = .running c .waiting) :
    Steps u a { a with pc := .running c (.returned (a.arrAck c.op)) } none
  | call {c : Call} {ack : AckCode} {b : Client} {n : Call} (hpc : a.pc = .running c (.returned ack))
    (hres : a.resume u c ack = (b, .call n)) : Steps u a (b.perform n) (some n)
  | exit {c : Call} {ack : AckCode} {b : Client} {code : ℤ}
    (hpc : a.pc = .running c (.returned ack)) (hres : a.resume u c ack = (b, .exit code)) :
    Steps u a { b with pc := .exited code } none

theorem steps_of_step {o : Option Call} (h : a.step u = some (a', o)) : Steps u a a' o := by
  unfold step at h
  split at h
  · rename_i hpc
    cases h
    exact .start hpc
  · rename_i c hpc
    cases h
    exact .wait hpc
  · rename_i c hpc
    cases h
    exact .ret hpc
  · rename_i c ack hpc
    split at h
    · rename_i b n hres
      cases h
      exact .call hpc hres
    · rename_i b code hres
      cases h
      exact .exit hpc hres
  · cases h

theorem call_of_chunkLoop (h : a.chunkLoop u = .call n) :
    n = .getNextChunk true ∨ n = .verify ∨ n = .writeCh (u.readChunk a.nextChunk) ∧
      a.nextChunk ≠ chunkNumberError ∧ a.nextChunk ≠ allChunksAreDone := by
  unfold chunkLoop at h
  split_ifs at h with h₁ h₂ h₃
  · exact .inl (Next.call.inj h).symm
  · exact .inr (.inl (Next.call.inj h).symm)
  · exact .inr (.inl (Next.call.inj h).symm)
  · exact .inr (.inr ⟨(Next.call.inj h).symm, h₁, h₂⟩)

theorem call_of_statusLoop (h : a.statusLoop u = .call n) :
    n = .getVersion .loop ∨ n = .rollback ∨ n = .remove .final := by
  unfold statusLoop at h
  split_ifs at h
  · exact .inl (Next.call.inj h).symm
  · exact .inr (.inl (Next.call.inj h).symm)
  · exact .inr (.inr (Next.call.inj h).symm)

/-- The calls that follow one another. -/
inductive Leads (u : Upload) (a : Client) : Call → AckCode → Call → Prop
  | setup {c n : Call} {ack : AckCode} (hc : c.stage = .setup) (hn : n.stage = .setup) :
    Leads u a c ack n
  | firstChunk {c : Call} {ack : AckCode} (hc : c.stage = .setup) :
    Leads u a c ack (.getNextChunk false)
  | nextChunk {c : Call} {ack : AckCode} (hc : c.stage = .chunks) :
    Leads u a c ack (.getNextChunk true)
  | writeCh {c : Call} (hc : c.asksChunk = true) (herror : a.intBuffer ≠ chunkNumberError)
    (hdone : a.intBuffer ≠ allChunksAreDone) :
    Leads u a c .ackChunk (.writeCh (u.readChunk a.intBuffer))
  | pushData {chunk : List UInt8} : Leads u a (.writeCh chunk) .ackOk (.pushData chunk)
  | verify {c : Call} {ack : AckCode} (hc : c.stage = .chunks) : Leads u a c ack .verify
  | update (h : a.sha256Buffer = u.shaInp) : Leads u a .verify .ackData .update
  | passUpdate : Leads u a .verify .ackData (.remove .final)
  | initial : Leads u a .update .ackOk (.getVersion .initial)
  | late {c n : Call} {ack : AckCode} (hc : c.stage = .late) (hn : n.stage = .late) :
    Leads u a c ack n

/-- What follows in the loop over the chunks. -/
theorem leads_of_chunkLoop {b : Client} (hc : c.stage = .chunks) (hb : b.chunkLoop u = .call n)
    (hnext : b.nextChunk = chunkNumberError ∨
      c.asksChunk = true ∧ ack = .ackChunk ∧ b.nextChunk = a.intBuffer) : Leads u a c ack n := by
  rcases call_of_chunkLoop hb with rfl | rfl | ⟨rfl, herror, hdone⟩
  · exact .nextChunk hc
  · exact .verify hc
  · obtain ⟨hask, rfl, hbuf⟩ := hnext.resolve_left herror
    rw [hbuf] at herror hdone ⊢
    exact .writeCh hask herror hdone

theorem leads_of_getVersion {use : VersionUse} {ok : Bool} {b b' : Client}
    (hb : b.afterGetCurrentVersion u use ok = (b', .call n))
    (hc : c = .getVersion use ∨ c = .getStatus use) : Leads u a c ack n := by
  cases use with
  | previous =>
    have hstage : c.stage = .setup := by rcases hc with rfl | rfl <;> rfl
    simp only [afterGetCurrentVersion] at hb
    split_ifs at hb <;> cases hb <;> exact .setup hstage rfl
  | initial =>
    have hstage : c.stage = .late := by rcases hc with rfl | rfl <;> rfl
    rcases call_of_statusLoop (Prod.mk.inj hb).2 with rfl | rfl | rfl <;> exact .late hstage rfl
  | loop =>
    have hstage : c.stage = .late := by rcases hc with rfl | rfl <;> rfl
    simp only [afterGetCurrentVersion] at hb
    split_ifs at hb
    · cases hb
    · cases hb
      exact .late hstage rfl
    · rcases call_of_statusLoop (Prod.mk.inj hb).2 with rfl | rfl | rfl <;> exact .late hstage rfl

theorem leads_of_resume (h : a.resume u c ack = (a', .call n)) : Leads u a c ack n := by
  cases c with
  | getVersion use =>
    simp only [resume, afterGetVersion] at h
    split_ifs at h
    · cases use <;> cases h
      · exact .setup rfl rfl
      · exact .late rfl rfl
      · exact .late rfl rfl
    · exact leads_of_getVersion h (.inl rfl)
  | getStatus use =>
    simp only [resume, afterGetStatus] at h
    split_ifs at h
    · cases use <;> exact leads_of_getVersion h (.inr rfl)
    · exact leads_of_getVersion h (.inr rfl)
  | rollback =>
    cases h
    exact .late rfl rfl
  | remove use =>
    cases use <;> cases h
    exact .setup rfl rfl
  | setVersion =>
    simp only [resume, afterSetVersion] at h
    split_ifs at h <;> cases h
    · exact .firstChunk rfl
    · exact .setup rfl rfl
  | setInfo =>
    simp only [resume, afterSetInfo] at h
    split_ifs at h <;> cases h
    exact .firstChunk rfl
  | getNextChunk inLoop =>
    -- all branches that go on go on with the loop
    have hloop : ∀ b : Client, b.chunkLoop u = .call n →
        b.nextChunk = (if ack = .ackChunk then a.intBuffer else chunkNumberError) →
        Leads u a (.getNextChunk inLoop) ack n := by
      intro b hb hnext
      refine leads_of_chunkLoop rfl hb ?_
      split_ifs at hnext with hack
      · exact .inr ⟨rfl, hack, hnext⟩
      · exact .inl hnext
    simp only [resume, afterGetNextChunk] at h
    split_ifs at h
    all_goals first | exact hloop _ (Prod.mk.inj h).2 (by simp [*]) | cases (Prod.mk.inj h).2
  | writeCh chunk =>
    simp only [resume, afterWriteCh] at h
    split_ifs at h with hack
    · cases h
      rw [hack]
      exact .pushData
    · exact leads_of_chunkLoop rfl (Prod.mk.inj h).2 (.inl rfl)
  | pushData chunk =>
    refine leads_of_chunkLoop rfl (Prod.mk.inj h).2 ?_
    by_cases hack : ack = .ackChunk
    · exact .inr ⟨rfl, hack, if_pos hack⟩
    · exact .inl (if_neg hack)
  | verify =>
    simp only [resume, afterVerify] at h
    split_ifs at h with hack hsha
    · cases h
    · cases h
    · cases h
      rw [not_not.1 hack]
      exact .passUpdate
    · cases h
      rw [not_not.1 hack]
      exact .update (not_not.1 hsha)
  | update =>
    simp only [resume, afterUpdate] at h
    split_ifs at h with hack <;> cases h
    rw [hack]
    exact .initial

/-! ## For runs -/

/-- A client that has not started. -/
def fresh : Client where
  arrAck := fun _ => .timeout
  commandInFly := .noCommand
  intBuffer := 0
  sha256Buffer := Vector.replicate 32 0
  oStringBuffer := ""
  updateStatusBuffer := .unknown
  pc := .start
  nextChunk := 0
  errCount := 0
  previousVersion := ""
  updStatus := .unknown

end Client

theorem one_le_maxChunkSize : 1 ≤ 256 * 7 := by decide

/-- A file of two chunks, of one byte each. -/
def Upload.twoBytes : Upload where
  file := [1, 2]
  version := "1"
  sha2code := []
  chunkSize := 1
  flag := ""
  chunkSize_pos := Nat.one_pos
  chunkSize_le := one_le_maxChunkSize

end EW8.Update
