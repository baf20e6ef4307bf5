import EW8.Lib.CString
import EW8.Can.Api
import EW8.Update.VersionChange

/-!
# The answer to a request for the version

To answer `CAN_USER_GET_VER`, the engine copies the version behind the first byte of `m_oBuffer`, up to
510 bytes, and sends it with its final zero. `m_oBuffer` is an array of 64 pointers, though. On the
other side, `AckHandler` copies the version to `m_oStringBuffer`, where `GetCurrentVersion` finds it.

* `answers_iff`: the version gets there just if it fits in `m_oBuffer`.
-/

namespace EW8.Update

open Can

/-- `CAN_NACK_NRES`. -/
def canNackNres : UInt8 := 0x42

/-- `CAN_ACK_WITH_VER`. -/
def canAckWithVer : UInt8 := 0x4b

/-- The size of `m_oBuffer`: 64 pointers of 32 bits. -/
abbrev oBufferLen : ℕ := 64 * 4

/-- `MAX_OUT_BUFFER`, the size of `m_oStringBuffer`. -/
abbrev maxOutBuffer : ℕ := 512

/-- The array of the engine that the answer is put in. -/
inductive EngineArray
  | oBuffer
  deriving DecidableEq, Repr

/-- The bytes of a `std::string`: its characters. -/
def stringBytes (v : String) : List UInt8 := v.toList.map fun c => UInt8.ofNat c.toNat

/-! ## The engine -/

namespace CANProcessor

variable (p : CANProcessor)

/-- `GetContentVersion`, where `_version` is behind the first byte of `m_oBuffer`. -/
def copyContentVersion (oBuffer : Bytes oBufferLen) (len : ℕ) :
    Except (OutOfBounds EngineArray) (Bytes oBufferLen × CANProcessorStatus) :=
  let version := stringBytes p.controlFile.version
  if version.length < 1 then
    (oBuffer.write .oBuffer 1 [0]).map fun buf => (buf, .needVersion)
  else
    (oBuffer.write .oBuffer 1 (strncpy (version ++ [0]) (min len (version.length + 1)))).map
      fun buf => (buf, .ok)

/-- What `AckHandler` and `WriteAck` send for `CAN_ACK_WITH_VER`. `stale` is what was in the frame. -/
def ackWithVer (oBuffer : Bytes oBufferLen) (stale : Bytes 8) :
    Except (OutOfBounds EngineArray) (List CanFrame) := do
  let len ← oBuffer.strlen .oBuffer 1
  let payload ← oBuffer.read .oBuffer 1 (len + 1)
  return writeLogicalCANPacket stale (formCANPacket canAckWithVer payload)

/-- `CAN_USER_GET_VER`: the frames of the answer. -/
def answerVersion (oBuffer : Bytes oBufferLen) (stale : Bytes 8) :
    Except (OutOfBounds EngineArray) (List CanFrame) := do
  let r ← p.copyContentVersion oBuffer 510
  if r.2 = .ok then ackWithVer r.1 stale
  else return writeLogicalCANPacket stale (formCANPacket canNackNres [])

end CANProcessor

/-! ## The client -/

/-- What `AckHandler` keeps: `m_oStringBuffer`, and the acknowledgement that the command in flight
    waits for. -/
structure ClientAnswers where
  oStringBuffer : Bytes maxOutBuffer
  ack : Option UInt8

namespace ClientAnswers

/-- `AckHandler`. -/
def ackHandler (r : ClientAnswers) (d : Dispatch) : ClientAnswers where
  oStringBuffer :=
    if d.command = canAckWithVer then
      r.oStringBuffer.patch 0 (strncpy (d.buffer.slice 0 packetBufferLen) maxOutBuffer)
    else r.oStringBuffer
  ack := some d.command

/-- `AckHandler` is called for each acknowledgement that arrives. -/
def handle (r : ClientAnswers) (ev : List Event) : ClientAnswers :=
  ev.foldl (fun r e => match e with | .dispatch d => r.ackHandler d | _ => r) r

/-- `GetCurrentVersion`, up to where it has the version. -/
def getCurrentVersion (r : ClientAnswers) : Option (List UInt8) :=
  if r.ack = some canAckWithVer then some (untilZero (r.oStringBuffer.slice 0 maxOutBuffer)) else none

variable {r : ClientAnswers} {ev : List Event} {c : UInt8} {p s : List UInt8} {d : Dispatch}

theorem handle_of_nil (h : dispatched ev = []) : r.handle ev = r := by
  induction ev generalizing r with
  | nil => rfl
  | cons e ev ih =>
    cases e with
    | dispatch d => cases h
    | _ => exact ih h

/-- A packet that is delivered is handled. -/
theorem handle_of_singleton (h : dispatched ev = [(c, p)]) :
    ∃ d : Dispatch, r.handle ev = r.ackHandler d ∧ d.command = c ∧ d.payload = p := by
  induction ev generalizing r with
  | nil => cases h
  | cons e ev ih =>
    cases e with
    | dispatch d =>
      obtain ⟨heq, hrest⟩ := List.cons_eq_cons.1 h
      obtain ⟨rfl, rfl⟩ := Prod.mk.inj heq
      exact ⟨d, handle_of_nil hrest, rfl, rfl⟩
    | _ => exact ih h

/-- A string with its zero is read from the packet, not what is behind it in the buffer. -/
theorem getCurrentVersion_ackHandler (hs : 0 ∉ s) (hlen : s.length < maxOutBuffer)
    (hc : d.command = canAckWithVer) (hp : d.payload = s ++ [0]) :
    (r.ackHandler d).getCurrentVersion = some s := by
  have hpayload : d.payloadLen = s.length + 1 := by
    have hlength := congrArg List.length hp
    rwa [Dispatch.payload, Bytes.length_slice, List.length_append, List.length_singleton] at hlength
  have hbuffer : d.buffer.slice 0 packetBufferLen =
      s ++ 0 :: d.buffer.slice d.payloadLen (packetBufferLen - d.payloadLen) := by
    have hsplit : packetBufferLen = d.payloadLen + (packetBufferLen - d.payloadLen) := by
      rw [packetBufferLen_eq, hpayload]
      rw [maxOutBuffer] at hlen
      omega
    rw [Dispatch.payload] at hp
    refine (congrArg (d.buffer.slice 0) hsplit).trans ?_
    rw [Bytes.slice_add, hp, Nat.zero_add, List.append_assoc, List.singleton_append]
  have hstored : (r.oStringBuffer.patch 0 (strncpy (d.buffer.slice 0 packetBufferLen)
      maxOutBuffer)).slice 0 maxOutBuffer =
        strncpy (d.buffer.slice 0 packetBufferLen) maxOutBuffer := by
    have hlength := length_strncpy (d.buffer.slice 0 packetBufferLen) maxOutBuffer
    have hself := @Bytes.slice_patch_self _ r.oStringBuffer 0 _ (by rw [hlength, zero_add])
    rwa [hlength] at hself
  simp only [getCurrentVersion, ackHandler, hc, if_true, hstored]
  rw [hbuffer, untilZero_strncpy hs hlen]

end ClientAnswers

/-! ## The whole way -/

/-- The version is a path that can be changed into: `chdir` takes no empty path, and none with a name
    of more than 255 bytes. -/
structure PathName (v : String) : Prop where
  ne : v ≠ ""
  /-- It is a string of bytes, without a zero. -/
  bytes : ∀ c ∈ v.toList, c.toNat ≠ 0 ∧ c.toNat < 256
  names : ∀ name, name <:+: v.toList → '/' ∉ name → name.length ≤ 255
  length_le : v.length ≤ 509

namespace PathName

variable {v : String}

theorem length_stringBytes (v : String) : (stringBytes v).length = v.length := by
  rw [stringBytes, List.length_map, String.length_toList]

theorem length_pos (hv : PathName v) : 0 < v.length := by
  rw [Nat.pos_iff_ne_zero, ← String.length_toList, ne_eq, List.length_eq_zero_iff, String.toList_eq_nil_iff]
  exact hv.ne

theorem zero_not_mem (hv : PathName v) : 0 ∉ stringBytes v := by
  intro h0
  obtain ⟨c, hc, hc0⟩ := List.mem_map.1 h0
  obtain ⟨hne, hlt⟩ := hv.bytes c hc
  have hnat := congrArg UInt8.toNat hc0
  rw [UInt8.toNat_ofNat', Nat.mod_eq_of_lt hlt] at hnat
  exact hne hnat

end PathName

namespace CANProcessor

variable {p : CANProcessor} {v : String}

/-- Whatever is in its buffers, the engine writes the answer within `m_oBuffer`; and the frames of it,
    in order and in time, give a client whose receiver is ready the version. -/
def AnswersVersion (p : CANProcessor) : Prop :=
  ∀ (oBuffer : Bytes oBufferLen) (stale : Bytes 8), ∃ frames,
    p.answerVersion oBuffer stale = .ok frames ∧
    ∀ (a : CANUpdateAPI) (r : ClientAnswers) (fs : List (ℤ × CanFrame)), a.inputState = .ready →
      fs.map Prod.snd = frames →
      List.IsChain (fun s t => t - s ≤ maxTimeout) (fs.map Prod.fst) →
      ∃ a' ev, a.feed fs = .ok (a', ev) ∧
        (r.handle ev).getCurrentVersion = some (stringBytes p.controlFile.version)

/-- A short version is copied with its zero. -/
theorem copyContentVersion_short (hv : PathName p.controlFile.version)
    (hlen : p.controlFile.version.length ≤ 254) (oBuffer : Bytes oBufferLen) :
    p.copyContentVersion oBuffer 510 =
      .ok (oBuffer.patch 1 (stringBytes p.controlFile.version ++ [0]), .ok) := by
  have hpos := hv.length_pos
  have hbytes := PathName.length_stringBytes p.controlFile.version
  have hmin : min 510 ((stringBytes p.controlFile.version).length + 1) =
      (stringBytes p.controlFile.version).length + 1 := min_eq_right (by omega)
  simp only [copyContentVersion]
  rw [if_neg (by omega), hmin, strncpy_succ hv.zero_not_mem, Bytes.write_eq]
  · rfl
  · rw [List.length_append, List.length_singleton, oBufferLen]
    omega

/-- A longer one is written past the end. -/
theorem copyContentVersion_long (hv : PathName p.controlFile.version)
    (hlen : 254 < p.controlFile.version.length) (oBuffer : Bytes oBufferLen) :
    ∃ stop, oBufferLen < stop ∧ p.copyContentVersion oBuffer 510 = .error ⟨.oBuffer, stop⟩ := by
  have hbytes := PathName.length_stringBytes p.controlFile.version
  have hmax := hv.length_le
  refine ⟨1 + min 510 ((stringBytes p.controlFile.version).length + 1), by rw [oBufferLen]; omega, ?_⟩
  simp only [copyContentVersion]
  rw [if_neg (by omega), Bytes.write, length_strncpy, if_neg (by rw [oBufferLen]; omega)]
  rfl

/-- What the client makes of the frames of a version. -/
theorem getCurrentVersion_of_feed {s : List UInt8} {stale : Bytes 8} {a : CANUpdateAPI} {r : ClientAnswers}
    {fs : List (ℤ × CanFrame)} (hs : 0 ∉ s) (hlen : s.length < maxOutBuffer)
    (ha : a.inputState = .ready)
    (hfs : fs.map Prod.snd = writeLogicalCANPacket stale (formCANPacket canAckWithVer (s ++ [0])))
    (hgap : List.IsChain (fun s t => t - s ≤ maxTimeout) (fs.map Prod.fst)) :
    ∃ a' ev, a.feed fs = .ok (a', ev) ∧ (r.handle ev).getCurrentVersion = some s := by
  have hpayload : (s ++ [0]).length ≤ maxLogicalPacket := by
    rw [List.length_append, List.length_singleton, maxLogicalPacket_eq]
    rw [maxOutBuffer] at hlen
    omega
  obtain ⟨a', ev, hfeed, hev⟩ := CANUpdateAPI.feed_after_idle canAckWithVer hpayload
    (CANUpdateAPI.inOrder_of_map stale hfs) (fun hcmd => by rw [ha] at hcmd; cases hcmd) hgap
  rw [if_pos (.inl ha), CANUpdateAPI.handed, if_neg (by decide)] at hev
  obtain ⟨d, hhandle, hc, hp⟩ := ClientAnswers.handle_of_singleton (r := r) hev
  exact ⟨a', ev, hfeed, hhandle ▸ ClientAnswers.getCurrentVersion_ackHandler hs hlen hc hp⟩

theorem answersVersion_iff (hv : PathName p.controlFile.version) :
    p.AnswersVersion ↔ p.controlFile.version.length ≤ 254 := by
  constructor
  · intro hanswers
    by_contra hlong
    obtain ⟨frames, hframes, -⟩ := hanswers (fun _ => 0) (fun _ => 0)
    obtain ⟨stop, -, herr⟩ := copyContentVersion_long hv (not_le.1 hlong) (fun _ => 0)
    rw [answerVersion, herr] at hframes
    cases hframes
  · intro hshort oBuffer stale
    have hbytes := PathName.length_stringBytes p.controlFile.version
    have hfit : 1 + (stringBytes p.controlFile.version).length + 1 ≤ oBufferLen := by
      rw [oBufferLen]
      omega
    have hframes : p.answerVersion oBuffer stale = .ok (writeLogicalCANPacket stale
        (formCANPacket canAckWithVer (stringBytes p.controlFile.version ++ [0]))) := by
      have hread := @Bytes.slice_patch_self _ oBuffer 1 (stringBytes p.controlFile.version ++ [0])
        (by simpa [add_assoc] using hfit)
      rw [List.length_append, List.length_singleton] at hread
      rw [answerVersion, copyContentVersion_short hv hshort]
      simp only [bind, Except.bind, if_true, ackWithVer]
      rw [Bytes.strlen_patch hv.zero_not_mem hfit]
      simp only
      rw [Bytes.read_eq (by omega), hread]
      rfl
    refine ⟨_, hframes, fun a r fs ha hfs hgap => ?_⟩
    exact getCurrentVersion_of_feed hv.zero_not_mem (by rw [maxOutBuffer]; omega) ha hfs hgap

/-- A version that `SetVersion` has accepted is answered as it is, and within the buffer, just if it has
    no more than 254 bytes. -/
theorem answers_iff (p p' : CANProcessor) (fails : FsCall → Bool) (v : String)
    (status : CANProcessorStatus) (hset : p.setVersion fails v = (p', status))
    (hok : status = .ok ∨ status = .dirExists) (hv : PathName v) :
    p'.AnswersVersion ↔ v.length ≤ 254 := by
  obtain rfl := (inVersion_of_accepted hset hok).version
  exact answersVersion_iff hv

theorem answers_two : ∃ p', Engine.inProgress.processor.setVersion (Engine.failing []).fails "2" =
    (p', .ok) ∧ p'.AnswersVersion := by
  have hpath : PathName "2" := by
    refine ⟨by decide, fun c hc => ?_, fun _ hname _ => hname.length_le.trans (by decide), by decide⟩
    obtain rfl := List.mem_singleton.1 (show c ∈ ['2'] from hc)
    decide
  exact ⟨_, rfl, (answers_iff Engine.inProgress.processor _ (Engine.failing []).fails "2" .ok rfl
    (.inl rfl) hpath).2 (by decide)⟩

/-- A version that is not there yet is made. -/
theorem setVersion_inProgress {v : String} (hne : v ≠ "") (h1 : v ≠ "1") :
    (Engine.inProgress.processor.setVersion (Engine.failing []).fails v).2 = .ok := by
  have h1' : "1" ≠ v := h1.symm
  simp [setVersion, Engine.inProgress, Engine.failing, ControlFile.checkVersion, ControlFile.call,
    FileSystem.chdirDefault, FileSystem.chdirVersion, ControlFile.writeNewVersion, FileSystem.mkdir,
    ControlFile.writeVersion, hne, h1, h1']

/-- A name of 255 letters is one too long for the buffer. -/
theorem answers_fails_of_long : ¬ ∀ (p p' : CANProcessor) (fails : FsCall → Bool) (v : String)
    (status : CANProcessorStatus), p.setVersion fails v = (p', status) →
    status = .ok ∨ status = .dirExists → PathName v → p'.AnswersVersion := by
  intro hall
  obtain ⟨v, hv⟩ : ∃ v, v = String.ofList (List.replicate 255 'a') := ⟨_, rfl⟩
  have hlist : v.toList = List.replicate 255 'a' := by rw [hv, String.toList_ofList]
  have hlen : v.length = 255 := by rw [← String.length_toList, hlist, List.length_replicate]
  have hne {w : String} (hw : w.length ≠ 255) : v ≠ w := fun h => hw (h ▸ hlen)
  have hpath : PathName v := by
    refine ⟨hne (by decide), fun c hc => ?_, fun name hname _ => ?_, by omega⟩
    · rw [hlist] at hc
      obtain rfl := List.eq_of_mem_replicate hc
      decide
    · exact hname.length_le.trans (by rw [String.length_toList, hlen])
  have hok := setVersion_inProgress (hne (w := "") (by decide)) (hne (w := "1") (by decide))
  obtain ⟨p', status, hset⟩ : ∃ p' status, Engine.inProgress.processor.setVersion
      (Engine.failing []).fails v = (p', status) := ⟨_, _, rfl⟩
  rw [hset] at hok
  have hanswers := hall _ p' _ v status hset (.inl hok) hpath
  have hversion := (inVersion_of_accepted hset (.inl hok)).version
  have hshort := (answersVersion_iff (hversion ▸ hpath)).1 hanswers
  rw [hversion] at hshort
  omega

end CANProcessor

end EW8.Update
