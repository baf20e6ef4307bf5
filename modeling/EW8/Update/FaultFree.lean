import EW8.Update.Chunks
import EW8.Update.Prefix

/-!
# An upload without faults

A session from the layout of an upload into an empty directory up to the end of the loop over the
chunks: no packet is lost, none comes too late or too early, no chunk fails to be stored, and each is
stored before the next packet is taken (`faultFree`). Threads go on in any order otherwise.

* `completes_iff`: all such runs come to an end, the engine then has the file, and the control file
  is taken by `ReadControlFile`, if and only if its size fits in the 32 bits in which it is computed.

Of a packet to come (`Asks`) and of the acknowledgement that comes in (`Answers`) it is known how many
calls the client still makes up to the end of the loop, and so the runs are bounded
(`advances_step`).
-/

namespace EW8.Update

namespace ControlFile

variable {u : Upload} {cf : ControlFile} {k : ℕ}

/-- The first `k` chunks of the file have been handed over, and no chunk but the last of them may
    still have to be stored. -/
def Taken (u : Upload) (cf : ControlFile) (k : ℕ) : Prop :=
  cf.Upto u k ∨ ∃ (j : ℕ) (cf₀ : ControlFile), k = j + 1 ∧ j < u.chunks ∧ cf₀.Upto u j ∧
    cf = cf₀.handOver j (u.chunkAt j)

theorem Taken.upto (h : cf.Taken u k) (hwritten : cf.pd.writtenStatus = true) : cf.Upto u k := by
  rcases h with h | ⟨j, cf₀, -, -, -, rfl⟩
  · exact h
  · cases hwritten

theorem Taken.intThread (h : cf.Taken u k) (hpending : cf.pd.writtenStatus = false)
    (hsize : u.file.length < 2 ^ 31) : (cf.intThread none).Taken u k := by
  rcases h with h | ⟨j, cf₀, rfl, hj, h, rfl⟩
  · exact absurd (h.written.symm.trans hpending) (by decide)
  · exact .inl (upto_chunk h hj hsize)

theorem Taken.layout (h : cf.Taken u k) :
    u.Lays cf.header ∧ cf.header.lastSuccessfulChunk + 1 = k := by
  rcases h with h | ⟨j, cf₀, rfl, -, h, rfl⟩
  · exact ⟨h.layout, h.last⟩
  · refine ⟨⟨h.layout.chunkSize, h.layout.lastChunkSize, h.layout.chunks⟩, ?_⟩
    push_cast
    rfl

/-- The next chunk, and the end of the chunks. -/
theorem Taken.next (h : cf.Taken u k) (hk : k ≤ u.chunks) (hsize : u.file.length < 2 ^ 31) :
    cf.header.next = if k < u.chunks then (k : ℤ) else ControlFileHeader.defaultChunkNo := by
  obtain ⟨hlays, hlast⟩ := h.layout
  have hle := u.chunks_le
  have hchunks : toInt cf.header.chunks = u.chunks := by
    rw [hlays.chunks]
    exact toInt_of_lt (by omega) (by omega)
  have hlast' : toInt cf.header.lastSuccessfulChunk = cf.header.lastSuccessfulChunk :=
    toInt_of_lt (by omega) (by omega)
  rw [ControlFileHeader.next, ControlFileHeader.nextChunk, hchunks, hlast', hlast]
  by_cases hlt : k < u.chunks
  · rw [if_neg (by omega), if_pos hlt]
  · rw [if_pos (by omega), if_neg hlt]

end ControlFile

/-! ## The packets, and their answers -/

/-- The call `c` is to be answered, and the client makes `r` more calls up to the end of the loop. -/
inductive Asks (u : Upload) (nextChunk : ℤ) (cf : ControlFile) : Call → ℕ → Prop
  | setInfo (h : cf.Unused) : Asks u nextChunk cf .setInfo (2 * u.chunks + 2)
  | getNextChunk (h : cf.Taken u 0) : Asks u nextChunk cf (.getNextChunk false) (2 * u.chunks + 1)
  | writeCh {k : ℕ} (hk : k < u.chunks) (h : cf.Taken u k) :
    Asks u nextChunk cf (.writeCh (u.chunkAt k)) (2 * (u.chunks - k))
  | pushData {k : ℕ} (hk : k < u.chunks) (h : cf.Taken u k) :
    Asks u nextChunk cf (.pushData (u.chunkAt k)) (2 * (u.chunks - k) - 1)
  | verify (hdone : nextChunk = allChunksAreDone) (h : cf.Taken u u.chunks) :
    Asks u nextChunk cf .verify 0

/-- The call `c` has been answered by `ack`. -/
inductive Answers (u : Upload) (cf : ControlFile) : Call → Acknowledge → ℕ → Prop
  | setInfo (h : cf.Taken u 0) : Answers u cf .setInfo .ackOk (2 * u.chunks + 2)
  | getNextChunk (h : cf.Taken u 0) :
    Answers u cf (.getNextChunk false) (.ackChunk 0) (2 * u.chunks + 1)
  | writeCh {k : ℕ} (hk : k < u.chunks) (h : cf.Taken u k) :
    Answers u cf (.writeCh (u.chunkAt k)) .ackOk (2 * (u.chunks - k))
  | next {k : ℕ} (hk : k + 1 < u.chunks) (h : cf.Taken u (k + 1)) :
    Answers u cf (.pushData (u.chunkAt k)) (.ackChunk (k + 1 : ℕ)) (2 * (u.chunks - k) - 1)
  | last {k : ℕ} (hk : k + 1 = u.chunks) (h : cf.Taken u u.chunks) :
    Answers u cf (.pushData (u.chunkAt k)) (.ackChunk (-1)) 1

section

variable {u : Upload} {cf : ControlFile} {c : Call} {nextChunk : ℤ} {ack : Acknowledge} {r : ℕ}

theorem Asks.intThread (h : Asks u nextChunk cf c r) (hpending : cf.pd.writtenStatus = false)
    (hsize : u.file.length < 2 ^ 31) : Asks u nextChunk (cf.intThread none) c r := by
  cases h with
  | setInfo h => exact absurd (h.written.symm.trans hpending) (by decide)
  | getNextChunk h => exact .getNextChunk (h.intThread hpending hsize)
  | writeCh hk h => exact .writeCh hk (h.intThread hpending hsize)
  | pushData hk h => exact .pushData hk (h.intThread hpending hsize)
  | verify hdone h => exact .verify hdone (h.intThread hpending hsize)

theorem Answers.intThread (h : Answers u cf c ack r) (hpending : cf.pd.writtenStatus = false)
    (hsize : u.file.length < 2 ^ 31) : Answers u (cf.intThread none) c ack r := by
  cases h with
  | setInfo h => exact .setInfo (h.intThread hpending hsize)
  | getNextChunk h => exact .getNextChunk (h.intThread hpending hsize)
  | writeCh hk h => exact .writeCh hk (h.intThread hpending hsize)
  | next hk h => exact .next hk (h.intThread hpending hsize)
  | last hk h => exact .last hk (h.intThread hpending hsize)

theorem Answers.ne_verify (h : Answers u cf c ack r) : c ≠ .verify := by
  rintro rfl
  cases h

theorem Answers.code_ne (h : Answers u cf c ack r) : ack.code ≠ .timeout := by
  cases h <;>
  · rw [Acknowledge.code]
    decide

end

/-! ### The engine -/

namespace Engine

variable {u : Upload} {e : Engine} {o : Outcome} {k r : ℕ}

/-- The number of the next chunk, as the engine gives it. -/
theorem getNextChunk_of_taken (hready : e.processor.state = .ready) (h : e.controlFile.Taken u k)
    (hk : k ≤ u.chunks) (hsize : u.file.length < 2 ^ 31) :
    e.processor.getNextChunk = (if k < u.chunks then (k : ℤ) else -1, .ok) := by
  have hnext := h.next hk hsize
  have hchunks : e.processor.controlFile.header.chunks = u.chunks := h.layout.1.chunks
  have hnext' : e.processor.controlFile.header.next = if k < u.chunks then (k : ℤ) else -1 := hnext
  rw [CANProcessor.getNextChunk, if_pos hready, hnext', hchunks]
  by_cases hlt : k < u.chunks
  · rw [if_pos hlt, if_neg (by omega)]
  · rw [if_neg hlt, if_neg (by omega)]

/-- The file is laid out. -/
theorem receive_setInfo (hready : e.processor.state = .ready) (h : e.controlFile.Unused)
    (hpos : u.file ≠ []) (hsize : u.file.length < 2 ^ 31) (hchunk : u.chunkSize < 2 ^ 16) :
    ∃ cf, e.receive o (.command (.setInfo (.ofNat u.file.length) (.ofNat u.chunkSize))) =
      some (e.withControlFile cf, some .ackOk) ∧ cf.Upto u 0 := by
  obtain ⟨d, hd, -⟩ := h.empty
  have hd' : (e.controlFile.layOut u.file.length u.chunkSize).fs.here = some d := hd
  have hok : ((e.controlFile.layOut u.file.length u.chunkSize).writeControlFile .first).2 = .ok := by
    rw [ControlFile.writeControlFile_of_here hd']
  have hlength : (UInt32.ofNat u.file.length).toNat = u.file.length :=
    UInt32.toNat_ofNat_of_lt' (hsize.trans (by norm_num))
  have hsize' : (UInt16.ofNat u.chunkSize).toNat = u.chunkSize := UInt16.toNat_ofNat_of_lt' hchunk
  have hinit : e.processor.controlFile.initControlFile u.file.length u.chunkSize =
      some ((e.controlFile.layOut u.file.length u.chunkSize).writeControlFile .first) := by
    rw [ControlFile.initControlFile, if_neg (List.length_pos_of_ne_nil hpos).ne',
      if_neg u.chunkSize_pos.ne']
    rfl
  have hpair : (e.controlFile.layOut u.file.length u.chunkSize).writeControlFile .first =
      (((e.controlFile.layOut u.file.length u.chunkSize).writeControlFile .first).1, .ok) := by
    rw [← hok]
  refine ⟨_, ?_, (ControlFile.upto_layOut h hsize (hchunk.trans (by norm_num))).setUpdateStatus
    .uploading⟩
  have hinfo : e.processor.setInfo u.file.length u.chunkSize = some ({ e.processor with
      controlFile := ((e.controlFile.layOut u.file.length u.chunkSize).writeControlFile
        .first).1.setUpdateStatus .uploading }, .ok) := by
    rw [CANProcessor.setInfo, if_neg (not_not.2 hready), hinit, hpair]
    rfl
  simp only [receive, commandHandler, hlength, hsize', hinfo]
  rfl

/-- The engine takes the chunk. -/
theorem receive_sendData (hok : e.controlFile.Upto u k) (hk : k < u.chunks)
    (hsize : u.file.length < 2 ^ 31) : e.receive o (.sendData (u.chunkAt k)) =
      some (e.handOver k (u.chunkAt k), some (e.handOver k (u.chunkAt k)).ackNextChunk) := by
  have hnext : e.controlFile.header.next = (k : ℤ) := by
    have hnext := ControlFile.Taken.next (.inl hok) hk.le hsize
    rwa [if_pos hk] at hnext
  have hne : e.controlFile.header.next ≠ ControlFileHeader.defaultChunkNo := by
    rw [hnext, ControlFileHeader.defaultChunkNo]
    omega
  obtain ⟨j, hwrite, -⟩ := ControlFile.exists_isNext hok.steady.inRange hok.ok hne
  obtain rfl : j = k := by
    have := (ControlFile.writeFile_waits hwrite hne).2
    omega
  simp only [receive, dataHandler, hwrite, hok.written, if_true]

/-- What the engine answers. -/
theorem receive_of_asks {c : Call} {nextChunk : ℤ} {a : Client} {p : Packet}
    (h : Asks u nextChunk e.controlFile c r) (hc : c ≠ .verify) (hp : a.packet u c = some p)
    (hready : e.processor.state = .ready) (hwriting : e.writing = none)
    (hwritten : e.controlFile.pd.writtenStatus = true) (hpos : u.file ≠ [])
    (hsize : u.file.length < 2 ^ 31) :
    ∃ cf ack, e.receive o p = some (e.withControlFile cf, some ack) ∧ Answers u cf c ack r := by
  have hchunk : u.chunkSize < 2 ^ 16 := u.chunkSize_le.trans_lt (by norm_num)
  cases h with
  | setInfo h =>
    obtain ⟨cf, hreceive, hupto⟩ := receive_setInfo (o := o) hready h hpos hsize hchunk
    cases hp
    exact ⟨cf, _, hreceive, .setInfo (.inl hupto)⟩
  | getNextChunk h =>
    cases hp
    refine ⟨e.controlFile, .ackChunk 0, ?_, .getNextChunk h⟩
    have hnext := getNextChunk_of_taken hready h (Nat.zero_le _) hsize
    rw [if_pos (Upload.chunks_pos hpos)] at hnext
    simp only [receive, commandHandler, hnext]
    rfl
  -- the announced size fits in two bytes and is that of the next chunk
  | @writeCh k hk h =>
    cases hp
    refine ⟨e.controlFile, .ackOk, ?_, .writeCh hk h⟩
    have hlen : (UInt16.ofNat (u.chunkAt k).length).toNat = (u.chunkAt k).length := by
      refine UInt16.toNat_ofNat_of_lt' (lt_of_le_of_lt ?_ hchunk)
      exact List.length_take_le _ _
    have hnext : e.processor.controlFile.header.next = (k : ℤ) := by
      have hnext := h.next hk.le hsize
      rwa [if_pos hk] at hnext
    have hcheck := (checkChunkSize_iff hnext).2 (h.layout.1.length_chunkAt hk)
    simp only [receive, commandHandler, hlen, hcheck, if_true]
    rfl
  | @pushData k hk h =>
    have hp' : p = .sendData (u.chunkAt k) := by
      simp only [Client.packet] at hp
      split_ifs at hp
      exact (Option.some.inj hp).symm
    subst hp'
    have htaken : (e.handOver k (u.chunkAt k)).controlFile.Taken u (k + 1) :=
      .inr ⟨k, e.controlFile, rfl, hk, h.upto hwritten, rfl⟩
    have hnext := getNextChunk_of_taken (e := e.handOver k (u.chunkAt k)) hready htaken hk hsize
    have hhandOver : e.handOver k (u.chunkAt k) =
        e.withControlFile (e.controlFile.handOver k (u.chunkAt k)) := by
      rw [handOver, withControlFile, ← hwriting]
    refine ⟨e.controlFile.handOver k (u.chunkAt k), (e.handOver k (u.chunkAt k)).ackNextChunk, ?_, ?_⟩
    · rw [receive_sendData (h.upto hwritten) hk hsize, hhandOver]
    · rw [ackNextChunk, hnext]
      -- the answer to the last chunk has -1 for the number of the next one
      by_cases hlt : k + 1 < u.chunks
      · rw [if_pos hlt]
        exact .next hlt htaken
      · have heq : k + 1 = u.chunks := by omega
        have hr : 2 * (u.chunks - k) - 1 = 1 := by omega
        rw [if_neg hlt, hr]
        exact .last heq (heq ▸ htaken)
  | verify => exact absurd rfl hc

end Engine

/-! ### The client -/

namespace Client

variable {u : Upload} {a : Client} {cf : ControlFile} {c : Call} {ack : Acknowledge} {k r : ℕ}

/-- What an acknowledgement carries is in its buffer. -/
def Keeps (a : Client) (ack : Acknowledge) : Prop := ∀ j, ack = .ackChunk j → a.intBuffer = j

theorem ackHandler_of_waiting {phase : Phase} (hop : a.commandInFly = c.op) (hpc : a.pc = .running c phase)
    (ack : Acknowledge) : (a.ackHandler ack).arrAck c.op = ack.code ∧ (a.ackHandler ack).Keeps ack ∧
      (a.ackHandler ack).pc = .running c phase := by
  refine ⟨?_, fun j hj => ?_, ?_⟩
  · rw [← hop]
    cases ack <;> exact Function.update_self ..
  · subst hj
    rfl
  · cases ack <;> exact hpc

theorem chunkLoop_of_lt (hk : k < u.chunks) (hnext : a.nextChunk = k) (hsize : u.file.length < 2 ^ 31) :
    a.chunkLoop u = .call (.writeCh (u.chunkAt k)) := by
  have hlt := Upload.lt_chunks_iff.1 hk
  have hread : u.readChunk k = u.chunkAt k := by
    have hofs : toUInt (u.chunkSize * k) = k * u.chunkSize := by
      rw [← Nat.cast_mul, toUInt_natCast (by rw [mul_comm]; omega), mul_comm]
    rw [Upload.readChunk, hofs, Upload.chunkAt]
  have hne : u.chunkAt k ≠ [] := by
    have hpos := u.chunkSize_pos
    rw [Upload.chunkAt, ne_eq, List.take_eq_nil_iff, List.drop_eq_nil_iff]
    omega
  have herror : (k : ℤ) ≠ chunkNumberError := by
    rw [chunkNumberError]
    omega
  have hdone : (k : ℤ) ≠ allChunksAreDone := by
    rw [allChunksAreDone]
    omega
  rw [chunkLoop, hnext, if_neg herror, if_neg hdone, hread, if_neg hne]

theorem chunkLoop_of_done (hnext : a.nextChunk = allChunksAreDone) : a.chunkLoop u = .call .verify := by
  rw [chunkLoop, hnext, if_neg (by decide), if_pos rfl]

/-- What the client does next. -/
theorem resume_of_answers (h : Answers u cf c ack r) (hkeeps : a.Keeps ack) (hpos : u.file ≠ [])
    (hsize : u.file.length < 2 ^ 31) : ∃ b n, a.resume u c ack.code = (b, .call n) ∧
      ∃ r', r' + 1 = r ∧ Asks u b.nextChunk cf n r' := by
  cases h with
  | setInfo h => exact ⟨_, _, rfl, _, rfl, .getNextChunk h⟩
  | getNextChunk h =>
    have hchunks := Upload.chunks_pos hpos
    have hbuf : a.intBuffer = (0 : ℕ) := hkeeps 0 rfl
    have hnext := chunkLoop_of_lt (a := { a with
      commandInFly := .noCommand, nextChunk := a.intBuffer, errCount := 0 }) hchunks hbuf hsize
    refine ⟨{ a with commandInFly := .noCommand, nextChunk := a.intBuffer, errCount := 0 },
      .writeCh (u.chunkAt 0), ?_, _, ?_, .writeCh hchunks h⟩
    · simp only [resume, Acknowledge.code, afterGetNextChunk, Bool.not_false, if_true]
      rw [hnext]
    · rw [Nat.sub_zero]
  | @writeCh k hk h =>
    have hleft : 2 * (u.chunks - k) - 1 + 1 = 2 * (u.chunks - k) := by omega
    exact ⟨_, _, rfl, _, hleft, .pushData hk h⟩
  | @next k hk h =>
    have hbuf : a.intBuffer = (k + 1 : ℕ) := hkeeps _ rfl
    have hnext := chunkLoop_of_lt (a := { a with
      commandInFly := .noCommand, nextChunk := a.intBuffer }) hk hbuf hsize
    refine ⟨{ a with commandInFly := .noCommand, nextChunk := a.intBuffer },
      .writeCh (u.chunkAt (k + 1)), ?_, _, ?_, .writeCh hk h⟩
    · simp only [resume, Acknowledge.code, afterPushData, if_true]
      rw [hnext]
    · omega
  | @last k hk h =>
    have hbuf : a.intBuffer = allChunksAreDone := hkeeps _ rfl
    have hnext := chunkLoop_of_done (u := u) (a := { a with
      commandInFly := .noCommand, nextChunk := a.intBuffer }) hbuf
    refine ⟨{ a with commandInFly := .noCommand, nextChunk := a.intBuffer }, .verify, ?_, _, rfl,
      .verify ?_ h⟩
    · simp only [resume, Acknowledge.code, afterPushData, if_true]
      rw [hnext]
    · exact hbuf

/-- Every call of an upload has a packet. -/
theorem packet_of_asks {nextChunk : ℤ} (h : Asks u nextChunk cf c r) (a : Client)
    (hchunk : u.chunkSize ≤ Can.maxLogicalPacket) : ∃ p, a.packet u c = some p := by
  cases h with
  | @pushData k hk h =>
    have hle : (u.chunkAt k).length ≤ Can.maxLogicalPacket := (List.length_take_le _ _).trans hchunk
    exact ⟨_, if_pos hle⟩
  | _ => exact ⟨_, rfl⟩

end Client

/-! ## The session -/

/-- The steps that the thread takes before it has the result of its call. -/
def Pc.left : Pc → ℕ
  | .running _ .sent => 2
  | .running _ .waiting => 1
  | _ => 0

namespace Session

variable {u : Upload} {s s' : Session} {r : ℕ}

/-- The loop over the chunks is over. -/
def loopOver (s : Session) : Bool :=
  match s.client.pc with
  | .running .verify _ => true
  | _ => false

/-- Nothing is lost, acknowledgements arrive while the client waits for them, and each chunk is
    stored before the next packet is taken. The run ends with the loop. -/
def faultFree (s : Session) : Action → Bool
  | .client =>
    match s.client.pc with
    | .running .verify _ => false
    | .running c .waiting => s.client.arrAck c.op ≠ .timeout
    | _ => true
  | .acknowledge =>
    match s.client.pc with
    | .running _ .waiting => true
    | _ => false
  | .receive _ => !s.loopOver && s.engine.controlFile.pd.writtenStatus
  | .writer fault => fault.isNone
  | .losePacket _ => false
  | .loseAcknowledge _ => false
  | _ => true

/-- Where the packet of the current call is, or its acknowledgement. -/
inductive Place (u : Upload) (s : Session) (r : ℕ) : Prop
  | asked {c : Call} {phase : Phase} {n : ℕ} {p : Packet} (hpc : s.client.pc = .running c phase)
    (hphase : phase = .sent ∨ phase = .waiting ∧ s.client.arrAck c.op = .timeout)
    (hpacket : s.client.packet u c = some p) (hop : s.client.commandInFly = c.op)
    (hrequests : s.link.requests = [(n, p)]) (hserving : s.link.serving = none)
    (hanswers : s.link.answers = []) (h : Asks u s.client.nextChunk s.engine.controlFile c r)
  | answered {c : Call} {phase : Phase} {n : ℕ} {ack : Acknowledge}
    (hpc : s.client.pc = .running c phase)
    (hphase : phase = .sent ∨ phase = .waiting ∧ s.client.arrAck c.op = .timeout)
    (hop : s.client.commandInFly = c.op) (hrequests : s.link.requests = [])
    (hserving : s.link.serving = none) (hanswers : s.link.answers = [(n, ack)])
    (h : Answers u s.engine.controlFile c ack r)
  | arrived {c : Call} {ack : Acknowledge} (hpc : s.client.pc = .running c .waiting)
    (hidle : s.link.Idle) (hcode : s.client.arrAck c.op = ack.code) (hkeeps : s.client.Keeps ack)
    (h : Answers u s.engine.controlFile c ack r)
  | returned {c : Call} {ack : Acknowledge} (hpc : s.client.pc = .running c (.returned ack.code))
    (hidle : s.link.Idle) (hkeeps : s.client.Keeps ack) (h : Answers u s.engine.controlFile c ack r)

/-- The upload goes on, with `r` more calls. -/
structure Going (u : Upload) (s : Session) (r : ℕ) : Prop where
  place : s.Place u r
  ready : s.engine.processor.state = .ready
  writing : s.engine.writing = none
  scripts : ∀ t ∈ s.engine.processor.scripts, t = .runPowerOn

/-- No more than so many steps are left. -/
def size (s : Session) (r : ℕ) : ℕ :=
  7 * r + s.client.pc.left + 3 * s.link.requests.length + s.link.answers.length +
    (if s.engine.controlFile.pd.writtenStatus then 0 else 1) + s.engine.processor.scripts.length

/-- The upload still goes on, and is closer to its end. -/
def Advances (u : Upload) (s : Session) (r : ℕ) (s' : Session) : Prop :=
  ∃ r', s'.Going u r' ∧ s'.link.sent + r' = s.link.sent + r ∧ s'.size r' < s.size r

theorem packet_congr {a b : Client} (c : Call) (h : b.previousVersion = a.previousVersion) :
    b.packet u c = a.packet u c := by
  cases c with
  | remove use => cases use <;> simp only [Client.packet, h]
  | _ => rfl

theorem code_of_faultFree {c : Call} (hpc : s.client.pc = .running c .waiting)
    (hC : s.faultFree .client = true) : s.client.arrAck c.op ≠ .timeout := by
  simp only [faultFree, hpc] at hC
  split at hC
  · cases hC
  · rename_i heq
    cases heq
    exact of_decide_eq_true hC
  · rename_i hne
    exact absurd rfl (hne c)

/-- A step before `WaitForAck` has returned: the code is reset. -/
theorem steps_of_sent {c : Call} {phase : Phase} {a : Client} {call : Option Call}
    (hpc : s.client.pc = .running c phase)
    (hphase : phase = .sent ∨ phase = .waiting ∧ s.client.arrAck c.op = .timeout)
    (hC : s.faultFree .client = true) (hsteps : Client.Steps u s.client a call) :
    phase = .sent ∧ call = none ∧ a = { s.client with
      arrAck := Function.update s.client.arrAck c.op .timeout, pc := .running c .waiting } := by
  cases hsteps with
  | start hpc' => cases hpc.symm.trans hpc'
  | wait hpc' =>
    cases hpc.symm.trans hpc'
    exact ⟨rfl, rfl, rfl⟩
  | ret hpc' =>
    cases hpc.symm.trans hpc'
    rcases hphase with hphase | ⟨-, hcode⟩
    · cases hphase
    · exact absurd hcode (code_of_faultFree hpc hC)
  | call hpc' hres =>
    cases hpc.symm.trans hpc'
    rcases hphase with hphase | ⟨hphase, -⟩ <;> cases hphase
  | exit hpc' hres =>
    cases hpc.symm.trans hpc'
    rcases hphase with hphase | ⟨hphase, -⟩ <;> cases hphase

theorem advances_client (h : s.Going u r) (hC : s.faultFree .client = true)
    (hstep : s.step u .client = some s') (hpos : u.file ≠ []) (hsize : u.file.length < 2 ^ 31)
    (hchunk : u.chunkSize ≤ Can.maxLogicalPacket) : Advances u s r s' := by
  obtain ⟨⟨a, call⟩, hclient, rfl⟩ := Option.map_eq_some_iff.1 hstep
  have hsteps := Client.steps_of_step hclient
  rcases h.place with ⟨hpc, hphase, hpacket, hop, hrequests, hserving, hanswers, hasks⟩ |
    ⟨hpc, hphase, hop, hrequests, hserving, hanswers, hanswered⟩ |
    ⟨hpc, hidle, hcode, hkeeps, hanswered⟩ | ⟨hpc, hidle, hkeeps, hanswered⟩
  · obtain ⟨rfl, rfl, rfl⟩ := steps_of_sent hpc hphase hC hsteps
    refine ⟨r, ⟨.asked rfl (.inr ⟨rfl, Function.update_self ..⟩) ?_ hop hrequests hserving hanswers hasks,
      h.ready, h.writing, h.scripts⟩, rfl, ?_⟩
    · rw [← hpacket]
      exact packet_congr _ rfl
    · simp only [size, hpc, Pc.left]
      omega
  · obtain ⟨rfl, rfl, rfl⟩ := steps_of_sent hpc hphase hC hsteps
    refine ⟨r, ⟨.answered rfl (.inr ⟨rfl, Function.update_self ..⟩) hop hrequests hserving hanswers
      hanswered, h.ready, h.writing, h.scripts⟩, rfl, ?_⟩
    simp only [size, hpc, Pc.left]
    omega
  · -- `WaitForAck` returns the acknowledgement
    cases hsteps with
    | ret hpc' =>
      cases hpc.symm.trans hpc'
      refine ⟨r, ⟨.returned (by rw [← hcode]) hidle hkeeps hanswered, h.ready, h.writing, h.scripts⟩,
        rfl, ?_⟩
      simp only [size, hpc, Pc.left]
      omega
    | start hpc' => cases hpc.symm.trans hpc'
    | wait hpc' => cases hpc.symm.trans hpc'
    | call hpc' hres => cases hpc.symm.trans hpc'
    | exit hpc' hres => cases hpc.symm.trans hpc'
  · obtain ⟨b, n, hres, r', rfl, hasks⟩ := Client.resume_of_answers hanswered hkeeps hpos hsize
    cases hsteps with
    | call hpc' hres' =>
      cases hpc.symm.trans hpc'
      cases hres.symm.trans hres'
      obtain ⟨p, hpacket⟩ := Client.packet_of_asks hasks (b.perform n) hchunk
      have hlink : s.link.send ((b.perform n).packet u n) =
          { s.link with sent := s.link.sent + 1, requests := [(s.link.sent + 1, p)] } := by
        rw [hpacket, Exchange.send, hidle.requests]
        rfl
      show Advances u s (r' + 1)
        { s with client := b.perform n, link := s.link.send ((b.perform n).packet u n) }
      rw [hlink]
      refine ⟨r', ⟨.asked rfl (.inl rfl) hpacket rfl rfl hidle.serving hidle.answers hasks, h.ready,
        h.writing, h.scripts⟩, Nat.add_right_comm .., ?_⟩
      simp only [size, hpc, Pc.left, hidle.requests, hidle.answers, Client.perform, List.length_cons,
        List.length_nil]
      omega
    | start hpc' => cases hpc.symm.trans hpc'
    | wait hpc' => cases hpc.symm.trans hpc'
    | ret hpc' => cases hpc.symm.trans hpc'
    | exit hpc' hres' =>
      cases hpc.symm.trans hpc'
      cases hres.symm.trans hres'

theorem advances_acknowledge (h : s.Going u r) (hC : s.faultFree .acknowledge = true)
    (hstep : s.step u .acknowledge = some s') : Advances u s r s' := by
  obtain ⟨⟨⟨m, ack'⟩, link⟩, hreceive, rfl⟩ := Option.map_eq_some_iff.1 hstep
  obtain ⟨l, hl, rfl⟩ := Exchange.receive_eq_some.1 hreceive
  rcases h.place with ⟨hpc, hphase, hpacket, hop, hrequests, hserving, hanswers, hasks⟩ |
    ⟨hpc, hphase, hop, hrequests, hserving, hanswers, hanswered⟩ |
    ⟨hpc, hidle, hcode, hkeeps, hanswered⟩ | ⟨hpc, hidle, hkeeps, hanswered⟩
  · cases hl.symm.trans hanswers
  · cases hl.symm.trans hanswers
    rcases hphase with rfl | ⟨rfl, -⟩
    · simp only [faultFree, hpc, Bool.false_eq_true] at hC
    obtain ⟨hcode, hkeeps, hpc'⟩ := Client.ackHandler_of_waiting hop hpc ack'
    refine ⟨r, ⟨.arrived hpc' ⟨hrequests, hserving, rfl⟩ hcode hkeeps hanswered, h.ready, h.writing,
      h.scripts⟩, rfl, ?_⟩
    simp only [size, hpc, hpc', Pc.left, hanswers, List.length_cons, List.length_nil]
    omega
  · cases hl.symm.trans hidle.answers
  · cases hl.symm.trans hidle.answers

theorem advances_receive {o : Outcome} (h : s.Going u r) (hC : s.faultFree (.receive o) = true)
    (hstep : s.step u (.receive o) = some s') (hpos : u.file ≠ []) (hsize : u.file.length < 2 ^ 31) :
    Advances u s r s' := by
  obtain ⟨⟨q, link⟩, htake, htaken⟩ := Option.bind_eq_some_iff.1 hstep
  obtain ⟨⟨e, reply⟩, hreceive, rfl⟩ := Option.map_eq_some_iff.1 htaken
  obtain ⟨m, l, -, hl, rfl⟩ := Exchange.take_eq_some.1 htake
  obtain ⟨hloop, hwritten⟩ := Bool.and_eq_true_iff.1 hC
  rcases h.place with ⟨hpc, hphase, hpacket, hop, hrequests, hserving, hanswers, hasks⟩ |
    ⟨hpc, hphase, hop, hrequests, hserving, hanswers, hanswered⟩ |
    ⟨hpc, hidle, hcode, hkeeps, hanswered⟩ | ⟨hpc, hidle, hkeeps, hanswered⟩
  · have hne : ∀ c phase, s.client.pc = .running c phase → c ≠ .verify := by
      rintro c phase hpc rfl
      simp only [loopOver, hpc, Bool.not_true] at hloop
      cases hloop
    cases hl.symm.trans hrequests
    obtain ⟨cf, ack, heq, hanswered⟩ := Engine.receive_of_asks (o := o) hasks (hne _ _ hpc) hpacket h.ready
      h.writing hwritten hpos hsize
    cases heq.symm.trans hreceive
    refine ⟨r, ⟨.answered (n := m) hpc hphase hop rfl rfl ?_ hanswered, h.ready, h.writing, h.scripts⟩,
      rfl, ?_⟩
    · simp only [answer, Exchange.answer, hanswers]
      rfl
    · have hpending : (if cf.pd.writtenStatus then 0 else 1) ≤ 1 := by split_ifs <;> decide
      simp only [size, answer, Exchange.answer, hanswers, hrequests, Engine.withControlFile,
        Engine.controlFile, List.length_cons, List.length_nil, Option.toList_some, List.map_cons,
        List.map_nil, List.nil_append]
      omega
  · cases hl.symm.trans hrequests
  · cases hl.symm.trans hidle.requests
  · cases hl.symm.trans hidle.requests

theorem advances_writer {fault : Option WriteFault} (h : s.Going u r)
    (hC : s.faultFree (.writer fault) = true) (hstep : s.step u (.writer fault) = some s')
    (hsize : u.file.length < 2 ^ 31) : Advances u s r s' := by
  obtain rfl : fault = none := Option.isNone_iff_eq_none.1 hC
  obtain ⟨e, hwriter, rfl⟩ := Option.map_eq_some_iff.1 hstep
  unfold Engine.writerStep at hwriter
  split_ifs at hwriter with hwritten
  obtain rfl := Option.some.inj hwriter
  have hpending : s.engine.controlFile.pd.writtenStatus = false := by simpa using hwritten
  refine ⟨r, ⟨?_, h.ready, h.writing, h.scripts⟩, rfl, ?_⟩
  · rcases h.place with ⟨hpc, hphase, hpacket, hop, hrequests, hserving, hanswers, hasks⟩ |
      ⟨hpc, hphase, hop, hrequests, hserving, hanswers, hanswered⟩ |
      ⟨hpc, hidle, hcode, hkeeps, hanswered⟩ | ⟨hpc, hidle, hkeeps, hanswered⟩
    · exact .asked hpc hphase hpacket hop hrequests hserving hanswers (hasks.intThread hpending hsize)
    · exact .answered hpc hphase hop hrequests hserving hanswers (hanswered.intThread hpending hsize)
    · exact .arrived hpc hidle hcode hkeeps (hanswered.intThread hpending hsize)
    · exact .returned hpc hidle hkeeps (hanswered.intThread hpending hsize)
  · have hdone : (s.engine.withControlFile
        (s.engine.controlFile.intThread none)).controlFile.pd.writtenStatus = true := rfl
    simp only [size, hdone, hpending, if_true, Bool.false_eq_true, if_false]
    exact Nat.lt_of_lt_of_eq (Nat.lt_succ_self _) (by
      simp only [Engine.withControlFile]
      omega)

theorem advances_script {i : ℕ} (h : s.Going u r) (hstep : s.step u (.script i) = some s') :
    Advances u s r s' := by
  obtain ⟨p, hp, rfl⟩ := Option.map_eq_some_iff.1 hstep
  cases hi : s.engine.processor.scripts[i]? with
  | none =>
    simp only [CANProcessor.scriptStep, hi] at hp
    cases hp
  | some t =>
    obtain rfl := h.scripts t (List.mem_of_getElem? hi)
    simp only [CANProcessor.scriptStep, hi] at hp
    obtain rfl := Option.some.inj hp
    obtain ⟨hlt, -⟩ := List.getElem?_eq_some_iff.1 hi
    refine ⟨r, ⟨?_, rfl, h.writing, fun t ht => h.scripts t (List.mem_of_mem_eraseIdx ht)⟩, rfl, ?_⟩
    · rcases h.place with ⟨hpc, hphase, hpacket, hop, hrequests, hserving, hanswers, hasks⟩ |
        ⟨hpc, hphase, hop, hrequests, hserving, hanswers, hanswered⟩ |
        ⟨hpc, hidle, hcode, hkeeps, hanswered⟩ | ⟨hpc, hidle, hkeeps, hanswered⟩
      · exact .asked hpc hphase hpacket hop hrequests hserving hanswers hasks
      · exact .answered hpc hphase hop hrequests hserving hanswers hanswered
      · exact .arrived hpc hidle hcode hkeeps hanswered
      · exact .returned hpc hidle hkeeps hanswered
    · have hlen := List.length_eraseIdx_of_lt hlt
      have hscripts : (s.engine.withProcessor { s.engine.processor with
          state := .ready
          scripts := s.engine.processor.scripts.eraseIdx i }).processor.scripts =
            s.engine.processor.scripts.eraseIdx i := rfl
      simp only [size, hscripts, hlen]
      show _ + (if s.engine.controlFile.pd.writtenStatus then 0 else 1) + _ < _
      omega

theorem advances_step {a : Action} (h : s.Going u r) (hC : s.faultFree a = true)
    (hstep : s.step u a = some s') (hpos : u.file ≠ []) (hsize : u.file.length < 2 ^ 31)
    (hchunk : u.chunkSize ≤ Can.maxLogicalPacket) : Advances u s r s' := by
  cases a with
  | client => exact advances_client h hC hstep hpos hsize hchunk
  | acknowledge => exact advances_acknowledge h hC hstep
  | receive o => exact advances_receive h hC hstep hpos hsize
  | finishWrite =>
    obtain ⟨⟨e, ack⟩, hfinish, -⟩ := Option.map_eq_some_iff.1 hstep
    simp only [Engine.finishWrite, h.writing] at hfinish
    cases hfinish
  | writer fault => exact advances_writer h hC hstep hsize
  | script i => exact advances_script h hstep
  | scriptStatus i v done =>
    obtain ⟨p, hp, -⟩ := Option.map_eq_some_iff.1 hstep
    unfold CANProcessor.scriptStatus at hp
    split at hp
    · rename_i hi
      cases h.scripts _ (List.mem_of_getElem? hi)
    · cases hp
  | losePacket i => cases hC
  | loseAcknowledge i => cases hC

/-! ## Runs -/

/-- Some step is possible that no fault comes from. -/
def GoesOn (u : Upload) (s : Session) : Prop :=
  ∃ a s', s.faultFree a = true ∧ s.step u a = some s'

theorem goesOn_of_isSome (a : Action) (hC : s.faultFree a = true) (h : (s.step u a).isSome = true) :
    s.GoesOn u :=
  (Option.isSome_iff_exists.1 h).elim fun s' hs' => ⟨a, s', hC, hs'⟩

theorem faultFree_client {c : Call} {phase : Phase} (hpc : s.client.pc = .running c phase)
    (hc : c ≠ .verify) (hphase : phase ≠ .waiting ∨ s.client.arrAck c.op ≠ .timeout) :
    s.faultFree .client = true := by
  unfold faultFree
  rw [hpc]
  dsimp only
  split
  · rename_i heq
    cases heq
    exact absurd rfl hc
  · rename_i heq
    cases heq
    exact decide_eq_true (hphase.resolve_left fun h => h rfl)
  · rfl

/-- As long as the loop is not over and the last chunk not stored, some step is possible. -/
theorem goesOn_or_over (h : s.Going u r) (hpos : u.file ≠ []) (hsize : u.file.length < 2 ^ 31) :
    (s.loopOver = true ∧ s.engine.controlFile.pd.writtenStatus = true) ∨ s.GoesOn u := by
  cases hwritten : s.engine.controlFile.pd.writtenStatus with
  | false =>
    refine .inr (goesOn_of_isSome (.writer none) rfl ?_)
    simp only [step, Engine.writerStep, hwritten, Bool.false_eq_true, if_false, Option.map_some,
      Option.isSome_some]
  | true =>
    rcases h.place with @⟨c, _, _, _, hpc, hphase, hpacket, hop, hrequests, hserving, hanswers, hasks⟩ |
      ⟨hpc, hphase, hop, hrequests, hserving, hanswers, hanswered⟩ |
      ⟨hpc, hidle, hcode, hkeeps, hanswered⟩ | ⟨hpc, hidle, hkeeps, hanswered⟩
    · by_cases hc : c = .verify
      · refine .inl ⟨?_, rfl⟩
        unfold loopOver
        rw [hpc, hc]
      · -- the engine is free to take the packet
        obtain ⟨cf, ack, hreceive, -⟩ := Engine.receive_of_asks (o := ⟨fun _ => false, true, 0⟩) hasks
          hc hpacket h.ready h.writing hwritten hpos hsize
        have hloop : s.loopOver = false := by
          unfold loopOver
          rw [hpc]
          cases c with
          | verify => exact absurd rfl hc
          | _ => rfl
        refine .inr (goesOn_of_isSome (.receive ⟨fun _ => false, true, 0⟩) ?_ ?_)
        · simp only [faultFree, hloop, hwritten, Bool.not_false, Bool.and_self]
        · simp only [step, Exchange.take, hserving, hrequests, Option.bind_some, hreceive,
            Option.map_some, Option.isSome_some]
    · refine .inr ?_
      rcases hphase with rfl | ⟨rfl, -⟩
      · refine goesOn_of_isSome .client (faultFree_client hpc hanswered.ne_verify (.inl fun h => by cases h)) ?_
        simp only [step, Client.step, hpc, Option.map_some, Option.isSome_some]
      · refine goesOn_of_isSome .acknowledge ?_ ?_
        · unfold faultFree
          rw [hpc]
        · simp only [step, Exchange.receive, hanswers, Option.map_some, Option.isSome_some]
    · refine .inr (goesOn_of_isSome .client (faultFree_client hpc hanswered.ne_verify (.inr ?_)) ?_)
      · rw [hcode]
        exact hanswered.code_ne
      · simp only [step, Client.step, hpc, Option.map_some, Option.isSome_some]
    · obtain ⟨b, n, hres, -⟩ := Client.resume_of_answers hanswered hkeeps hpos hsize
      refine .inr (goesOn_of_isSome .client (faultFree_client hpc hanswered.ne_verify (.inl fun h => by cases h)) ?_)
      simp only [step, Client.step, hpc, hres, Option.map_some, Option.isSome_some]

/-- The end of the loop. -/
theorem Going.loopOver (h : s.Going u r) (hover : s.loopOver = true) :
    r = 0 ∧ s.client.nextChunk = allChunksAreDone ∧ s.engine.controlFile.Taken u u.chunks := by
  have hverify {c : Call} {phase : Phase} (hpc : s.client.pc = .running c phase) : c = .verify := by
    simp only [Session.loopOver, hpc] at hover
    split at hover
    · rename_i heq
      cases heq
      rfl
    · cases hover
  rcases h.place with ⟨hpc, hphase, hpacket, hop, hrequests, hserving, hanswers, hasks⟩ |
    ⟨hpc, hphase, hop, hrequests, hserving, hanswers, hanswered⟩ |
    ⟨hpc, hidle, hcode, hkeeps, hanswered⟩ | ⟨hpc, hidle, hkeeps, hanswered⟩
  · obtain rfl := hverify hpc
    cases hasks with
    | verify hdone htaken => exact ⟨rfl, hdone, htaken⟩
  all_goals
    obtain rfl := hverify hpc
    cases hanswered

/-- The file has been laid out by the client, and the engine, that is ready, has an empty directory
    for it. -/
structure Starts (u : Upload) (s : Session) : Prop where
  pc : s.client.pc = .running .setInfo .sent
  commandInFly : s.client.commandInFly = .initTransfer
  requests : ∃ n, s.link.requests =
    [(n, .command (.setInfo (.ofNat u.file.length) (.ofNat u.chunkSize)))]
  serving : s.link.serving = none
  answers : s.link.answers = []
  unused : s.engine.controlFile.Unused
  ready : s.engine.processor.state = .ready
  writing : s.engine.writing = none
  scripts : ∀ t ∈ s.engine.processor.scripts, t = .runPowerOn

theorem Starts.going (h : s.Starts u) : s.Going u (2 * u.chunks + 2) := by
  obtain ⟨n, hrequests⟩ := h.requests
  exact ⟨.asked h.pc (.inl rfl) rfl h.commandInFly hrequests h.serving h.answers (.setInfo h.unused),
    h.ready, h.writing, h.scripts⟩

/-- The engine has the file. -/
structure Complete (u : Upload) (s t : Session) : Prop where
  /-- The client has asked for the first chunk, sent two packets for each chunk, and goes on with the
      check of the image. -/
  sent : t.link.sent = s.link.sent + (2 * u.chunks + 2)
  handed : t.engine.controlFile.pd.handed = ControlFile.numbered u u.chunks
  nextChunk : t.client.nextChunk = allChunksAreDone
  getNextChunk : t.engine.processor.getNextChunk = (allChunksAreDone, .ok)
  image : t.engine.controlFile.image = some u.file
  controlFile : ∃ x, x ≠ .none ∧ (t.engine.controlFile.readControlFile x).2 = .ok ∧
    (t.engine.controlFile.readControlFile x).1.header.lastSuccessfulChunk + 1 = u.chunks

/-- The upload of the file comes to its end in all runs without faults from `s`. -/
structure Completes (u : Upload) (s : Session) : Prop where
  ends : ∃ n, ∀ l t, Transition.Meets (step u) (fun s a => s.faultFree a = true) s l →
    Transition.run (step u) s l = some t → l.length ≤ n
  goesOn : ∀ l t, Transition.Meets (step u) (fun s a => s.faultFree a = true) s l →
    Transition.run (step u) s l = some t →
    (t.loopOver = true ∧ t.engine.controlFile.pd.writtenStatus = true) ∨ t.GoesOn u
  checked : ∀ l t n buf, Transition.Meets (step u) (fun s a => s.faultFree a = true) s l →
    Transition.run (step u) s l = some t → (n, .sendData buf) ∈ t.link.requests →
    t.engine.processor.checkChunkSize buf.length = true
  complete : ∀ l t, Transition.Meets (step u) (fun s a => s.faultFree a = true) s l →
    Transition.run (step u) s l = some t → t.loopOver = true →
    t.engine.controlFile.pd.writtenStatus = true → Complete u s t

section

variable {l : List Action} {t : Session}

/-- At every point of a run the upload goes on, and the calls and the steps left are bounded. -/
theorem going_of_run (h : s.Going u r) (hpos : u.file ≠ []) (hsize : u.file.length < 2 ^ 31)
    (hchunk : u.chunkSize ≤ Can.maxLogicalPacket)
    (hmeets : Transition.Meets (step u) (fun s a => s.faultFree a = true) s l)
    (hrun : Transition.run (step u) s l = some t) :
    ∃ r', t.Going u r' ∧ t.link.sent + r' = s.link.sent + r ∧ l.length ≤ s.size r := by
  have hJ : ∀ (s₁ : Session) (a : Action) (s₂ : Session) (n : ℕ), (∃ r', s₁.Going u r' ∧ s₁.link.sent + r' = s.link.sent + r ∧ n = s₁.size r') →
      s₁.faultFree a = true → s₁.step u a = some s₂ →
      ∃ n' < n, ∃ r', s₂.Going u r' ∧ s₂.link.sent + r' = s.link.sent + r ∧ n' = s₂.size r' := by
    rintro s₁ a s₂ n ⟨r', hgoing, hsent, rfl⟩ hC hstep
    obtain ⟨r'', hgoing', hsent', hlt⟩ := advances_step hgoing hC hstep hpos hsize hchunk
    exact ⟨_, hlt, r'', hgoing', hsent'.trans hsent, rfl⟩
  obtain ⟨n, ⟨r', hgoing, hsent, -⟩, hle⟩ :=
    Transition.length_le_of_meets hJ ⟨r, h, rfl, rfl⟩ hmeets hrun
  exact ⟨r', hgoing, hsent, by omega⟩

/-- Data packets have the size of the chunk that they are. -/
theorem Going.checked (h : s.Going u r) (hsize : u.file.length < 2 ^ 31) {n : ℕ} {buf : List UInt8}
    (hmem : (n, .sendData buf) ∈ s.link.requests) :
    s.engine.processor.checkChunkSize buf.length = true := by
  rcases h.place with ⟨hpc, hphase, hpacket, hop, hrequests, hserving, hanswers, hasks⟩ |
    ⟨hpc, hphase, hop, hrequests, hserving, hanswers, hanswered⟩ |
    ⟨hpc, hidle, hcode, hkeeps, hanswered⟩ | ⟨hpc, hidle, hkeeps, hanswered⟩
  · rw [hrequests, List.mem_singleton] at hmem
    cases hmem
    cases hasks with
    | @pushData k hk htaken =>
      have hbuf : buf = u.chunkAt k := by
        simp only [Client.packet] at hpacket
        split_ifs at hpacket
        cases hpacket
        rfl
      have hnext := htaken.next hk.le hsize
      rw [if_pos hk] at hnext
      rw [hbuf]
      exact (Engine.checkChunkSize_iff hnext).2 (htaken.layout.1.length_chunkAt hk)
    | _ => cases hpacket
  · rw [hrequests] at hmem
    exact absurd hmem List.not_mem_nil
  · rw [hidle.requests] at hmem
    exact absurd hmem List.not_mem_nil
  · rw [hidle.requests] at hmem
    exact absurd hmem List.not_mem_nil

/-- All but the size of the control file. -/
theorem completes_of_fits (h : s.Starts u) (hpos : u.file ≠ []) (hsize : u.file.length < 2 ^ 31)
    (hchunk : u.chunkSize ≤ Can.maxLogicalPacket)
    (hfits : ControlFileHeader.size + 32 * (u.chunks + 1) < 2 ^ 32) : Completes u s where
  ends := ⟨_, fun l t hmeets hrun =>
    (going_of_run h.going hpos hsize hchunk hmeets hrun).choose_spec.2.2⟩
  goesOn l t hmeets hrun := by
    obtain ⟨r', hgoing, -⟩ := going_of_run h.going hpos hsize hchunk hmeets hrun
    exact goesOn_or_over hgoing hpos hsize
  checked l t n buf hmeets hrun hmem := by
    obtain ⟨r', hgoing, -⟩ := going_of_run h.going hpos hsize hchunk hmeets hrun
    exact hgoing.checked hsize hmem
  complete l t hmeets hrun hover hwritten := by
    obtain ⟨r', hgoing, hsent, -⟩ := going_of_run h.going hpos hsize hchunk hmeets hrun
    obtain ⟨rfl, hdone, htaken⟩ := hgoing.loopOver hover
    have hupto := htaken.upto hwritten
    have hnext := Engine.getNextChunk_of_taken hgoing.ready htaken le_rfl hsize
    rw [if_neg (lt_irrefl _)] at hnext
    exact ⟨by rw [← hsent, Nat.add_zero], hupto.handed, hdone, hnext, hupto.image_eq hpos,
      (hupto.readControlFile_iff (Upload.chunks_pos hpos)).2 hfits⟩

/-- Some run without faults comes to the end, and leaves a control file that has to be taken. -/
theorem fits_of_completes (h : s.Starts u) (hpos : u.file ≠ []) (hsize : u.file.length < 2 ^ 31)
    (hchunk : u.chunkSize ≤ Can.maxLogicalPacket) (hcompletes : Completes u s) :
    ControlFileHeader.size + 32 * (u.chunks + 1) < 2 ^ 32 := by
  have hJ : ∀ (s₁ : Session) (a : Action) (s₂ : Session) (n : ℕ), (∃ r', s₁.Going u r' ∧ n = s₁.size r') → s₁.faultFree a = true →
      s₁.step u a = some s₂ → ∃ n' < n, ∃ r', s₂.Going u r' ∧ n' = s₂.size r' := by
    rintro s₁ a s₂ n ⟨r', hgoing, rfl⟩ hC hstep
    obtain ⟨r'', hgoing', -, hlt⟩ := advances_step hgoing hC hstep hpos hsize hchunk
    exact ⟨_, hlt, r'', hgoing', rfl⟩
  obtain ⟨l, t, hmeets, hrun, hover, hwritten⟩ := Transition.exists_run_of_variant
    (G := fun s => s.loopOver = true ∧ s.engine.controlFile.pd.writtenStatus = true) (s := s) hJ
    (fun s₁ n ⟨r', hgoing, _⟩ => goesOn_or_over hgoing hpos hsize) ⟨_, h.going, rfl⟩
  obtain ⟨r', hgoing, -⟩ := going_of_run h.going hpos hsize hchunk hmeets hrun
  obtain ⟨-, -, htaken⟩ := hgoing.loopOver hover
  exact ((htaken.upto hwritten).readControlFile_iff (Upload.chunks_pos hpos)).1
    (hcompletes.complete l t hmeets hrun hover hwritten).controlFile

end

/-! ## An empty directory -/

/-- The files of an engine with an empty directory for the version. -/
def emptyDir (version : String) : FileSystem where
  dirs := Function.update (fun _ => none) (.version version) (some .empty)
  versionFile := some version
  cwd := .version version

theorem here_emptyDir (version : String) : (emptyDir version).here = some .empty := by
  simp only [FileSystem.here, emptyDir, Function.update_self]

/-- The layout is on the way to an engine that has an empty directory for the version. -/
def starting (u : Upload) : Session where
  client := Client.fresh.perform .setInfo
  engine := {
    processor := {
      controlFile := ControlFile.new ⟨[], 0, .ok, -1, true, []⟩ (emptyDir u.version)
      state := .ready
      scripts := [] }
    writing := none }
  link := {
    sent := 1
    requests := [(1, .command (.setInfo (.ofNat u.file.length) (.ofNat u.chunkSize)))]
    serving := none
    answers := [] }

theorem starts_starting (u : Upload) : (starting u).Starts u where
  pc := rfl
  commandInFly := rfl
  requests := ⟨1, rfl⟩
  serving := rfl
  answers := rfl
  unused := {
    empty := ⟨.empty, here_emptyDir _, fun _ => rfl⟩
    written := rfl
    ok := rfl
    handed := rfl }
  ready := rfl
  writing := rfl
  scripts := fun _ ht => absurd ht List.not_mem_nil

/-- A file of `2 ^ 27` bytes in chunks of one byte each: its control file has more than 4 GiB. -/
def manyChunks : Upload where
  file := List.replicate 134217728 1
  version := "1"
  sha2code := []
  chunkSize := 1
  flag := ""
  chunkSize_pos := Nat.one_pos
  chunkSize_le := one_le_maxChunkSize

end Session

end EW8.Update
