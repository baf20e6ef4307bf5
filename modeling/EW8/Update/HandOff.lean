import EW8.Update.Storage
import EW8.Update.DataPackets
import EW8.Lib.Transition

/-!
# Handing a chunk over to the thread

`WriteFile` and `IntThread`, statement by statement. `WriteFile` waits for `writtenStatus`, copies
the chunk into the buffer, signals the condition variable, and sets `m_lastSuccessfulChunk` in the
current header. The thread sets `writtenStatus` before it takes the lock and waits; once it is
signalled, it stores the chunk, writes a control file, and makes the other header the current one.

* A signal that comes before the thread waits is lost (`intact_fails_of_early`), and one for which
  there is no new chunk makes it store the last one again.
* A header set while the thread changes over to the other one is lost.
* Where no step of a run does so, and no store fails, each chunk taken is stored just once, one
  after the other, and the current header has the number of the last one (`intact_of_run`).
-/

namespace EW8.Update

/-- The next statement of `IntThread`. -/
inductive WriterPc
  | setStatus
  | lock
  | wait
  /-- In `pthread_cond_wait`, without the lock. -/
  | waiting
  | relock
  | unlock
  | fetchLen
  | fetchChunk
  | write
  | setErr
  | setSum
  | writeControlFile
  | copyHeader
  | changeHeader
  | setSuffix
  deriving DecidableEq, Repr

/-- The next statement of `WriteFile`; `idle` between two calls. -/
inductive CallerPc
  | idle
  | testErr
  | restoreHeader
  | nextChunk
  | testStatus
  | sleep
  | lockAgain
  | signalAgain
  | unlockAgain
  | clearStatus
  | copy
  | setLen
  | setChunk
  | setBefore
  | lock
  | signal
  | unlock
  | setHeader
  deriving DecidableEq, Repr

/-- Both of them, with what they share. -/
structure HandOff where
  writer : WriterPc
  caller : CallerPc
  /-- `cond_var_lock` is held. -/
  locked : Bool
  writtenStatus : Bool
  payloadBuffer : List UInt8
  _len : ℕ
  _chunk : ℤ
  mErr : FileError
  lastSuccChunkBefore : ℤ
  header : Bool → ControlFileHeader
  currHeader : Bool
  sums : ℤ → SHA2Store
  suffix : Suffix
  /-- What has last been put into each control file: the header, and the sum of a chunk. -/
  controlFile : Suffix → Option (ControlFileHeader × ℤ × SHA2Store)
  /-- The local variables of the thread, and the chunk that it has read back. -/
  len : ℕ
  chunk : ℤ
  err : FileError
  sha2 : SHA2Store
  blob : List UInt8
  /-- The parameter and the local variables of `WriteFile`. -/
  buf : List UInt8
  next : ℤ
  n : ℕ
  /-- The chunks for which `WriteFile` has returned `OK`, and those that the thread has stored and
      recorded in a control file: for statements only. -/
  accepted : List (ℤ × List UInt8)
  recorded : List (ℤ × List UInt8)

namespace HandOff

variable (s : HandOff)

/-- The current header. -/
def curr : ControlFileHeader := s.header s.currHeader

/-- The number of the next chunk, or of all chunks after the last one. -/
def nextChunk : ℤ :=
  if s.curr.next = ControlFileHeader.defaultChunkNo then toInt s.curr.chunks else s.curr.next

/-- A statement of the thread. The outcome of `_WriteFile` is given, but for its test of the
    number. -/
def writerStep (err : FileError) : Option HandOff :=
  match s.writer with
  | .setStatus => some { s with writer := .lock, writtenStatus := true }
  | .lock => if s.locked then none else some { s with writer := .wait, locked := true }
  | .wait => some { s with writer := .waiting, locked := false }
  | .waiting => none
  | .relock => if s.locked then none else some { s with writer := .unlock, locked := true }
  | .unlock => some { s with writer := .fetchLen, locked := false }
  | .fetchLen => some { s with writer := .fetchChunk, len := s._len }
  | .fetchChunk => some { s with writer := .write, chunk := s._chunk }
  | .write =>
    if s.chunk ≥ toInt s.curr.chunks then some { s with writer := .setErr, err := .otherFileError }
    else if err = .ok then
      let blob := s.payloadBuffer.take s.len
      some { s with writer := .setErr, err := .ok, blob := blob, sha2 := sha256 blob }
    else some { s with writer := .setErr, err := err }
  | .setErr => some { s with writer := .setSum, mErr := s.err }
  | .setSum => some { s with
      writer := .writeControlFile
      sums := Function.update s.sums s.chunk s.sha2 }
  | .writeControlFile => some { s with
      writer := .copyHeader
      controlFile := Function.update s.controlFile s.suffix (some (s.curr, s._chunk, s.sums s._chunk))
      recorded := if s.err = .ok then s.recorded ++ [(s.chunk, s.blob)] else s.recorded }
  | .copyHeader => some { s with
      writer := .changeHeader
      header := Function.update s.header (!s.currHeader) s.curr }
  | .changeHeader => some { s with writer := .setSuffix, currHeader := !s.currHeader }
  | .setSuffix => some { s with writer := .setStatus, suffix := nextSuffix s.suffix }

/-- `pthread_cond_signal`. -/
def signalled : WriterPc := if s.writer = .waiting then .relock else s.writer

/-- The headers, with this chunk as the last one in the current header. -/
def withLast (chunk : ℤ) : Bool → ControlFileHeader :=
  Function.update s.header s.currHeader { s.curr with lastSuccessfulChunk := chunk }

/-- A statement of `WriteFile`. -/
def callerStep : Option HandOff :=
  match s.caller with
  | .idle => none
  | .testErr =>
    some { s with caller := if s.mErr ≠ .ok then .restoreHeader else .nextChunk }
  -- the chunk is reported to be taken here, too
  | .restoreHeader => some { s with
      caller := .idle
      header := s.withLast s.lastSuccChunkBefore
      accepted := s.accepted ++ [(s.nextChunk, s.buf)] }
  | .nextChunk =>
    if s.nextChunk = ControlFileHeader.defaultChunkNo then some { s with caller := .idle }
    else some { s with caller := .testStatus, next := s.nextChunk, n := 1000 }
  | .testStatus => some { s with caller := if s.writtenStatus then .clearStatus else .sleep }
  | .sleep =>
    if s.n = 1 then some { s with caller := .lockAgain, n := 1000 }
    else some { s with caller := .testStatus, n := s.n - 1 }
  | .lockAgain => if s.locked then none else some { s with caller := .signalAgain, locked := true }
  | .signalAgain => some { s with caller := .unlockAgain, writer := s.signalled }
  | .unlockAgain => some { s with caller := .testStatus, locked := false }
  | .clearStatus => some { s with caller := .copy, writtenStatus := false }
  | .copy => some { s with
      caller := .setLen
      payloadBuffer := s.buf ++ s.payloadBuffer.drop s.buf.length }
  | .setLen => some { s with caller := .setChunk, _len := s.buf.length }
  | .setChunk => some { s with caller := .setBefore, _chunk := s.next }
  | .setBefore => some { s with
      caller := .lock
      lastSuccChunkBefore := toInt s.curr.lastSuccessfulChunk }
  | .lock => if s.locked then none else some { s with caller := .signal, locked := true }
  | .signal => some { s with caller := .unlock, writer := s.signalled }
  | .unlock => some { s with caller := .setHeader, locked := false }
  | .setHeader => some { s with
      caller := .idle
      header := s.withLast s.next
      accepted := s.accepted ++ [(s.next, s.buf)] }

/-- Who moves. `pthread_cond_wait` may also return by itself. -/
inductive Move
  | writer (err : FileError)
  | caller
  | call (buf : List UInt8)
  | wakeUp
  deriving DecidableEq

/-- A step. -/
def step : Move → Option HandOff
  | .writer err => s.writerStep err
  | .caller => s.callerStep
  | .call buf => if s.caller = .idle then some { s with caller := .testErr, buf := buf } else none
  | .wakeUp => if s.writer = .waiting then some { s with writer := .relock } else none

/-- The thread has just been created, and no call been made. -/
structure Initial : Prop where
  writer : s.writer = .setStatus
  caller : s.caller = .idle
  writtenStatus : s.writtenStatus = false
  mErr : s.mErr = .ok
  accepted : s.accepted = []
  recorded : s.recorded = []

/-- The chunk that is in the buffer. -/
def pending : ℤ × List UInt8 := (s._chunk, s.payloadBuffer.take s._len)

/-- A step that does not go wrong: a store does not fail; the signal of a chunk is given while the
    thread waits, and the one of the loop while it does not; the header is not set while the thread
    changes over; and the thread waits until it is signalled. -/
def Orderly (s : HandOff) : Move → Prop
  | .writer err => s.writer = .write → err = .ok ∧ s.chunk < toInt s.curr.chunks
  | .caller =>
    (s.caller = .signal → s.writer = .waiting) ∧ (s.caller = .signalAgain → s.writer ≠ .waiting) ∧
      (s.caller = .setHeader → s.writer ≠ .changeHeader)
  | .call _ => True
  | .wakeUp => False

instance : (m : Move) → Decidable (s.Orderly m)
  | .writer _ => inferInstanceAs (Decidable (_ → _))
  | .caller => instDecidableAnd
  | .call _ => isTrue trivial
  | .wakeUp => isFalse id

end HandOff

/-- The thread has been signalled, and has not stored the chunk and recorded it yet. -/
def WriterPc.isStoring : WriterPc → Bool
  | .relock | .unlock | .fetchLen | .fetchChunk | .write | .setErr | .setSum
  | .writeControlFile => true
  | .setStatus | .lock | .wait | .waiting | .copyHeader | .changeHeader | .setSuffix => false

namespace HandOff

/-- Every chunk taken is stored and recorded just once, one after the other, or is the one in the
    buffer, and the thread has been signalled; and where it waits, and no call is being made, the
    current header has the number of the last one. The first one comes after `last`. -/
structure Intact (s : HandOff) (last : ℤ) : Prop where
  stored : s.recorded = s.accepted ∨
    (s.accepted = s.recorded ++ [s.pending] ∧ s.writer.isStoring = true) ∨
    (s.recorded = s.accepted ++ [(s.next, s.buf)] ∧ s.caller ≠ .idle)
  consecutive : (last :: s.recorded.map Prod.fst).IsChain fun a b => b = a + 1
  header : s.caller = .idle → s.writer = .waiting →
    s.recorded = s.accepted ∧ ∀ x ∈ s.accepted.getLast?, s.curr.lastSuccessfulChunk = x.1

/-! ## The numbers -/

/-- The number of the last chunk, if the first one comes after `last`. -/
def lastOf (last : ℤ) (l : List (ℤ × List UInt8)) : ℤ := (l.getLast?.map Prod.fst).getD last

@[simp] theorem lastOf_concat (last : ℤ) (l : List (ℤ × List UInt8)) (x : ℤ × List UInt8) :
    lastOf last (l ++ [x]) = x.1 := by
  simp [lastOf]

theorem getLast?_cons_map (last : ℤ) (l : List (ℤ × List UInt8)) :
    (last :: l.map Prod.fst).getLast? = some (lastOf last l) := by
  rw [List.getLast?_cons, List.getLast?_map, lastOf]

theorem isChain_concat {last : ℤ} {l : List (ℤ × List UInt8)} {x : ℤ × List UInt8}
    (h : (last :: l.map Prod.fst).IsChain fun a b => b = a + 1) (hx : x.1 = lastOf last l + 1) :
    (last :: (l ++ [x]).map Prod.fst).IsChain fun a b => b = a + 1 := by
  rw [List.map_append, ← List.cons_append]
  refine h.append (List.isChain_singleton _) fun a ha b hb => ?_
  rw [getLast?_cons_map, Option.mem_some_iff] at ha
  obtain rfl : x.1 = b := by simpa using hb
  exact ha ▸ hx

variable {s : HandOff}

theorem nextChunk_eq (h : s.nextChunk < toInt s.curr.chunks) :
    s.nextChunk = toInt s.curr.lastSuccessfulChunk + 1 := by
  unfold nextChunk at h ⊢
  split_ifs at h ⊢ with hnext
  · exact absurd h (lt_irrefl _)
  · unfold ControlFileHeader.next ControlFileHeader.nextChunk at hnext ⊢
    split_ifs at hnext ⊢
    · exact absurd rfl hnext
    · rfl

theorem toInt_nextChunk (s : HandOff) : toInt s.nextChunk = s.nextChunk := by
  have hchunks := (toInt_spec s.curr.chunks).2
  have hlast := (toInt_spec s.curr.lastSuccessfulChunk).2
  by_cases h : s.nextChunk < toInt s.curr.chunks
  · have heq := nextChunk_eq h
    exact toInt_of_lt (by omega) (by omega)
  · have heq : s.nextChunk = toInt s.curr.chunks := by
      unfold nextChunk at h ⊢
      split_ifs at h ⊢ with hnext
      · rfl
      · unfold ControlFileHeader.next ControlFileHeader.nextChunk at hnext h
        split_ifs at hnext h
        · exact absurd rfl hnext
        · omega
    rw [heq]
    exact toInt_of_lt hchunks.1 hchunks.2

end HandOff

/-! ## The invariant -/

/-- The thread is about to wait for a chunk, or waits. -/
def WriterPc.isResting : WriterPc → Bool
  | .lock | .wait | .waiting => true
  | _ => false

/-- `WriteFile` has found `writtenStatus` set, and has not signalled its chunk yet. -/
def CallerPc.isTaking : CallerPc → Bool
  | .clearStatus | .copy | .setLen | .setChunk | .setBefore | .lock | .signal => true
  | _ => false

/-- It has signalled its chunk. -/
def CallerPc.hasSignalled : CallerPc → Bool
  | .unlock | .setHeader => true
  | _ => false

/-- It has a chunk, with its number. -/
def CallerPc.hasNext : CallerPc → Bool
  | .idle | .testErr | .restoreHeader | .nextChunk => false
  | _ => true

theorem WriterPc.isStoring_of_isResting {w : WriterPc} (h : w.isResting = true) :
    w.isStoring = false := by
  cases w with
  | lock | wait | waiting => rfl
  | _ => cases h

namespace HandOff

/-- The chunks that have been handed over. -/
def taken (s : HandOff) : List (ℤ × List UInt8) :=
  if s.caller.hasSignalled then s.accepted ++ [(s.next, s.buf)] else s.accepted

/-- How far the chunk is in the buffer. -/
def Buffer (s : HandOff) : Prop :=
  match s.caller with
  | .restoreHeader => False
  | .setLen => s.payloadBuffer.take s.buf.length = s.buf
  | .setChunk => s.pending.2 = s.buf
  | .setBefore | .lock | .signal => s.pending = (s.next, s.buf)
  | _ => True

/-- What both of them keep. -/
structure Shared (last chunks : ℤ) (s : HandOff) : Prop where
  chunks_eq : toInt s.curr.chunks = chunks
  last_eq : toInt s.curr.lastSuccessfulChunk = lastOf last s.accepted
  accepted : ∀ x ∈ s.accepted.getLast?, s.curr.lastSuccessfulChunk = x.1
  next : s.caller.hasNext = true →
    (s.next < chunks → s.next = lastOf last s.accepted + 1) ∧ toInt s.next = s.next
  handed : if s.writer.isStoring then s.taken = s.recorded ++ [s.pending] else s.recorded = s.taken
  pending : s.writer.isStoring = true → s._chunk < chunks → s._chunk = lastOf last s.recorded + 1
  consecutive : (last :: s.recorded.map Prod.fst).IsChain fun a b => b = a + 1
  resting : s.caller.isTaking = true → s.writer.isResting = true
  status : s.caller.isTaking = false → s.writtenStatus = s.writer.isResting
  cleared : s.caller.isTaking = true → s.caller ≠ .clearStatus → s.writtenStatus = false
  buffer : s.Buffer

/-- How far the thread is. -/
def Thread (chunks : ℤ) (s : HandOff) : Prop :=
  match s.writer with
  | .fetchChunk => s.len = s._len
  | .write => s.len = s._len ∧ s.chunk = s._chunk
  | .setErr | .setSum | .writeControlFile =>
    s.err = .ok ∧ (s.chunk, s.blob) = s.pending ∧ s.chunk < chunks
  | .changeHeader => s.header (!s.currHeader) = s.curr
  | _ => True

/-- What holds after orderly steps. -/
structure Inv (last chunks : ℤ) (s : HandOff) : Prop where
  shared : s.Shared last chunks
  thread : s.Thread chunks
  mErr : s.mErr = .ok

variable {s t : HandOff} {last chunks : ℤ}

theorem Initial.inv (h : s.Initial) :
    s.Inv (toInt s.curr.lastSuccessfulChunk) (toInt s.curr.chunks) where
  shared := {
    chunks_eq := rfl
    last_eq := by rw [h.accepted]; rfl
    accepted := by simp [h.accepted]
    next := by simp [h.caller, CallerPc.hasNext]
    handed := by
      simp [h.writer, WriterPc.isStoring, taken, h.caller, CallerPc.hasSignalled, h.accepted,
        h.recorded]
    pending := by simp [h.writer, WriterPc.isStoring]
    consecutive := by
      rw [h.recorded]
      exact List.isChain_singleton _
    resting := by simp [h.caller, CallerPc.isTaking]
    status := fun _ => by rw [h.writtenStatus, h.writer]; rfl
    cleared := by simp [h.caller, CallerPc.isTaking]
    buffer := by rw [Buffer, h.caller]; trivial }
  thread := by rw [Thread, h.writer]; trivial
  mErr := h.mErr

theorem thread_of_isResting (h : s.writer.isResting = true) : s.Thread chunks := by
  unfold Thread
  cases hw : s.writer with
  | lock | wait | waiting => trivial
  | _ => simp [hw, WriterPc.isResting] at h

theorem Shared.recorded_eq (h : s.Shared last chunks) (hw : s.writer.isStoring = false) :
    s.recorded = s.taken := by
  have hhanded := h.handed
  rwa [hw, if_neg Bool.false_ne_true] at hhanded

theorem Shared.taken_eq (h : s.Shared last chunks) (hw : s.writer.isStoring = true) :
    s.taken = s.recorded ++ [s.pending] := by
  have hhanded := h.handed
  rwa [hw, if_pos rfl] at hhanded

/-- While a chunk is copied, nothing is left to be stored. -/
theorem Shared.recorded_of_isTaking (h : s.Shared last chunks) (hc : s.caller.isTaking = true) :
    s.recorded = s.accepted := by
  have hrecorded := h.recorded_eq (WriterPc.isStoring_of_isResting (h.resting hc))
  rw [hrecorded, taken]
  cases hcaller : s.caller <;> simp [hcaller, CallerPc.isTaking, CallerPc.hasSignalled] at hc ⊢

/-! ## The thread -/

/-- A move of the thread that changes nothing that is shared. -/
theorem Shared.of_writer {w : WriterPc} {locked : Bool} {len : ℕ} {chunk : ℤ} {mErr err : FileError}
    {sums : ℤ → SHA2Store} {sha2 : SHA2Store} {blob : List UInt8} {suffix : Suffix}
    (h : s.Shared last chunks) (hstoring : w.isStoring = s.writer.isStoring)
    (hresting : w.isResting = s.writer.isResting) :
    Shared last chunks { s with
      writer := w
      locked := locked
      len := len
      chunk := chunk
      mErr := mErr
      err := err
      sums := sums
      sha2 := sha2
      blob := blob
      suffix := suffix } where
  chunks_eq := h.chunks_eq
  last_eq := h.last_eq
  accepted := h.accepted
  next := h.next
  handed := hstoring ▸ h.handed
  pending := fun hw => h.pending (hstoring ▸ hw)
  consecutive := h.consecutive
  resting := fun hc => hresting.trans (h.resting hc)
  status := fun hc => (h.status hc).trans hresting.symm
  cleared := h.cleared
  buffer := h.buffer

/-- The thread announces that it has stored the chunk. -/
theorem Shared.setStatus (h : s.Shared last chunks) (hw : s.writer = .setStatus) :
    Shared last chunks { s with writer := .lock, writtenStatus := true } where
  chunks_eq := h.chunks_eq
  last_eq := h.last_eq
  accepted := h.accepted
  next := h.next
  handed := h.recorded_eq (by rw [hw]; rfl)
  pending := fun hstoring => by cases hstoring
  consecutive := h.consecutive
  resting := fun _ => rfl
  status := fun _ => rfl
  cleared := fun hc => by
    have hresting := h.resting hc
    rw [hw] at hresting
    cases hresting
  buffer := h.buffer

/-- The chunk in the buffer has been stored, and is recorded. -/
theorem Shared.writeControlFile {f : Suffix → Option (ControlFileHeader × ℤ × SHA2Store)}
    (h : s.Shared last chunks) (hw : s.writer = .writeControlFile)
    (hblob : (s.chunk, s.blob) = s.pending) (hlt : s.chunk < chunks) :
    Shared last chunks { s with
      writer := .copyHeader
      controlFile := f
      recorded := s.recorded ++ [(s.chunk, s.blob)] } where
  chunks_eq := h.chunks_eq
  last_eq := h.last_eq
  accepted := h.accepted
  next := h.next
  handed := by
    rw [hblob]
    exact (h.taken_eq (by rw [hw]; rfl)).symm
  pending := fun hstoring => by cases hstoring
  consecutive := by
    have hchunk : s.chunk = s._chunk := congrArg Prod.fst hblob
    refine isChain_concat h.consecutive (hchunk.trans (h.pending (by rw [hw]; rfl) ?_))
    exact hchunk ▸ hlt
  resting := fun hc => by
    have hresting := h.resting hc
    rw [hw] at hresting
    cases hresting
  status := fun hc => by
    have hstatus := h.status hc
    rw [hw] at hstatus
    exact hstatus
  cleared := h.cleared
  buffer := h.buffer

/-- Another header, which is a copy of the current one, does not matter. -/
theorem Shared.of_header {w : WriterPc} {f : Bool → ControlFileHeader} {c : Bool}
    (h : s.Shared last chunks) (hcurr : f c = s.curr) (hstoring : w.isStoring = s.writer.isStoring)
    (hresting : w.isResting = s.writer.isResting) :
    Shared last chunks { s with writer := w, header := f, currHeader := c } where
  chunks_eq := (congrArg (toInt ·.chunks) hcurr).trans h.chunks_eq
  last_eq := (congrArg (toInt ·.lastSuccessfulChunk) hcurr).trans h.last_eq
  accepted := fun x hx => (congrArg (·.lastSuccessfulChunk) hcurr).trans (h.accepted x hx)
  next := h.next
  handed := hstoring ▸ h.handed
  pending := fun hw => h.pending (hstoring ▸ hw)
  consecutive := h.consecutive
  resting := fun hc => hresting.trans (h.resting hc)
  status := fun hc => (h.status hc).trans hresting.symm
  cleared := h.cleared
  buffer := h.buffer

theorem Inv.writerStep {err : FileError} (h : s.Inv last chunks) (hC : s.Orderly (.writer err))
    (ht : s.writerStep err = some t) : t.Inv last chunks := by
  obtain ⟨hshared, hthread, herr⟩ := h
  rw [HandOff.writerStep] at ht
  cases hw : s.writer with
  | setStatus =>
    rw [hw] at ht
    obtain rfl := Option.some.inj ht
    exact ⟨hshared.setStatus hw, trivial, herr⟩
  | lock =>
    simp only [hw] at ht
    split at ht
    case isTrue => cases ht
    obtain rfl := Option.some.inj ht
    exact ⟨hshared.of_writer (by rw [hw]; rfl) (by rw [hw]; rfl), trivial, herr⟩
  | wait =>
    rw [hw] at ht
    obtain rfl := Option.some.inj ht
    exact ⟨hshared.of_writer (by rw [hw]; rfl) (by rw [hw]; rfl), trivial, herr⟩
  | waiting =>
    rw [hw] at ht
    cases ht
  | relock =>
    simp only [hw] at ht
    split at ht
    case isTrue => cases ht
    obtain rfl := Option.some.inj ht
    exact ⟨hshared.of_writer (by rw [hw]; rfl) (by rw [hw]; rfl), trivial, herr⟩
  | unlock =>
    rw [hw] at ht
    obtain rfl := Option.some.inj ht
    exact ⟨hshared.of_writer (by rw [hw]; rfl) (by rw [hw]; rfl), trivial, herr⟩
  | fetchLen =>
    rw [hw] at ht
    obtain rfl := Option.some.inj ht
    exact ⟨hshared.of_writer (by rw [hw]; rfl) (by rw [hw]; rfl), rfl, herr⟩
  | fetchChunk =>
    rw [hw] at ht
    rw [Thread, hw] at hthread
    obtain rfl := Option.some.inj ht
    exact ⟨hshared.of_writer (by rw [hw]; rfl) (by rw [hw]; rfl), ⟨hthread, rfl⟩, herr⟩
  -- the one step that asks something of the environment: the write succeeds, and in range
  | write =>
    obtain ⟨rfl, hlt⟩ := hC hw
    rw [Thread, hw] at hthread
    obtain ⟨hlen, hchunk⟩ := hthread
    simp only [hw, if_neg (not_le.2 hlt), ↓reduceIte] at ht
    obtain rfl := Option.some.inj ht
    refine ⟨hshared.of_writer (by rw [hw]; rfl) (by rw [hw]; rfl), ⟨rfl, ?_, ?_⟩, herr⟩
    · exact Prod.ext hchunk (congrArg s.payloadBuffer.take hlen)
    · exact hshared.chunks_eq ▸ hlt
  | setErr =>
    rw [hw] at ht
    rw [Thread, hw] at hthread
    obtain rfl := Option.some.inj ht
    exact ⟨hshared.of_writer (by rw [hw]; rfl) (by rw [hw]; rfl), hthread, hthread.1⟩
  | setSum =>
    rw [hw] at ht
    rw [Thread, hw] at hthread
    obtain rfl := Option.some.inj ht
    exact ⟨hshared.of_writer (by rw [hw]; rfl) (by rw [hw]; rfl), hthread, herr⟩
  | writeControlFile =>
    rw [Thread, hw] at hthread
    obtain ⟨hok, hblob, hlt⟩ := hthread
    simp only [hw, if_pos hok] at ht
    obtain rfl := Option.some.inj ht
    exact ⟨hshared.writeControlFile hw hblob hlt, trivial, herr⟩
  -- the other header gets the contents of the current one, so the two may be exchanged
  | copyHeader =>
    rw [hw] at ht
    obtain rfl := Option.some.inj ht
    have hcurr : Function.update s.header (!s.currHeader) s.curr s.currHeader = s.curr :=
      Function.update_of_ne (Bool.eq_not_self s.currHeader).mp _ _
    refine ⟨hshared.of_header hcurr (by rw [hw]; rfl) (by rw [hw]; rfl), ?_, herr⟩
    exact (Function.update_self _ _ _).trans hcurr.symm
  | changeHeader =>
    rw [hw] at ht
    rw [Thread, hw] at hthread
    obtain rfl := Option.some.inj ht
    exact ⟨hshared.of_header hthread (by rw [hw]; rfl) (by rw [hw]; rfl), trivial, herr⟩
  | setSuffix =>
    rw [hw] at ht
    obtain rfl := Option.some.inj ht
    exact ⟨hshared.of_writer (by rw [hw]; rfl) (by rw [hw]; rfl), trivial, herr⟩

/-! ## The caller -/

/-- A move of the caller that neither takes a chunk nor hands it over. -/
theorem Shared.of_caller {c : CallerPc} {locked : Bool} {n : ℕ} {last' : ℤ}
    (h : s.Shared last chunks) (hsignalled : c.hasSignalled = s.caller.hasSignalled)
    (htaking : c.isTaking = s.caller.isTaking)
    (hnext : c.hasNext = true → s.caller.hasNext = true) (hclear : s.caller ≠ .clearStatus)
    (hbuffer : Buffer { s with caller := c }) :
    Shared last chunks { s with
      caller := c, locked := locked, n := n, lastSuccChunkBefore := last' } where
  chunks_eq := h.chunks_eq
  last_eq := h.last_eq
  accepted := h.accepted
  next := fun hc => h.next (hnext hc)
  handed := by
    have hhanded := h.handed
    rwa [taken, ← hsignalled] at hhanded
  pending := h.pending
  consecutive := h.consecutive
  resting := fun hc => h.resting (htaking ▸ hc)
  status := fun hc => h.status (htaking ▸ hc)
  cleared := fun hc _ => h.cleared (htaking ▸ hc) hclear
  buffer := hbuffer

/-- The next chunk, as long as the header stays. -/
theorem Shared.nextChunk {n : ℕ} (h : s.Shared last chunks) (hc : s.caller = .nextChunk) :
    Shared last chunks { s with caller := .testStatus, next := s.nextChunk, n := n } where
  chunks_eq := h.chunks_eq
  last_eq := h.last_eq
  accepted := h.accepted
  next := fun _ => by
    refine ⟨fun hlt => ?_, toInt_nextChunk s⟩
    rw [← h.chunks_eq] at hlt
    exact (nextChunk_eq hlt).trans (congrArg (· + 1) h.last_eq)
  handed := by
    have hhanded := h.handed
    rwa [taken, hc] at hhanded
  pending := h.pending
  consecutive := h.consecutive
  resting := fun hc => by cases hc
  status := fun _ => h.status (by rw [hc]; rfl)
  cleared := fun hc => by cases hc
  buffer := trivial

/-- The thread has stored all chunks. -/
theorem Shared.testStatus (h : s.Shared last chunks) (hc : s.caller = .testStatus)
    (hstatus : s.writtenStatus = true) : Shared last chunks { s with caller := .clearStatus } where
  chunks_eq := h.chunks_eq
  last_eq := h.last_eq
  accepted := h.accepted
  next := fun _ => h.next (by rw [hc]; rfl)
  handed := by
    have hhanded := h.handed
    rwa [taken, hc] at hhanded
  pending := h.pending
  consecutive := h.consecutive
  resting := fun _ => (h.status (by rw [hc]; rfl)).symm.trans hstatus
  status := fun hc => by cases hc
  cleared := fun _ hne => absurd rfl hne
  buffer := trivial

/-- A move of the caller while the thread rests: the buffer may change. -/
theorem Shared.take {c : CallerPc} {b : Bool} {payload : List UInt8} {len : ℕ} {chunk : ℤ}
    (h : s.Shared last chunks) (hc : s.caller.isTaking = true) (htaking : c.isTaking = true)
    (hsignalled : c.hasSignalled = s.caller.hasSignalled) (hnext : s.caller.hasNext = true)
    (hstatus : b = false)
    (hbuffer : Buffer { s with
      caller := c, payloadBuffer := payload, _len := len, _chunk := chunk }) :
    Shared last chunks { s with
      caller := c, writtenStatus := b, payloadBuffer := payload, _len := len, _chunk := chunk } where
  chunks_eq := h.chunks_eq
  last_eq := h.last_eq
  accepted := h.accepted
  next := fun _ => h.next hnext
  handed := by
    have hstoring := WriterPc.isStoring_of_isResting (h.resting hc)
    have hrecorded := h.recorded_eq hstoring
    rw [taken, ← hsignalled] at hrecorded
    rwa [if_neg (by simp [hstoring])]
  pending := fun hw => by
    rw [WriterPc.isStoring_of_isResting (h.resting hc)] at hw
    cases hw
  consecutive := h.consecutive
  resting := fun _ => h.resting hc
  status := fun hc => by
    rw [htaking] at hc
    cases hc
  cleared := fun _ _ => hstatus
  buffer := hbuffer

/-- The chunk is signalled to the thread, which waits for it. -/
theorem Shared.signal (h : s.Shared last chunks) (hc : s.caller = .signal) :
    Shared last chunks { s with caller := .unlock, writer := .relock } where
  chunks_eq := h.chunks_eq
  last_eq := h.last_eq
  accepted := h.accepted
  next := fun _ => h.next (by rw [hc]; rfl)
  handed := by
    have hrecorded := h.recorded_of_isTaking (by rw [hc]; rfl)
    have hbuffer := h.buffer
    rw [Buffer, hc] at hbuffer
    exact congrArg₂ (fun l x => l ++ [x]) hrecorded.symm hbuffer.symm
  pending := fun _ hlt => by
    have hrecorded := h.recorded_of_isTaking (by rw [hc]; rfl)
    have hbuffer := h.buffer
    rw [Buffer, hc] at hbuffer
    have hchunk : s._chunk = s.next := congrArg Prod.fst hbuffer
    exact hchunk.trans (hrecorded ▸ (h.next (by rw [hc]; rfl)).1 (hchunk ▸ hlt))
  consecutive := h.consecutive
  resting := fun hc => by cases hc
  status := fun _ => h.cleared (by rw [hc]; rfl) (by simp [hc])
  cleared := fun hc => by cases hc
  buffer := trivial

/-- The number of the chunk is put into the current header. -/
theorem Shared.setHeader (h : s.Shared last chunks) (hc : s.caller = .setHeader) :
    Shared last chunks { s with
      caller := .idle
      header := s.withLast s.next
      accepted := s.accepted ++ [(s.next, s.buf)] } := by
  have hcurr : s.withLast s.next s.currHeader = { s.curr with lastSuccessfulChunk := s.next } :=
    Function.update_self _ _ _
  exact {
    chunks_eq := (congrArg (toInt ·.chunks) hcurr).trans h.chunks_eq
    last_eq := by
      rw [lastOf_concat]
      exact (congrArg (toInt ·.lastSuccessfulChunk) hcurr).trans (h.next (by rw [hc]; rfl)).2
    accepted := fun x hx => by
      obtain rfl : (s.next, s.buf) = x := by simpa using hx
      exact congrArg (·.lastSuccessfulChunk) hcurr
    next := fun hc => by cases hc
    handed := by
      have hhanded := h.handed
      rwa [taken, hc] at hhanded
    pending := h.pending
    consecutive := h.consecutive
    resting := fun hc => by cases hc
    status := fun _ => h.status (by rw [hc]; rfl)
    cleared := fun hc => by cases hc
    buffer := trivial }

theorem Shared.call {buf : List UInt8} (h : s.Shared last chunks) (hc : s.caller = .idle) :
    Shared last chunks { s with caller := .testErr, buf := buf } where
  chunks_eq := h.chunks_eq
  last_eq := h.last_eq
  accepted := h.accepted
  next := fun hc => by cases hc
  handed := by
    have hhanded := h.handed
    rwa [taken, hc] at hhanded
  pending := h.pending
  consecutive := h.consecutive
  resting := fun hc => by cases hc
  status := fun _ => h.status (by rw [hc]; rfl)
  cleared := fun hc => by cases hc
  buffer := trivial

/-- While a chunk is taken, nothing else is known of the thread. -/
theorem Shared.thread {c : CallerPc} {b : Bool} {payload : List UInt8} {len : ℕ} {chunk : ℤ}
    (h : s.Shared last chunks) (hc : s.caller.isTaking = true) :
    Thread chunks { s with
      caller := c, writtenStatus := b, payloadBuffer := payload, _len := len, _chunk := chunk } :=
  thread_of_isResting (h.resting hc)

theorem Inv.callerStep (h : s.Inv last chunks) (hC : s.Orderly .caller)
    (ht : s.callerStep = some t) : t.Inv last chunks := by
  obtain ⟨hshared, hthread, herr⟩ := h
  have hbuffer := hshared.buffer
  obtain ⟨hsignal, hagain, hheader⟩ := hC
  rw [HandOff.callerStep] at ht
  rw [Buffer] at hbuffer
  cases hc : s.caller with
  | idle =>
    rw [hc] at ht
    cases ht
  | testErr =>
    -- no store has failed
    rw [hc] at ht
    dsimp only at ht
    rw [if_neg (not_not.2 herr)] at ht
    obtain rfl := Option.some.inj ht
    exact ⟨hshared.of_caller (by rw [hc]; rfl) (by rw [hc]; rfl) (fun hn => by cases hn) (by simp [hc])
      trivial, hthread, herr⟩
  | restoreHeader =>
    rw [hc] at hbuffer
    exact hbuffer.elim
  | nextChunk =>
    simp only [hc] at ht
    split at ht
    · obtain rfl := Option.some.inj ht
      exact ⟨hshared.of_caller (by rw [hc]; rfl) (by rw [hc]; rfl) (fun hn => by cases hn)
        (by simp [hc]) trivial, hthread, herr⟩
    · obtain rfl := Option.some.inj ht
      exact ⟨hshared.nextChunk hc, hthread, herr⟩
  | testStatus =>
    rw [hc] at ht
    dsimp only at ht
    by_cases hstatus : s.writtenStatus = true
    · rw [if_pos hstatus] at ht
      obtain rfl := Option.some.inj ht
      exact ⟨hshared.testStatus hc hstatus, hthread, herr⟩
    · rw [if_neg hstatus] at ht
      obtain rfl := Option.some.inj ht
      exact ⟨hshared.of_caller (by rw [hc]; rfl) (by rw [hc]; rfl) (fun _ => by rw [hc]; rfl)
        (by simp [hc]) trivial, hthread, herr⟩
  | sleep =>
    simp only [hc] at ht
    split at ht <;> obtain rfl := Option.some.inj ht
    all_goals
      exact ⟨hshared.of_caller (by rw [hc]; rfl) (by rw [hc]; rfl) (fun _ => by rw [hc]; rfl)
        (by simp [hc]) trivial, hthread, herr⟩
  | lockAgain =>
    simp only [hc] at ht
    split at ht
    case isTrue => cases ht
    obtain rfl := Option.some.inj ht
    exact ⟨hshared.of_caller (by rw [hc]; rfl) (by rw [hc]; rfl) (fun _ => by rw [hc]; rfl)
      (by simp [hc]) trivial, hthread, herr⟩
  | signalAgain =>
    have hsignalled : s.signalled = s.writer := if_neg (hagain hc)
    rw [hc, hsignalled] at ht
    obtain rfl := Option.some.inj ht
    exact ⟨hshared.of_caller (by rw [hc]; rfl) (by rw [hc]; rfl) (fun _ => by rw [hc]; rfl)
      (by simp [hc]) trivial, hthread, herr⟩
  | unlockAgain =>
    rw [hc] at ht
    obtain rfl := Option.some.inj ht
    exact ⟨hshared.of_caller (by rw [hc]; rfl) (by rw [hc]; rfl) (fun _ => by rw [hc]; rfl) (by simp [hc])
      trivial, hthread, herr⟩
  | clearStatus =>
    rw [hc] at ht
    obtain rfl := Option.some.inj ht
    exact ⟨hshared.take (by rw [hc]; rfl) rfl (by rw [hc]; rfl) (by rw [hc]; rfl) rfl trivial,
      hshared.thread (by rw [hc]; rfl), herr⟩
  | copy =>
    rw [hc] at ht
    obtain rfl := Option.some.inj ht
    have hcleared := hshared.cleared (by rw [hc]; rfl) (by simp [hc])
    refine ⟨hshared.take (by rw [hc]; rfl) rfl (by rw [hc]; rfl) (by rw [hc]; rfl) hcleared ?_,
      hshared.thread (by rw [hc]; rfl), herr⟩
    exact List.take_left
  | setLen =>
    rw [hc] at ht hbuffer
    obtain rfl := Option.some.inj ht
    have hcleared := hshared.cleared (by rw [hc]; rfl) (by simp [hc])
    exact ⟨hshared.take (by rw [hc]; rfl) rfl (by rw [hc]; rfl) (by rw [hc]; rfl) hcleared hbuffer,
      hshared.thread (by rw [hc]; rfl), herr⟩
  | setChunk =>
    rw [hc] at ht hbuffer
    obtain rfl := Option.some.inj ht
    have hcleared := hshared.cleared (by rw [hc]; rfl) (by simp [hc])
    refine ⟨hshared.take (by rw [hc]; rfl) rfl (by rw [hc]; rfl) (by rw [hc]; rfl) hcleared ?_,
      hshared.thread (by rw [hc]; rfl), herr⟩
    exact Prod.ext rfl hbuffer
  | setBefore =>
    rw [hc] at ht hbuffer
    obtain rfl := Option.some.inj ht
    exact ⟨hshared.of_caller (by rw [hc]; rfl) (by rw [hc]; rfl) (fun _ => by rw [hc]; rfl)
      (by simp [hc]) hbuffer, hthread, herr⟩
  | lock =>
    rw [hc] at hbuffer
    simp only [hc] at ht
    split at ht
    case isTrue => cases ht
    obtain rfl := Option.some.inj ht
    exact ⟨hshared.of_caller (by rw [hc]; rfl) (by rw [hc]; rfl) (fun _ => by rw [hc]; rfl)
      (by simp [hc]) hbuffer, hthread, herr⟩
  | signal =>
    have hsignalled : s.signalled = .relock := if_pos (hsignal hc)
    rw [hc, hsignalled] at ht
    obtain rfl := Option.some.inj ht
    exact ⟨hshared.signal hc, trivial, herr⟩
  | unlock =>
    rw [hc] at ht
    obtain rfl := Option.some.inj ht
    exact ⟨hshared.of_caller (by rw [hc]; rfl) (by rw [hc]; rfl) (fun _ => by rw [hc]; rfl) (by simp [hc])
      trivial, hthread, herr⟩
  | setHeader =>
    rw [hc] at ht
    obtain rfl := Option.some.inj ht
    refine ⟨hshared.setHeader hc, ?_, herr⟩
    -- the header matters while the thread changes over only
    have hne := hheader hc
    unfold Thread at hthread ⊢
    cases hw : s.writer with
    | changeHeader => exact absurd hw hne
    | _ =>
      rw [hw] at hthread
      exact hthread

/-- An orderly step keeps the invariant. -/
theorem Inv.step (m : Move) (h : s.Inv last chunks) (hC : s.Orderly m) (ht : s.step m = some t) :
    t.Inv last chunks := by
  cases m with
  | writer err => exact h.writerStep hC ht
  | caller => exact h.callerStep hC ht
  | call buf =>
    rw [HandOff.step] at ht
    split at ht
    case isFalse => cases ht
    case isTrue hc =>
      obtain rfl := Option.some.inj ht
      exact ⟨h.shared.call hc, h.thread, h.mErr⟩
  | wakeUp => exact hC.elim

theorem Shared.intact (h : s.Shared last chunks) : s.Intact last where
  stored := by
    cases hstoring : s.writer.isStoring with
    | true =>
      have htaken := h.taken_eq hstoring
      unfold taken at htaken
      split at htaken
      · -- the chunk is in the buffer, and the header has not been set yet
        exact .inl (List.append_inj' htaken rfl).1.symm
      · exact .inr (.inl ⟨htaken, rfl⟩)
    | false =>
      have hrecorded := h.recorded_eq hstoring
      unfold taken at hrecorded
      split at hrecorded
      · next hc => exact .inr (.inr ⟨hrecorded, fun hidle => by simp [hidle, CallerPc.hasSignalled] at hc⟩)
      · exact .inl hrecorded
  consecutive := h.consecutive
  header := fun hc hw => by
    have hrecorded := h.recorded_eq (by rw [hw]; rfl)
    rw [taken, hc] at hrecorded
    exact ⟨hrecorded, h.accepted⟩

end HandOff

/-! ## The hand-over -/

/-- In each run whose steps are orderly, the chunks taken are stored and recorded, each just once and
    one after the other, but for the one in the buffer; and where both sides rest, the header has
    the number of the last one. -/
theorem intact_of_run {s t : HandOff} {l : List HandOff.Move} (h : s.Initial)
    (hmeets : Transition.Meets HandOff.step HandOff.Orderly s l)
    (hrun : Transition.run HandOff.step s l = some t) :
    t.Intact (toInt s.curr.lastSuccessfulChunk) :=
  (Transition.inv_of_meets (fun _ m _ hs hC ht => hs.step m hC ht) h.inv hmeets hrun).shared.intact

/-- The thread has been created, for an image of two chunks. -/
def twoChunks : HandOff where
  writer := .setStatus
  caller := .idle
  locked := false
  writtenStatus := false
  payloadBuffer := []
  _len := 0
  _chunk := 0
  mErr := .ok
  lastSuccChunkBefore := 0
  header _ := ⟨128, 0, 1, 1, 2, -1, 2⟩
  currHeader := false
  sums _ := sha256 []
  suffix := .first
  controlFile _ := none
  len := 0
  chunk := 0
  err := .ok
  sha2 := sha256 []
  blob := []
  buf := []
  next := 0
  n := 0
  accepted := []
  recorded := []

theorem initial_twoChunks : twoChunks.Initial := ⟨rfl, rfl, rfl, rfl, rfl, rfl⟩

/-- A chunk that is handed over to the thread while it waits. -/
def handOver : List HandOff.Move :=
  List.replicate 3 (.writer .ok) ++ .call [7] :: List.replicate 12 .caller ++
    List.replicate 14 (.writer .ok)

/-- `intact_of_run` for one chunk, which is stored. -/
theorem intact_of_run_twoChunks :
    ∃ t, Transition.run HandOff.step twoChunks handOver = some t ∧ t.writer = .waiting ∧
      t.caller = .idle ∧ t.recorded = [(0, [7])] ∧ t.Intact (-1) :=
  ⟨_, rfl, rfl, rfl, rfl,
    intact_of_run (l := handOver) initial_twoChunks (by decide) rfl⟩

/-- The chunk is signalled after the thread has announced that it waits, and before it does. -/
theorem intact_fails_of_early :
    ∃ t, Transition.run HandOff.step twoChunks (.writer .ok :: .call [7] ::
        List.replicate 12 .caller ++ List.replicate 2 (.writer .ok)) = some t ∧
      t.writer = .waiting ∧ t.caller = .idle ∧ t.accepted = [(0, [7])] ∧ ¬t.Intact (-1) := by
  refine ⟨_, rfl, rfl, rfl, rfl, fun h => ?_⟩
  exact absurd (h.header rfl rfl).1 (by decide)

end EW8.Update
