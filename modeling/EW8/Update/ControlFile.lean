import EW8.Lib.Memory
import EW8.Update.Sha256
import EW8.Update.Files

/-!
# The control file of an upload

What the engine knows of the upload in progress (`ControlFile`): its layout, that is the
number and the sizes of its chunks, the last chunk stored, and the hashes of the chunks. All
of this is kept in two control files, written in turn, from which an upload is resumed.

Chunks are stored by a thread of their own (`intThread`), to which `WriteFile` hands one
chunk at a time: it waits for the chunk before (`writeFile`), hands over the next one
(`handOver`) and returns before it is stored.

* `setVersion…`, `initControlFile`, `checkAndLoadControlFile`: the start of an upload;
* `writeFile`, `handOver`, `intThread`: a chunk;
* `checkChunkSHA2`: its end, with `checkChunkSHA2_whole`, what the hash returned is of;
* `removeContent`.

System calls on files succeed where the directories and files make it possible, other than
where an outcome is given: `FsCall` and `WriteFault`. A `long` has 32 bits, as on the device.
-/

namespace EW8.Update

/-- The conversion to `int`. -/
def toInt (z : ℤ) : ℤ := Int.bmod z (2 ^ 32)

/-- The conversion to `uint32_t`. -/
def toUInt (z : ℤ) : ℕ := (z % 2 ^ 32).toNat

/-- `FileError`. -/
inductive FileError
  | ok
  | fileNotFound
  | noMemory
  | otherFileError
  | fileDamaged
  | fileWriteError
  | sha2Error
  deriving DecidableEq, Repr

/-- `UpdateStatus`. -/
inductive UpdateStatus
  | uploading
  | uploaded
  | onExecution
  | done
  | executionError
  | unknown
  | rollback
  deriving DecidableEq, Repr

/-- The texts `InternalUpdateStatus…`. -/
def UpdateStatus.text : UpdateStatus → List Char
  | uploading => "uploading".toList
  | uploaded => "uploaded".toList
  | onExecution => "executed".toList
  | done => "done".toList
  | executionError => "error".toList
  | unknown => []
  | rollback => "rollback".toList

/-! ## The header -/

/-- `ControlFileHeader`. -/
structure ControlFileHeader where
  /-- The size of the control file itself. -/
  fileSize : ℕ
  /-- Three words, as one number. -/
  reserved : ℕ
  chunkSize : ℕ
  lastChunkSize : ℕ
  chunks : ℤ
  lastSuccessfulChunk : ℤ
  updateSize : ℕ
  deriving DecidableEq, Repr

namespace ControlFileHeader

variable (h : ControlFileHeader)

/-- `sizeof(ControlFileHeader)`. -/
def size : ℕ := 64

/-- The bytes of a header. -/
def bytes : List UInt8 :=
  toLE 8 h.fileSize ++ toLE 24 h.reserved ++ toLE 4 h.chunkSize ++ toLE 4 h.lastChunkSize ++
    toLE 8 (h.chunks % 2 ^ 64).toNat ++ toLE 8 (h.lastSuccessfulChunk % 2 ^ 64).toNat ++
    toLE 8 h.updateSize

/-- The header with the bytes `b`. -/
def ofBytes (b : List UInt8) : ControlFileHeader where
  fileSize := ofLE (b.take 8)
  reserved := ofLE ((b.drop 8).take 24)
  chunkSize := ofLE ((b.drop 32).take 4)
  lastChunkSize := ofLE ((b.drop 36).take 4)
  chunks := Int.bmod (ofLE ((b.drop 40).take 8)) (2 ^ 64)
  lastSuccessfulChunk := Int.bmod (ofLE ((b.drop 48).take 8)) (2 ^ 64)
  updateSize := ofLE ((b.drop 56).take 8)

/-- `DEFAULT_CHUNK_NO`. -/
def defaultChunkNo : ℤ := -1

/-- `NextChunk`. -/
def nextChunk (chunk : ℤ) : ℤ :=
  if chunk + 1 ≥ toInt h.chunks then defaultChunkNo else chunk + 1

/-- `NextChunk(m_lastSuccessfulChunk)`, as it is always used. -/
def next : ℤ := h.nextChunk (toInt h.lastSuccessfulChunk)

/-- The size of the control file. -/
def controlFileSize : ℕ := toUInt (size + (h.chunks + 1) * 32)

end ControlFileHeader

/-! ## Outcomes of system calls -/

/-- The system calls of `CAN_SET_VERSION` whose outcomes are given, by the functions that
    make them. -/
inductive FsCall
  | checkVersionDefault
  | checkVersion
  | writeNewVersionDefault
  | writeNewVersion
  | mkdir
  | writeNewVersionMade
  | writeVersionDefault
  | openVersionFile
  | writeVersionFile
  | writeVersion
  deriving DecidableEq, Repr

/-- The system calls of `_WriteFile` that may fail. -/
inductive WriteFault
  | openBlob
  | lseek
  /-- Only some bytes are written. -/
  | write (written : ℕ)
  | reopen
  | lseekAgain
  | memory
  | read
  deriving DecidableEq, Repr

/-! ## The state -/

/-- `WriteThreadSharedData`. -/
structure WriteThreadSharedData where
  /-- The first `_len` bytes of `m_payloadBuffer`. -/
  payload : List UInt8
  chunk : ℤ
  mErr : FileError
  lastSuccChunkBefore : ℤ
  /-- The thread has stored the chunk handed to it, and waits for the next one. -/
  writtenStatus : Bool
  /-- The chunks handed over so far, with their numbers: for statements only. -/
  handed : List (ℤ × List UInt8)

/-- `ControlFile`, and the files it works on. -/
structure ControlFile where
  /-- The header `m_header[m_currHeader]`. The other one is a copy of it, that
      `PropagateHeader` makes before it changes over. -/
  header : ControlFileHeader
  sum : SHA2Store
  sums : List SHA2Store
  suffix : Suffix
  version : String
  pd : WriteThreadSharedData
  /-- The local variable `sha2` of the thread. -/
  sha2 : SHA2Store
  fs : FileSystem

/-- How far a call of `WriteFile` gets at once. -/
inductive WriteCall
  | returned (err : FileError)
  /-- It waits for the thread, to hand over the chunk with this number. -/
  | waits (chunk : ℤ)
  deriving DecidableEq

/-- `NextSuffix`. -/
def nextSuffix (s : Suffix) : Suffix := if s = .first then .next else .first

namespace ControlFile

variable (cf : ControlFile)

/-- The image. -/
def image : Option (List UInt8) := cf.fs.read .none

/-- `SetUpdateStatus`. -/
def setUpdateStatus (status : UpdateStatus) : ControlFile :=
  { cf with
    fs := cf.fs.modify fun d =>
      { d with status := if status = .unknown then none else some status.text } }

/-- `GetUpdateStatus`: trailing control characters do not count. -/
def getUpdateStatus : UpdateStatus :=
  match cf.fs.here.bind VersionDir.status with
  | none => .unknown
  | some text =>
    let buffer := ((text.take 15).rdropWhile fun c => c < ' ').takeWhile fun c => c ≠ '\x00'
    if buffer = UpdateStatus.uploading.text then .uploading
    else if buffer = UpdateStatus.uploaded.text then .uploaded
    else if buffer = UpdateStatus.onExecution.text then .onExecution
    else if buffer = UpdateStatus.done.text then .done
    else if buffer = UpdateStatus.rollback.text then .rollback
    else .executionError

/-! ## Control files -/

/-- The bytes of hashes. -/
def sumsBytes (sums : List SHA2Store) : List UInt8 := sums.flatMap Vector.toList

/-- What both functions `WriteControlFile` do first: the size and the hash of the file. -/
def sealHeader : ControlFile :=
  let header := { cf.header with fileSize := cf.header.controlFileSize }
  let sums := cf.sums.take (toUInt header.chunks)
  { cf with header := header, sum := sha256 (header.bytes ++ sumsBytes sums) }

/-- `WriteControlFile(_fileName)`, where `s` is the suffix of the name. What was in the file
    behind the new content stays. -/
def writeControlFile (s : Suffix) : ControlFile × FileError :=
  match cf.fs.here with
  | none => (cf, .fileNotFound)
  | some d =>
    let cf := cf.sealHeader
    let sums := cf.sums.take (toUInt cf.header.chunks)
    let content := cf.header.bytes ++ sumsBytes sums ++ cf.sum.toList
    ({ cf with fs := cf.fs.write s (writeAt ((d.file s).getD []) 0 content) }, .ok)

/-- `WriteControlFile(_fileName, _chunk)`: of many hashes, the last ones up to `chunk`. -/
def writeControlFileChunk (s : Suffix) (chunk : ℤ) : ControlFile × FileError :=
  match cf.fs.here with
  | none => (cf, .fileNotFound)
  | some d =>
    let cf := cf.sealHeader
    let file := writeAt ((d.file s).getD []) 0 cf.header.bytes
    let file :=
      if cf.header.chunks ≤ 16 then
        writeAt file ControlFileHeader.size (sumsBytes (cf.sums.take (toUInt cf.header.chunks)))
      else
        let startChunk := (chunk - 2).toNat
        writeAt file (ControlFileHeader.size + 32 * startChunk)
          (sumsBytes ((cf.sums.drop startChunk).take (chunk - startChunk + 1).toNat))
    let file := writeAt file (ControlFileHeader.size + 32 * toUInt cf.header.chunks) cf.sum.toList
    ({ cf with fs := cf.fs.write s file }, .ok)

/-- The hashes in the bytes `b`, `n` of them. -/
def readSums (b : List UInt8) (n : ℕ) : List SHA2Store :=
  (List.range n).map fun i => Vector.ofFn fun j => b.getD (32 * i + j) 0

/-- `ReadControlFile`. -/
def readControlFile (s : Suffix) : ControlFile × FileError :=
  match cf.fs.read s with
  | none => (cf, .fileNotFound)
  | some b =>
    let header := ControlFileHeader.ofBytes b
    let cf := { cf with header := header }
    if b.length < ControlFileHeader.size then (cf, .noMemory)
    else if header.fileSize ≠ b.length then (cf, .fileDamaged)
    else
      let n := toUInt header.chunks
      let b := b.drop ControlFileHeader.size
      if b.length < 32 * n then ({ cf with sums := [] }, .fileDamaged)
      else if b.length < 32 * n + 32 then ({ cf with sums := [] }, .fileDamaged)
      else
        let sums := readSums b n
        let sum : SHA2Store := Vector.ofFn fun j => b.getD (32 * n + j) 0
        let cf := { cf with sums := sums, sum := sum }
        if sum ≠ sha256 (header.bytes ++ sumsBytes sums) then ({ cf with sums := [] }, .fileDamaged)
        else (cf, .ok)

/-- The loop of `CheckStoredImage` over `n` more chunks, from the chunk `ch` on, with what is
    left of the image: the first chunk that is wrong. -/
def firstWrongChunk : ℕ → ℕ → List UInt8 → Option ℕ
  | 0, _, _ => none
  | n + 1, ch, image =>
    let buffer := image.take cf.header.chunkSize
    if buffer.length = cf.header.chunkSize ∧ cf.sums[ch]? = some (sha256 buffer) then
      firstWrongChunk n (ch + 1) (image.drop cf.header.chunkSize)
    else some ch

/-- `CheckStoredImage`, with `lastCorrectChunk` where it is set. -/
def checkStoredImage : FileError × Option ℤ :=
  match cf.image with
  | none => (.fileNotFound, none)
  | some image =>
    let chunks := toUInt cf.header.lastSuccessfulChunk
    match cf.firstWrongChunk chunks 0 image with
    | some ch => (.fileDamaged, some (ch - 1))
    | none => (.ok, some (toInt chunks))

/-- A control file read, and `lastCorrectChunk` if it was in order. -/
def readAndCheck (s : Suffix) : ControlFile × Option ℤ :=
  match cf.readControlFile s with
  | (cf, .ok) => (cf, cf.checkStoredImage.2)
  | (cf, _) => (cf, none)

/-- "choose the best", of what has been found for the two control files. -/
def chosen (last0 last1 : Option ℤ) : Suffix :=
  match last0, last1 with
  | _, none => .first
  | none, _ => .next
  | some last0, some last1 => if last1 > last0 then .next else .first

/-- The end of `CheckAndLoadControlFile`, with the suffix chosen. -/
def reload (s : Suffix) : ControlFile :=
  let cf := (cf.readControlFile s).1
  let result := cf.checkStoredImage.2.getD 0
  { cf with header := { cf.header with lastSuccessfulChunk := result }, suffix := s }

/-- `CheckAndLoadControlFile`. -/
def checkAndLoadControlFile : ControlFile × FileError :=
  let (cf, last0) := cf.readAndCheck .first
  let (cf, last1) := cf.readAndCheck .next
  if last0 = none ∧ last1 = none then (cf, .fileNotFound)
  else (cf.reload (chosen last0 last1), .ok)

/-- `InitControlFile`; `none` where it divides by zero. -/
def initControlFile (size chunkSize : ℕ) : Option (ControlFile × FileError) :=
  if size = 0 then some (cf, .fileDamaged)
  else if chunkSize = 0 then none
  else
    let lastChunkSize := size % chunkSize
    let chunks : ℤ := size / chunkSize + if lastChunkSize > 0 then 1 else 0
    let header := { cf.header with
      updateSize := size
      chunkSize := chunkSize
      reserved := 0
      lastChunkSize := lastChunkSize
      chunks := chunks
      lastSuccessfulChunk := ControlFileHeader.defaultChunkNo }
    some ({ cf with
      header := { header with fileSize := (ControlFileHeader.size + (chunks + 1) * 32).toNat }
      sums := List.replicate chunks.toNat (Vector.replicate 32 0)
      suffix := nextSuffix .none }.writeControlFile (nextSuffix .none))

/-! ## Versions -/

section

variable (fails : FsCall → Bool)

/-- The outcome of the call `c`, that gives `r` where it does not fail. -/
def call (c : FsCall) (r : Option FileSystem) : Option FileSystem := if fails c then none else r

/-- `CheckVersion`. -/
def checkVersion (v : String) : ControlFile × FileError :=
  match call fails .checkVersionDefault cf.fs.chdirDefault with
  | none => (cf, .otherFileError)
  | some fs =>
    match call fails .checkVersion (fs.chdirVersion v) with
    | none => ({ cf with fs := fs }, .fileNotFound)
    | some fs => { cf with fs := fs }.checkAndLoadControlFile

/-- `WriteVersion`. -/
def writeVersion (v : String) : ControlFile × FileError :=
  if cf.version = v then (cf, .ok)
  else
    match call fails .writeVersionDefault cf.fs.chdirDefault with
    | none => ({ cf with version := "" }, .otherFileError)
    | some fs =>
      if fails .openVersionFile then ({ cf with fs := fs }, .fileWriteError)
      else if fails .writeVersionFile ∨ v = "" then
        ({ cf with fs := { fs with versionFile := some "" } }, .fileWriteError)
      else
        let cf := { cf with fs := { fs with versionFile := some v }, version := v }
        match call fails .writeVersion (cf.fs.chdirVersion v) with
        | none => (cf, .fileWriteError)
        | some fs => ({ cf with fs := fs }, .ok)

/-- `WriteExistingVersion`. -/
def writeExistingVersion (v : String) : ControlFile × FileError := cf.writeVersion fails v

/-- `WriteNewVersion`. -/
def writeNewVersion (v : String) : ControlFile × FileError :=
  match call fails .writeNewVersionDefault cf.fs.chdirDefault with
  | none => (cf, .otherFileError)
  | some fs =>
    match call fails .writeNewVersion (fs.chdirVersion v) with
    | some fs => { cf with fs := fs }.writeVersion fails v
    | none =>
      match call fails .mkdir (fs.mkdir v) with
      | none => ({ cf with fs := fs }, .fileWriteError)
      | some fs =>
        match call fails .writeNewVersionMade (fs.chdirVersion v) with
        | none => ({ cf with fs := fs }, .fileWriteError)
        | some fs => { cf with fs := fs }.writeVersion fails v

end

/-- `RemoveContent`: the names are relative to the parent of the working directory. -/
def removeContent (v : String) : ControlFile × FileError :=
  let fs := { cf.fs with cwd := cf.fs.cwd.parent }
  let cf := { cf with version := "" }
  match (if fs.cwd = .download then fs.dirs (.version v) else none) with
  | none => ({ cf with fs := fs }, .fileNotFound)
  | some d =>
    let d := ((d.setFile cf.suffix none).setFile (nextSuffix cf.suffix) none).setFile .none none
    let d := { d with status := none }
    if d.isEmpty then
      ({ cf with fs := { fs with dirs := Function.update fs.dirs (.version v) none } }, .ok)
    else
      ({ cf with fs := { fs with dirs := Function.update fs.dirs (.version v) (some d) } },
        .fileNotFound)

/-! ## Chunks -/

/-- `WriteFile`, up to its loop. After an error of the thread it stores nothing. -/
def writeFile : ControlFile × WriteCall :=
  if cf.pd.mErr ≠ .ok then
    ({ cf with header.lastSuccessfulChunk := cf.pd.lastSuccChunkBefore }, .returned .ok)
  else
    let chunk :=
      if cf.header.next = ControlFileHeader.defaultChunkNo then toInt cf.header.chunks
      else cf.header.next
    if chunk = ControlFileHeader.defaultChunkNo then (cf, .returned .otherFileError)
    else (cf, .waits chunk)

/-- `WriteFile` after its loop: `buf` becomes the chunk that the thread is to store. -/
def handOver (chunk : ℤ) (buf : List UInt8) : ControlFile :=
  { cf with
    pd := { cf.pd with
      payload := buf
      chunk := chunk
      lastSuccChunkBefore := toInt cf.header.lastSuccessfulChunk
      writtenStatus := false
      handed := cf.pd.handed ++ [(chunk, buf)] }
    header := { cf.header with lastSuccessfulChunk := chunk } }

/-- `_WriteFile`, with the hash of the chunk where it is computed. -/
def _writeFile (fault : Option WriteFault) (buf : List UInt8) (chunk : ℤ) :
    FileSystem × FileError × Option SHA2Store :=
  match cf.fs.here with
  | none => (cf.fs, .fileNotFound, none)
  | some d =>
    if fault = some .openBlob then (cf.fs, .fileNotFound, none)
    else
      let file := (d.file .none).getD []
      let fs := cf.fs.write .none file
      if chunk ≥ toInt cf.header.chunks then (fs, .otherFileError, none)
      else
        let fOffset := toInt (cf.header.chunkSize * chunk)
        if fault = some .lseek ∨ fOffset < 0 then (fs, .fileWriteError, none)
        else
          let written := writeAt file fOffset.toNat buf
          let fs := cf.fs.write .none written
          match fault with
          | some (.write n) =>
            (cf.fs.write .none (writeAt file fOffset.toNat (buf.take n)), .fileNotFound, none)
          | some .lseekAgain => (fs, .fileWriteError, none)
          | some .memory => (fs, .noMemory, none)
          | some _ => (fs, .fileNotFound, none)
          | none => (fs, .ok, some (sha256 ((written.drop fOffset.toNat).take buf.length)))

/-- `IntThread`: the chunk handed over is written, and its hash kept. -/
def recordChunk (fault : Option WriteFault) : ControlFile :=
  let (fs, mErr, sha2) := cf._writeFile fault cf.pd.payload cf.pd.chunk
  let sha2 := sha2.getD cf.sha2
  { cf with
    fs := fs
    sha2 := sha2
    sums := cf.sums.set cf.pd.chunk.toNat sha2
    pd := { cf.pd with mErr := mErr } }

/-- The body of the loop of `IntThread`, once it has been woken up. -/
def intThread (fault : Option WriteFault) : ControlFile :=
  let cf := cf.recordChunk fault
  let cf := (cf.writeControlFileChunk cf.suffix cf.pd.chunk).1
  { cf with
    suffix := nextSuffix cf.suffix
    pd := { cf.pd with writtenStatus := true } }

/-! ## The check of the image -/

/-- The loop of `CheckChunkSHA2`: what it reads of the next `size` bytes, `none` if the file
    ends before its last read. -/
def readBlocks (file : List UInt8) (size : ℕ) : Option (List UInt8) :=
  if size = 0 then some []
  else if file = [] then none
  else (readBlocks (file.drop 32768) (size - min size 32768)).map (file.take (min size 32768) ++ ·)
termination_by size

/-- `CheckChunkSHA2`, with the hash where it is computed. -/
def checkChunkSHA2 (chunk : ℤ) : ControlFile × FileError × Option SHA2Store :=
  match cf.image with
  | none => (cf, .fileNotFound, none)
  | some file =>
    if chunk ≥ toInt cf.header.chunks then (cf, .otherFileError, none)
    else
      let whole := chunk = ControlFileHeader.defaultChunkNo
      let fOffset := if whole then 0 else toInt (cf.header.chunkSize * chunk)
      let size := if whole then file.length else cf.header.chunkSize
      if fOffset < 0 then (cf, .fileWriteError, none)
      else
        match readBlocks (file.drop fOffset.toNat) size with
        | none => (cf, .fileDamaged, none)
        | some bytes =>
          (if whole then cf.setUpdateStatus .uploaded else cf, .ok, some (sha256 bytes))

variable {cf} {cf' : ControlFile} {s : Suffix} {v : String} {fails : FsCall → Bool}

/-- The whole of a file is read. -/
theorem readBlocks_length (file : List UInt8) : readBlocks file file.length = some file := by
  induction hn : file.length using Nat.strong_induction_on generalizing file with
  | _ n ih =>
    subst hn
    rw [readBlocks]
    split_ifs with h0 hnil
    · rw [List.length_eq_zero_iff.1 h0]
    · exact absurd (by rw [hnil]; rfl) h0
    · have hlen : file.length - min file.length 32768 = (file.drop 32768).length := by
        rw [List.length_drop]
        omega
      rw [hlen, ih _ (by rw [List.length_drop]; omega) _ rfl, Option.map_some, Nat.min_comm,
        ← List.take_eq_take_min, List.take_append_drop]

/-! ## What is left as it is -/

@[simp] theorem header_setUpdateStatus (status : UpdateStatus) :
    (cf.setUpdateStatus status).header = cf.header := rfl

@[simp] theorem pd_setUpdateStatus (status : UpdateStatus) :
    (cf.setUpdateStatus status).pd = cf.pd := rfl

@[simp] theorem image_setUpdateStatus (status : UpdateStatus) :
    (cf.setUpdateStatus status).image = cf.image :=
  FileSystem.read_modify_status _

theorem pd_writeControlFile : (cf.writeControlFile s).1.pd = cf.pd := by
  unfold writeControlFile
  split <;> rfl

/-- A write of the control file changes the header in the size of that file only. -/
theorem header_writeControlFile (cf : ControlFile) (s : Suffix) :
    ∃ n, (cf.writeControlFile s).1.header = { cf.header with fileSize := n } := by
  unfold writeControlFile
  split <;> exact ⟨_, rfl⟩

theorem pd_writeControlFileChunk (chunk : ℤ) : (cf.writeControlFileChunk s chunk).1.pd = cf.pd := by
  unfold writeControlFileChunk
  split <;> rfl

theorem next_writeControlFileChunk (chunk : ℤ) :
    (cf.writeControlFileChunk s chunk).1.header.next = cf.header.next := by
  unfold writeControlFileChunk
  split <;> rfl

theorem pd_readControlFile (cf : ControlFile) (s : Suffix) :
    (cf.readControlFile s).1.pd = cf.pd := by
  unfold readControlFile
  split
  · rfl
  · dsimp only
    split_ifs <;> rfl

theorem pd_readAndCheck : (cf.readAndCheck s).1.pd = cf.pd := by
  have h := pd_readControlFile cf s
  unfold readAndCheck
  split
  all_goals
    rename_i heq
    rwa [heq] at h

theorem pd_checkAndLoadControlFile (cf : ControlFile) :
    cf.checkAndLoadControlFile.1.pd = cf.pd := by
  simp only [checkAndLoadControlFile]
  split
  · rw [pd_readAndCheck, pd_readAndCheck]
  · simp only [reload, pd_readControlFile, pd_readAndCheck]

theorem pd_initControlFile {size chunkSize : ℕ} {r : ControlFile × FileError}
    (h : cf.initControlFile size chunkSize = some r) : r.1.pd = cf.pd := by
  unfold initControlFile at h
  split_ifs at h
  · rw [← Option.some.inj h]
  · rw [← Option.some.inj h, pd_writeControlFile]

theorem pd_checkVersion (cf : ControlFile) (fails : FsCall → Bool) (v : String) :
    (cf.checkVersion fails v).1.pd = cf.pd := by
  unfold checkVersion
  split
  · rfl
  · split
    · rfl
    · exact pd_checkAndLoadControlFile _

theorem pd_writeVersion (cf : ControlFile) (fails : FsCall → Bool) (v : String) :
    (cf.writeVersion fails v).1.pd = cf.pd := by
  unfold writeVersion
  split
  · rfl
  · split
    · rfl
    · split_ifs
      · rfl
      · rfl
      · dsimp only
        split <;> rfl

theorem pd_writeNewVersion (cf : ControlFile) (fails : FsCall → Bool) (v : String) :
    (cf.writeNewVersion fails v).1.pd = cf.pd := by
  unfold writeNewVersion
  split
  · rfl
  · split
    · exact pd_writeVersion _ fails v
    · split
      · rfl
      · split
        · rfl
        · exact pd_writeVersion _ fails v

theorem removeContent_fst (cf : ControlFile) (v : String) : (cf.removeContent v).1.pd = cf.pd ∧
    (cf.removeContent v).1.header = cf.header := by
  unfold removeContent
  dsimp only
  split
  · exact ⟨rfl, rfl⟩
  · split_ifs <;> exact ⟨rfl, rfl⟩

/-- The check of a chunk, or of the image, writes nothing but the status. -/
theorem checkChunkSHA2_fst (cf : ControlFile) (chunk : ℤ) :
    (cf.checkChunkSHA2 chunk).1 = cf ∨ (cf.checkChunkSHA2 chunk).1 = cf.setUpdateStatus .uploaded := by
  unfold checkChunkSHA2
  split
  · exact .inl rfl
  · by_cases hw : chunk = ControlFileHeader.defaultChunkNo
    · simp only [hw, if_true]
      split_ifs
      · exact .inl rfl
      · exact .inl rfl
      · split
        · exact .inl rfl
        · exact .inr rfl
    · simp only [hw, if_false]
      split_ifs
      · exact .inl rfl
      · exact .inl rfl
      · split <;> exact .inl rfl

/-- The check of one chunk leaves everything as it is. -/
theorem checkChunkSHA2_chunk (cf : ControlFile) {chunk : ℤ}
    (h : chunk ≠ ControlFileHeader.defaultChunkNo) : (cf.checkChunkSHA2 chunk).1 = cf := by
  unfold checkChunkSHA2
  split
  · rfl
  · simp only [h, if_false]
    split_ifs
    · rfl
    · rfl
    · split <;> rfl

/-- The hash that the check of the image computes is that of the image. -/
theorem checkChunkSHA2_whole {sha2 : SHA2Store}
    (h : (cf.checkChunkSHA2 ControlFileHeader.defaultChunkNo).2.2 = some sha2) :
    ∃ file, cf.image = some file ∧ sha256 file = sha2 := by
  unfold checkChunkSHA2 at h
  split at h
  · cases h
  · rename_i file himage
    simp only [if_true, lt_irrefl, if_false, Int.toNat_zero, List.drop_zero, readBlocks_length] at h
    split_ifs at h
    exact ⟨file, himage, Option.some.inj h⟩

/-- The thread changes neither the next chunk nor what has been handed over. -/
theorem intThread_next (fault : Option WriteFault) :
    (cf.intThread fault).header.next = cf.header.next := by
  rw [intThread, next_writeControlFileChunk]
  rfl

theorem intThread_handed (fault : Option WriteFault) :
    (cf.intThread fault).pd.handed = cf.pd.handed := by
  simp only [intThread, pd_writeControlFileChunk]
  rfl

theorem writeFile_fst {chunk : ℤ} (h : cf.writeFile = (cf', .waits chunk)) :
    cf' = cf ∧ cf.pd.mErr = .ok := by
  unfold writeFile at h
  dsimp only at h
  split_ifs at h with herr
  all_goals first | (cases h; exact ⟨rfl, not_not.1 herr⟩) | cases h

/-- The chunk that `WriteFile` is to store is the next one. -/
theorem writeFile_waits {chunk : ℤ} (h : cf.writeFile = (cf', .waits chunk))
    (hnext : cf.header.next ≠ ControlFileHeader.defaultChunkNo) :
    cf' = cf ∧ chunk = cf.header.next := by
  simp only [writeFile, if_neg hnext] at h
  split_ifs at h
  · cases h
  · cases h
    exact ⟨rfl, rfl⟩

/-- Without a chunk to store, `WriteFile` changes at most the number of the last chunk. -/
theorem pd_writeFile (cf : ControlFile) : cf.writeFile.1.pd = cf.pd := by
  unfold writeFile
  dsimp only
  split_ifs <;> rfl

end ControlFile

end EW8.Update
