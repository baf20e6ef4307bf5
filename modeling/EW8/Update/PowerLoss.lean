import EW8.Update.Storage

/-!
# Losses of power

An upload that is laid out in an empty directory, goes on over losses of power and reboots
(`Powered`): a loss of power ends the engine at any time, while a chunk is written to the image, or
while one of the two control files is written, of which anything may be left then.

As long as one of the control files is taken by `ReadControlFile`, the upload can be resumed
(`Recoverable`). The two files are written in turn, so that the other one is still there
(`recoverable_of_run`), but after a reboot the first one to be written is the one from which the
upload has been resumed, which may be the only good one (`recoverable_fails_of_second_loss`).
-/

namespace EW8.Update

/-- The engine, with and without power. -/
structure Powered extends Storage where
  /-- A chunk has been stored, and the control file after it. -/
  completed : Bool

namespace ControlFile

variable {cf : ControlFile} {s : Suffix} {b buf : List UInt8} {k lo hi : ℕ}

/-! ## Good control files -/

/-- The control file with the suffix `s` is taken, and it is in step outside of the hashes from
    `lo` to `hi`. -/
def Good (cf : ControlFile) (s : Suffix) (lo hi : ℕ) : Prop :=
  ∃ b, cf.fs.read s = some b ∧ accepted b = true ∧
    b.length = ControlFileHeader.size + 32 * cf.header.count + 32 ∧ cf.InStep b lo hi

/-- The control file fits in the 32 bits that its size is computed in. -/
def Fits (cf : ControlFile) : Prop :=
  ControlFileHeader.size + 32 * (cf.header.count + 1) < 2 ^ 32

theorem Good.mono {lo' hi' : ℕ} (h : cf.Good s lo hi) (hlo : lo' ≤ lo) (hhi : hi ≤ hi') :
    cf.Good s lo' hi' := by
  obtain ⟨b, hb, hacc, hlen, hstep⟩ := h
  exact ⟨b, hb, hacc, hlen, hstep.mono hlo hhi⟩

/-- A control file that is written as a whole is taken. -/
theorem accepted_sealHeader (h : cf.LaidOut) (hfits : cf.Fits) :
    accepted cf.sealHeader.content = true := by
  have hseal := laidOut_sealHeader h
  have hcount := h.inRange.count_eq
  have hsize : ControlFileHeader.size = 64 := rfl
  have hsums : cf.sums.take (toUInt cf.header.chunks) = cf.sums :=
    List.take_of_length_le (le_of_eq h.allocated)
  refine accepted_content hseal.allocated hseal.encodable ?_ ?_
  · have hchunks : ControlFileHeader.size + (cf.header.chunks + 1) * 32 =
        (ControlFileHeader.size + 32 * cf.header.count + 32 : ℕ) := by
      rw [← hcount]
      push_cast
      ring
    have hfile : cf.sealHeader.header.fileSize =
        toUInt (ControlFileHeader.size + (cf.header.chunks + 1) * 32) := rfl
    rw [hfile, hchunks, toUInt_natCast (by rw [Fits] at hfits; omega)]
    rfl
  · have hsum : cf.sealHeader.sum =
        sha256 (cf.sealHeader.header.bytes ++ sumsBytes (cf.sums.take (toUInt cf.header.chunks))) := rfl
    rw [hsum, hsums]
    rfl

section

variable {fault : Option WriteFault}

/-- A good control file is good again once it has been written. -/
theorem Good.stored (h : cf.LaidOut) (hfits : cf.Fits) (hk : cf.IsNext k)
    (hgood : cf.Good cf.suffix (k - 2) k) :
    (cf.stored buf k fault ((cf.recorded buf k fault).sealHeader.pieces (cf.fileOf cf.suffix) k)).Good
      cf.suffix lo hi := by
  obtain ⟨b, hb, -, hlen, hstep⟩ := hgood
  have hw := laidOut_recorded buf fault h hk
  have hseal := laidOut_sealHeader hw
  have hfile : cf.fileOf cf.suffix = b := by rw [fileOf, hb, Option.getD_some]
  have hcontent : (cf.recorded buf k fault).sealHeader.pieces b k =
      (cf.recorded buf k fault).sealHeader.content := by
    rw [pieces_recorded h hk hstep, writeAt, overwrite_zero]
    rw [length_content hseal.allocated, hlen]
    rfl
  obtain ⟨d, hd⟩ := Option.isSome_iff_exists.1 hw.here
  rw [hfile, hcontent]
  refine ⟨_, FileSystem.read_write d hd _, accepted_sealHeader hw hfits, ?_, ?_⟩
  · exact length_content hseal.allocated
  · have hin : (cf.recorded buf k fault).sealHeader.InStep
        (cf.recorded buf k fault).sealHeader.content lo hi :=
      fun _ _ hj _ => hashAt_content hseal.allocated hj
    exact hin.congr rfl rfl

/-- The other control file is as before. -/
theorem Good.stored_of_ne {file : List UInt8} (hgood : cf.Good s lo hi) (hs : s ≠ .none)
    (hne : s ≠ cf.suffix) (hlo : lo ≤ k) (hhi : k ≤ hi) : (cf.stored buf k fault file).Good s lo hi := by
  obtain ⟨b, hb, hacc, hlen, hstep⟩ := hgood
  refine ⟨b, ?_, hacc, hlen, (hstep.recorded hlo hhi).congr rfl rfl⟩
  rw [ControlFile.stored, FileSystem.read_write_of_ne hne, cf.read_recorded buf k fault hs, hb]

end

section

variable (cf : ControlFile) (buf : List UInt8) (k : ℕ) (torn : Option (List UInt8))

/-- A control file that has been torn, after its chunk has been stored. -/
theorem read_torn_self (h : cf.fs.here.isSome) :
    ((cf.recorded buf k none).fs.modify fun d => d.setFile cf.suffix torn).read cf.suffix = torn := by
  obtain ⟨d, hd⟩ := Option.isSome_iff_exists.1 ((cf.isSome_here_recorded buf k none).2 h)
  rw [FileSystem.read, FileSystem.here_modify, hd]
  exact VersionDir.file_setFile_self

theorem read_torn_of_ne (h : cf.fs.here.isSome) (hs : s ≠ .none) (hne : s ≠ cf.suffix) :
    ((cf.recorded buf k none).fs.modify fun d => d.setFile cf.suffix torn).read s = cf.fs.read s := by
  obtain ⟨d, hd⟩ := Option.isSome_iff_exists.1 ((cf.isSome_here_recorded buf k none).2 h)
  rw [← cf.read_recorded buf k none hs, FileSystem.read, FileSystem.here_modify, hd, FileSystem.read,
    hd]
  exact VersionDir.file_setFile_of_ne hne

end

theorem place_recorded (cf : ControlFile) (buf : List UInt8) (k : ℕ) (fault : Option WriteFault) :
    (cf.recorded buf k fault).fs.cwd = cf.fs.cwd ∧
      getVersion (cf.recorded buf k fault).fs = getVersion cf.fs := by
  rcases cf.fs_recorded buf k fault with h | ⟨file', h⟩ <;> rw [h] <;> exact ⟨rfl, rfl⟩

theorem filesWritten_stored {fault : Option WriteFault} (h : cf.LaidOut) (hk : cf.IsNext k)
    (hfiles : ∀ s b, s ≠ .none → cf.fs.read s = some b → accepted b = true →
      (ControlFileHeader.ofBytes b).Written) :
    ∀ s b', s ≠ .none → (cf.stored buf k fault
      ((cf.recorded buf k fault).sealHeader.pieces b k)).fs.read s = some b' → accepted b' = true →
        (ControlFileHeader.ofBytes b').Written := by
  intro s b' hs hb hacc
  have hw := laidOut_recorded buf fault h hk
  by_cases hne : s = cf.suffix
  · subst hne
    obtain ⟨d, hd⟩ := Option.isSome_iff_exists.1 hw.here
    rw [ControlFile.stored, FileSystem.read_write d hd] at hb
    rw [← Option.some.inj hb, ofBytes_pieces (laidOut_sealHeader hw).encodable]
    exact written_sealHeader hw.inRange
  · rw [ControlFile.stored, FileSystem.read_write_of_ne hne, cf.read_recorded buf k fault hs] at hb
    exact hfiles s b' hs hb hacc

/-- Only chunks of the image are stored without an error. -/
theorem lt_of_writeFile_ok (cf : ControlFile) {fault : Option WriteFault} {chunk : ℤ}
    (h : (cf._writeFile fault buf chunk).2.1 = .ok) : chunk < toInt cf.header.chunks := by
  by_contra hge
  unfold _writeFile at h
  split at h
  · cases h
  · dsimp only at h
    rw [if_pos (not_lt.1 hge)] at h
    split_ifs at h

/-! ## After a reboot -/

theorem count_resume : (cf.resume s b).header.count = (ControlFileHeader.ofBytes b).count := by
  rw [header_resume, ControlFileHeader.count, ControlFileHeader.count]

theorem fits_resume (h : (ControlFileHeader.ofBytes b).Written) (hacc : accepted b = true) :
    (cf.resume s b).Fits := by
  obtain ⟨hlen, hlt⟩ := length_of_accepted h hacc
  rw [Fits, count_resume]
  omega

theorem good_resume (cf : ControlFile) (h : (ControlFileHeader.ofBytes b).Written) (hacc : accepted b = true)
    (hb : cf.fs.read s = some b) (lo hi : ℕ) : (cf.resume s b).Good (cf.resume s b).suffix lo hi := by
  have hsuffix : (cf.resume s b).suffix = s := by simp only [resume]
  refine ⟨b, by rw [fs_resume, hsuffix, hb], hacc, ?_, inStep_of_hashes (by simp only [resume, load])⟩
  rw [count_resume]
  exact (length_of_accepted h hacc).1

theorem here_bootFs (fs : FileSystem) : (bootFs fs).here = fs.dirs (.version (getVersion fs)) := by
  show (makeDefault fs).dirs (.version (getVersion fs)) = _
  have hdirs : (makeDefault fs).dirs = if (fs.dirs .download).isSome then fs.dirs
    else Function.update fs.dirs .download (some .empty) := rfl
  rw [hdirs]
  split_ifs
  · rfl
  · exact Function.update_of_ne (by simp) _ _

/-- A reboot finds the files of the working directory, if that is the one of the version. -/
theorem read_bootFs {fs : FileSystem} (h : fs.cwd = .version (getVersion fs)) :
    (bootFs fs).read s = fs.read s := by
  rw [FileSystem.read, here_bootFs, FileSystem.read, FileSystem.here, h]

end ControlFile

namespace Powered

open ControlFile

/-- What the engine is doing when the power is lost. -/
inductive Loss
  | idle
  /-- It writes the chunk `buf`, and `n` bytes of it are in the image. -/
  | image (buf : List UInt8) (n : ℕ)
  /-- It writes the control file after the chunk `buf`, and `torn` is what is left of it. -/
  | controlFile (buf : List UInt8) (torn : Option (List UInt8))

/-- What happens. -/
inductive Event
  /-- A chunk is stored without an error. -/
  | chunk (buf : List UInt8)
  /-- The power is lost. -/
  | loss (l : Loss)
  /-- The engine is started again. -/
  | boot (pd : WriteThreadSharedData)

variable (t : Powered)

/-- The files that a loss of power leaves. -/
def leaves : Loss → Option FileSystem
  | .idle => some t.cf.fs
  | .image buf n =>
    match t.cf.writeFile with
    | (cf, .waits chunk) => some ((cf.handOver chunk buf)._writeFile (some (.write n)) buf chunk).1
    | _ => none
  | .controlFile buf torn =>
    match t.cf.writeFile with
    | (cf, .waits chunk) =>
      let w := (cf.handOver chunk buf).recordChunk none
      if w.pd.mErr = .ok then some (w.fs.modify fun d => d.setFile w.suffix torn) else none
    | _ => none

/-- A step. -/
def step : Event → Option Powered
  | .chunk buf =>
    match t.cf.writeFile with
    | (cf, .waits chunk) =>
      let cf := (cf.handOver chunk buf).intThread none
      if t.running ∧ cf.pd.mErr = .ok then some { cf := cf, running := true, completed := true }
      else none
    | _ => none
  | .loss l =>
    if t.running then
      (t.leaves l).map fun fs => { t with cf := { t.cf with fs := fs }, running := false }
    else none
  | .boot pd =>
    if t.running then none
    else
      let r := (ControlFile.new pd t.cf.fs).bootStrap
      some { cf := r.1, running := r.2 = .ok, completed := t.completed }

/-- The directory of the version, as `ReadControlFile` finds it after a reboot. -/
def rebooted : ControlFile := { t.cf with fs := bootFs t.cf.fs }

/-- `ReadControlFile` takes one of the control files. -/
def Recoverable : Prop := ∃ s, s ≠ .none ∧ (t.rebooted.readControlFile s).2 = .ok

/-- The upload has been laid out in an empty directory, that of the current version. -/
structure Started (size chunkSize : UInt32) : Prop where
  init : ∃ cf : ControlFile, cf.fs.cwd = .version (getVersion cf.fs) ∧ cf.fs.here = some .empty ∧
    cf.initControlFile size.toNat chunkSize.toNat = some (t.cf, .ok)
  running : t.running = true
  completed : t.completed = false

/-- The power is not lost while the only control file that is taken is written. -/
def spares : Event → Prop
  | .loss (.controlFile ..) =>
    t.completed = true → (t.rebooted.readControlFile (nextSuffix t.cf.suffix)).2 = .ok
  | _ => True

/-- A control file that is torn is taken just if it is as before or complete. -/
def tornIsRefused : Event → Prop
  | .loss (.controlFile buf torn) =>
    ∀ b ∈ torn, accepted b = true → t.cf.fs.read t.cf.suffix = some b ∨
      ∃ t' ∈ t.step (.chunk buf), t'.cf.fs.read t.cf.suffix = some b
  | _ => True

variable {t t' : Powered} {e : Event} {l : List Event}

theorem recoverable_iff : t.Recoverable ↔
    ∃ s b, s ≠ .none ∧ (bootFs t.cf.fs).read s = some b ∧ accepted b = true := by
  simp only [Recoverable, readControlFile_ok_iff, exists_and_left]
  rfl

/-- The upload can go on, and one of the control files is good: the one that is written next, or
    the other one. -/
structure Uploading (cf : ControlFile) : Prop extends cf.LaidOut where
  cwd : cf.fs.cwd = .version (getVersion cf.fs)
  fits : cf.Fits
  good : cf.Good cf.suffix (cf.header.lastSuccessfulChunk - 1).toNat
      (cf.header.lastSuccessfulChunk + 1).toNat ∨
    cf.Good (nextSuffix cf.suffix) cf.header.lastSuccessfulChunk.toNat
      (cf.header.lastSuccessfulChunk + 2).toNat

/-- All control files that are taken are as the engine writes them. -/
def FilesWritten (fs : FileSystem) : Prop :=
  ∀ s b, s ≠ .none → (bootFs fs).read s = some b → accepted b = true →
    (ControlFileHeader.ofBytes b).Written

theorem filesWritten_iff (fs : FileSystem) (h : fs.cwd = .version (getVersion fs)) :
    FilesWritten fs ↔ ∀ s b, s ≠ .none → fs.read s = some b → accepted b = true →
      (ControlFileHeader.ofBytes b).Written := by
  unfold FilesWritten
  simp only [read_bootFs h]

/-- What holds in every state. -/
structure Safe (t : Powered) : Prop where
  files : FilesWritten t.cf.fs
  uploading : t.running = true → Uploading t.cf
  recoverable : t.completed = true → t.Recoverable

theorem Uploading.recoverable (h : Uploading t.cf) : t.Recoverable := by
  rw [recoverable_iff]
  rcases h.good with ⟨b, hb, hacc, -⟩ | ⟨b, hb, hacc, -⟩
  · exact ⟨_, b, h.suffix, by rw [read_bootFs h.cwd, hb], hacc⟩
  · exact ⟨_, b, nextSuffix_ne_none _, by rw [read_bootFs h.cwd, hb], hacc⟩

/-- The chunk that is handed over when a chunk is stored without an error. -/
theorem isNext_of_step {buf : List UInt8} (h : Uploading t.cf) {cf : ControlFile} {chunk : ℤ}
    (hwrite : t.cf.writeFile = (cf, .waits chunk))
    (hok : ((cf.handOver chunk buf).recordChunk none).pd.mErr = .ok) :
    cf = t.cf ∧ ∃ k : ℕ, chunk = k ∧ t.cf.IsNext k := by
  obtain ⟨rfl, herr⟩ := writeFile_fst hwrite
  refine ⟨rfl, ?_⟩
  by_cases hnext : t.cf.header.next = ControlFileHeader.defaultChunkNo
  · -- the chunk has the number of chunks as its number, and is not stored
    have hlt : chunk < toInt t.cf.header.chunks :=
      (t.cf.handOver chunk buf).lt_of_writeFile_ok hok
    simp only [writeFile, if_neg (not_not.2 herr), if_pos hnext] at hwrite
    split_ifs at hwrite
    · cases hwrite
    · cases hwrite
      exact absurd hlt (lt_irrefl _)
  · obtain ⟨k, hk, hisNext⟩ := exists_isNext h.inRange herr hnext
    rw [hwrite] at hk
    refine ⟨k, ?_, hisNext⟩
    cases hk
    rfl

/-! ## The steps -/

theorem Uploading.stored {cf : ControlFile} {buf : List UInt8} {k : ℕ} (h : Uploading cf)
    (hk : cf.IsNext k) : Uploading (cf.stored buf k none
      ((cf.recorded buf k none).sealHeader.pieces (cf.fileOf cf.suffix) k)) where
  toLaidOut := laidOut_stored h.toLaidOut hk
  cwd := by
    obtain ⟨hcwd, hversion⟩ := cf.place_recorded buf k none
    exact hcwd.trans (h.cwd.trans (congrArg _ hversion.symm))
  fits := h.fits
  good := by
    have heq := hk.eq
    rcases h.good with hgood | hgood
    · -- the good file has been written, and is the other one now
      have hsuffix : nextSuffix (nextSuffix cf.suffix) = cf.suffix := nextSuffix_nextSuffix h.suffix
      refine .inr ?_
      show ControlFile.Good _ (nextSuffix (nextSuffix cf.suffix)) _ _
      rw [hsuffix]
      exact Good.stored h.toLaidOut h.fits hk (hgood.mono (by omega) (by omega))
    · -- the good file is as before, and is written next
      refine .inl ?_
      show ControlFile.Good _ (nextSuffix cf.suffix) ((k : ℤ) - 1).toNat ((k : ℤ) + 1).toNat
      exact (hgood.mono (by omega) (by omega)).stored_of_ne (nextSuffix_ne_none _) (nextSuffix_ne _)
        (by omega) (by omega)

/-- The upload after a chunk that is stored without an error. -/
theorem stored_of_step {buf : List UInt8} (hup : Uploading t.cf)
    (hstep : t.step (.chunk buf) = some t') : ∃ k : ℕ, t.cf.IsNext k ∧
      t'.cf = t.cf.stored buf k none
        ((t.cf.recorded buf k none).sealHeader.pieces (t.cf.fileOf t.cf.suffix) k) := by
  simp only [step] at hstep
  split at hstep
  · rename_i cf chunk hwrite
    split_ifs at hstep with hcond
    have hok : ((cf.handOver chunk buf).recordChunk none).pd.mErr = .ok := by
      rw [← hcond.2, intThread]
      simp only [pd_writeControlFileChunk]
    obtain ⟨rfl, k, rfl, hk⟩ := isNext_of_step hup hwrite hok
    rw [← Option.some.inj hstep]
    exact ⟨k, hk, intThread_eq_stored hup.toLaidOut hk⟩
  · cases hstep

theorem safe_chunk {buf : List UInt8} (h : t.Safe) (hstep : t.step (.chunk buf) = some t') : t'.Safe := by
  have hrun : t.running = true := by
    simp only [step] at hstep
    split at hstep
    · split_ifs at hstep with hcond
      exact hcond.1
    · cases hstep
  have hup := h.uploading hrun
  obtain ⟨k, hk, heq⟩ := stored_of_step hup hstep
  have hup' : Uploading t'.cf := heq ▸ hup.stored hk
  refine ⟨?_, fun _ => hup', fun _ => hup'.recoverable⟩
  rw [filesWritten_iff _ hup'.cwd, heq]
  exact filesWritten_stored hup.toLaidOut hk ((filesWritten_iff _ hup.cwd).1 h.files)

/-- What a loss of power leaves: the control files are as the engine writes them, and one of them is
    taken. -/
theorem leaves_spec {loss : Loss} {fs : FileSystem} (hup : Uploading t.cf) (h : t.Safe)
    (hspares : t.spares (.loss loss)) (htorn : t.tornIsRefused (.loss loss))
    (hfs : t.leaves loss = some fs) : fs.cwd = .version (getVersion fs) ∧
      (∀ s b, s ≠ .none → fs.read s = some b → accepted b = true →
        (ControlFileHeader.ofBytes b).Written) ∧
      (t.completed = true → ∃ s b, s ≠ .none ∧ fs.read s = some b ∧ accepted b = true) := by
  have hfiles := (filesWritten_iff _ hup.cwd).1 h.files
  have hrec : t.completed = true → ∃ s b, s ≠ .none ∧ t.cf.fs.read s = some b ∧ accepted b = true := by
    simpa only [recoverable_iff, read_bootFs hup.cwd] using h.recoverable
  cases loss with
  | idle =>
    obtain rfl := Option.some.inj hfs
    exact ⟨hup.cwd, hfiles, hrec⟩
  | image buf n =>
    simp only [leaves] at hfs
    -- the image is no control file, so these are as they were
    split at hfs
    · rename_i cf chunk hwrite
      obtain rfl := Option.some.inj hfs
      obtain ⟨rfl, -⟩ := writeFile_fst hwrite
      rcases fs_writeFile (t.cf.handOver chunk buf) (some (.write n)) buf chunk with hfs | ⟨file, hfs⟩
      · rw [hfs]
        exact ⟨hup.cwd, hfiles, hrec⟩
      · rw [hfs]
        have hread (s : Suffix) (hs : s ≠ .none) :
            ((t.cf.handOver chunk buf).fs.write .none file).read s = t.cf.fs.read s :=
          FileSystem.read_write_of_ne hs file
        refine ⟨hup.cwd, fun s b hs hb => hfiles s b hs (hread s hs ▸ hb), fun hc => ?_⟩
        obtain ⟨s, b, hs, hb, hacc⟩ := hrec hc
        exact ⟨s, b, hs, (hread s hs).trans hb, hacc⟩
    · cases hfs
  | controlFile buf torn =>
    simp only [leaves] at hfs
    split at hfs
    · rename_i cf chunk hwrite
      split_ifs at hfs with hok
      obtain rfl := Option.some.inj hfs
      obtain ⟨rfl, k, rfl, hk⟩ := isNext_of_step hup hwrite hok
      have hown : ((t.cf.recorded buf k none).fs.modify fun d => d.setFile t.cf.suffix torn).read
          t.cf.suffix = torn := t.cf.read_torn_self buf k torn hup.here
      have hother (s : Suffix) (hs : s ≠ .none) (hne : s ≠ t.cf.suffix) :
          ((t.cf.recorded buf k none).fs.modify fun d => d.setFile t.cf.suffix torn).read s =
            t.cf.fs.read s := t.cf.read_torn_of_ne buf k torn hup.here hs hne
      refine ⟨?_, fun s b hs hb hacc => ?_, fun hc => ?_⟩
      · obtain ⟨hcwd, hversion⟩ := t.cf.place_recorded buf k none
        exact hcwd.trans (hup.cwd.trans (congrArg _ hversion.symm))
      -- of the two files, only the one that was being written may be torn
      · by_cases hne : s = t.cf.suffix
        · subst hne
          rcases htorn b (hown ▸ hb) hacc with hold | ⟨t', hstep, hnew⟩
          · exact hfiles _ b hs hold hacc
          · obtain ⟨k', hk', heq⟩ := stored_of_step hup hstep
            rw [heq] at hnew
            exact filesWritten_stored hup.toLaidOut hk' hfiles _ b hs hnew hacc
        · exact hfiles s b hs (hother s hs hne ▸ hb) hacc
      -- and the other one can be read, which is what `spares` asks for
      · obtain ⟨b, hb, hacc⟩ := readControlFile_ok_iff.1 (hspares hc)
        rw [rebooted, read_bootFs hup.cwd] at hb
        exact ⟨_, b, nextSuffix_ne_none _,
          (hother _ (nextSuffix_ne_none _) (nextSuffix_ne _)).trans hb, hacc⟩
    · cases hfs

theorem safe_loss {loss : Loss} (h : t.Safe) (hspares : t.spares (.loss loss))
    (htorn : t.tornIsRefused (.loss loss)) (hstep : t.step (.loss loss) = some t') : t'.Safe := by
  simp only [step] at hstep
  split_ifs at hstep with hrun
  obtain ⟨fs, hfs, rfl⟩ := Option.map_eq_some_iff.1 hstep
  have hup := h.uploading hrun
  obtain ⟨hcwd, hfiles, hrec⟩ := leaves_spec hup h hspares htorn hfs
  refine ⟨(filesWritten_iff _ hcwd).2 hfiles, fun hrun => absurd hrun (by simp), fun hc => ?_⟩
  obtain ⟨s, b, hs, hb, hacc⟩ := hrec hc
  exact recoverable_iff.2 ⟨s, b, hs, (read_bootFs hcwd).trans hb, hacc⟩

/-- The upload that is resumed from the only good control file. -/
theorem uploading_withVersion {cf : ControlFile} {v : String} (h : cf.LaidOut)
    (hcwd : cf.fs.cwd = .version (getVersion cf.fs)) (hfits : cf.Fits)
    (hgood : ∀ lo hi, cf.Good cf.suffix lo hi) : Uploading { cf with version := v } where
  toLaidOut := h.withVersion v
  cwd := hcwd
  fits := hfits
  good := .inl (hgood _ _)

theorem safe_boot {pd : WriteThreadSharedData} (h : t.Safe) (hstep : t.step (.boot pd) = some t') :
    t'.Safe := by
  simp only [step] at hstep
  split_ifs at hstep with hrun
  obtain rfl := Option.some.inj hstep
  rcases bootStrap_cases (ControlFile.new pd t.cf.fs) with
    ⟨herr, hdirs, hversion⟩ | ⟨s, b, hs, hb, hacc, himage, heq⟩
  · have hboot (s : Suffix) : (bootFs (ControlFile.new pd t.cf.fs).bootStrap.1.fs).read s =
        (bootFs t.cf.fs).read s := by
      have hv : getVersion (ControlFile.new pd t.cf.fs).bootStrap.1.fs = getVersion t.cf.fs := by
        rw [getVersion, hversion]
        rfl
      rw [FileSystem.read, here_bootFs, hdirs, hv]
      rfl
    refine ⟨fun s b hs hb => h.files s b hs (hboot s ▸ hb), fun hrun => absurd hrun (by simp [herr]),
      fun hc => ?_⟩
    obtain ⟨s, b, hs, hb, hacc⟩ := recoverable_iff.1 (h.recoverable hc)
    exact recoverable_iff.2 ⟨s, b, hs, (hboot s).trans hb, hacc⟩
  · rw [heq]
    have hwritten := h.files s b hs hb hacc
    have hlaid := laidOut_resume { ControlFile.new pd t.cf.fs with fs := bootFs t.cf.fs }
      hwritten hacc himage hs
    have hread (s : Suffix) : (bootFs (bootFs t.cf.fs)).read s = (bootFs t.cf.fs).read s :=
      read_bootFs rfl
    have hup := uploading_withVersion (v := getVersion t.cf.fs) hlaid rfl (fits_resume hwritten hacc)
      (good_resume { ControlFile.new pd t.cf.fs with fs := bootFs t.cf.fs } hwritten hacc hb)
    exact ⟨fun s b hs hb => h.files s b hs (hread s ▸ hb), fun _ => hup, fun _ => hup.recoverable⟩

theorem safe_step (h : t.Safe) (hC : t.spares e ∧ t.tornIsRefused e) (hstep : t.step e = some t') :
    t'.Safe := by
  cases e with
  | chunk buf => exact safe_chunk h hstep
  | loss loss => exact safe_loss h hC.1 hC.2 hstep
  | boot pd => exact safe_boot h hstep

/-- A control file that has been written as a whole, over none. -/
theorem uploading_writeControlFile {cf : ControlFile} (h : cf.LaidOut)
    (hcwd : cf.fs.cwd = .version (getVersion cf.fs)) (hempty : cf.fs.here = some .empty)
    (hfits : cf.Fits) : Uploading (cf.writeControlFile cf.suffix).1 ∧
      FilesWritten (cf.writeControlFile cf.suffix).1.fs := by
  have hseal := laidOut_sealHeader h
  have hcontent : writeAt ((VersionDir.empty.file cf.suffix).getD []) 0 cf.sealHeader.content =
      cf.sealHeader.content :=
    overwrite_zero (Nat.zero_le _)
  have hread (s : Suffix) (hs : s ≠ cf.suffix) :
      (cf.fs.write cf.suffix cf.sealHeader.content).read s = none := by
    rw [FileSystem.read_write_of_ne hs, FileSystem.read, hempty]
    rfl
  have hown := FileSystem.read_write (s := cf.suffix) _ hempty cf.sealHeader.content
  have hlaid := h.writeControlFile (s := cf.suffix)
  rw [writeControlFile_of_here hempty, hcontent] at hlaid ⊢
  refine ⟨⟨hlaid, hcwd, hfits, .inl ⟨_, hown, accepted_sealHeader h hfits, ?_, ?_⟩⟩, ?_⟩
  · exact length_content hseal.allocated
  · exact fun _ _ hj _ => hashAt_content hseal.allocated hj
  · refine (filesWritten_iff (cf.fs.write cf.suffix cf.sealHeader.content) hcwd).2 ?_
    intro s b _ hb _
    by_cases hne : s = cf.suffix
    · subst hne
      rw [← Option.some.inj (hown.symm.trans hb), ofBytes_content hseal.encodable]
      exact written_sealHeader h.inRange
    · cases (hread s hne).symm.trans hb

/-- At the start, the first control file is good. -/
theorem safe_of_started {size chunkSize : UInt32} (h : t.Started size chunkSize)
    (hfits : 64 + 32 * ((size.toNat + chunkSize.toNat - 1) / chunkSize.toNat + 1) < 2 ^ 32) :
    t.Safe := by
  obtain ⟨cf, hcwd, hempty, hinit⟩ := h.init
  rcases initControlFile_cases hinit with heq | ⟨-, hchunk, heq⟩
  · cases heq
  · have hlaid := cf.laidOut_layOut (by rw [hempty]; rfl) size.toNat_lt hchunk
      chunkSize.toNat_lt
    have hfits' : (cf.layOut size.toNat chunkSize.toNat).Fits := by
      rw [Fits, (cf.count_layOut size.toNat_lt hchunk).2]
      exact hfits
    obtain ⟨hup, hfiles⟩ := uploading_writeControlFile hlaid hcwd hempty hfits'
    have heq' : t.cf = ((cf.layOut size.toNat chunkSize.toNat).writeControlFile
        (cf.layOut size.toNat chunkSize.toNat).suffix).1 := congrArg Prod.fst heq
    exact ⟨heq' ▸ hfiles, fun _ => heq' ▸ hup, fun hc => absurd hc (by simp [h.completed])⟩

/-- In every run in which the power is not lost while the only good control file is written, one of
    the control files is taken from the first chunk on. -/
theorem recoverable_of_run {size chunkSize : UInt32} {t₀ : Powered} (h : t₀.Started size chunkSize)
    (hfits : 64 + 32 * ((size.toNat + chunkSize.toNat - 1) / chunkSize.toNat + 1) < 2 ^ 32)
    (hmeets : Transition.Meets step (fun t e => t.spares e ∧ t.tornIsRefused e) t₀ l)
    (hrun : Transition.run step t₀ l = some t) (hcompleted : t.completed = true) : t.Recoverable :=
  (Transition.inv_of_meets (fun _ _ _ hs hC hstep => safe_step hs hC hstep) (safe_of_started h hfits)
    hmeets hrun).recoverable hcompleted

/-! ## An upload of three chunks -/

instance (t : Powered) : (e : Event) → Decidable (t.spares e)
  | .loss (.controlFile ..) => inferInstanceAs (Decidable (_ → _))
  | .loss .idle => inferInstanceAs (Decidable True)
  | .loss (.image ..) => inferInstanceAs (Decidable True)
  | .chunk _ => inferInstanceAs (Decidable True)
  | .boot _ => inferInstanceAs (Decidable True)

/-- The engine in an empty directory, before the layout. -/
def unused : ControlFile :=
  ControlFile.new ⟨[], 0, .ok, 0, true, []⟩
    ⟨fun loc => if loc = .version "1" then some .empty else none, some "1", .version "1"⟩

/-- An upload of three chunks has been laid out. -/
def threeChunks : Powered where
  cf := ((unused.layOut 3 1).writeControlFile .first).1
  running := true
  completed := false

theorem started_threeChunks : threeChunks.Started 3 1 :=
  ⟨⟨unused, by decide +kernel, rfl, rfl⟩, rfl, rfl⟩

/-- An empty file is not taken. -/
theorem tornIsRefused_nil {buf : List UInt8} : t.tornIsRefused (.loss (.controlFile buf (some []))) := by
  intro b hb hacc
  obtain rfl := Option.some.inj hb
  cases hacc

/-- The power is lost while the control file is written after the third chunk. -/
def oneLoss : List Event := [.chunk [1], .chunk [2], .loss (.controlFile [3] (some []))]

theorem recoverable_oneLoss : ∃ t, Transition.run step threeChunks oneLoss = some t ∧ t.Recoverable := by
  have hcompleted : (Transition.run step threeChunks oneLoss).any completed = true := by decide +kernel
  have hspares : Transition.Meets step spares threeChunks oneLoss := by decide +kernel
  have htorn : Transition.Meets step tornIsRefused threeChunks oneLoss := by
    refine Transition.meets_of_forall fun e he t => ?_
    simp only [oneLoss, List.mem_cons, List.not_mem_nil, or_false] at he
    rcases he with rfl | rfl | rfl
    · trivial
    · trivial
    · exact tornIsRefused_nil
  obtain ⟨t, hrun, hcompleted⟩ := (Option.any_eq_true ..).1 hcompleted
  exact ⟨t, hrun, recoverable_of_run started_threeChunks (by decide) (hspares.and htorn) hrun hcompleted⟩

/-- After a reboot, the power is lost once more, while the control file is written from which the
    upload has been resumed. -/
def secondLoss : List Event :=
  [.chunk [1], .loss .idle, .boot ⟨[], 0, .ok, 0, true, []⟩, .loss (.controlFile [2] (some []))]

theorem recoverable_fails_of_second_loss : ¬ ∀ (t₀ t : Powered) (size chunkSize : UInt32)
    (l : List Event), t₀.Started size chunkSize →
    Transition.Meets step (fun t e => t.tornIsRefused e) t₀ l →
    Transition.run step t₀ l = some t → t.completed = true → t.Recoverable := by
  intro hall
  have hend : (Transition.run step threeChunks secondLoss).any (fun t => t.completed &&
      (t.rebooted.readControlFile .first).2 ≠ .ok &&
      (t.rebooted.readControlFile .next).2 ≠ .ok) = true := by
    decide +kernel
  have htorn : Transition.Meets step tornIsRefused threeChunks secondLoss := by
    refine Transition.meets_of_forall fun e he t => ?_
    simp only [secondLoss, List.mem_cons, List.not_mem_nil, or_false] at he
    rcases he with rfl | rfl | rfl | rfl
    · trivial
    · trivial
    · trivial
    · exact tornIsRefused_nil
  obtain ⟨t, hrun, ht⟩ := (Option.any_eq_true ..).1 hend
  simp only [Bool.and_eq_true, decide_eq_true_eq] at ht
  obtain ⟨⟨hcompleted, hfirst⟩, hnext⟩ := ht
  obtain ⟨s, hs, hok⟩ := hall threeChunks t 3 1 secondLoss started_threeChunks htorn hrun hcompleted
  cases s with
  | none => exact hs rfl
  | first => exact hfirst hok
  | next => exact hnext hok

end Powered

end EW8.Update
