import EW8.Update.Storage

/-!
# What a packet does to the upload

The control file after a command (`CommandEffect`) or after a data packet (`DataEffect`), in all
cases, and what the commands that choose a version leave: control files as the engine writes them,
and a header that is as before or from such a file (`Loads`).
-/

namespace EW8.Update

/-- All control files are as the engine writes them. -/
abbrev FileSystem.Written (fs : FileSystem) : Prop :=
  fs.Holds fun b => (ControlFileHeader.ofBytes b).Written

/-- A file that is left after one has been removed. -/
theorem VersionDir.file_of_setFile {d : VersionDir} {s s' : Suffix} {b : List UInt8}
    (h : (d.setFile s none).file s' = some b) : d.file s' = some b := by
  by_cases hs : s' = s
  · subst hs
    rw [file_setFile_self] at h
    cases h
  · rwa [file_setFile_of_ne hs] at h

namespace FileSystem

variable {fs fs' : FileSystem} {v : String} {P : List UInt8 → Prop}

/-- A directory is removed. -/
theorem Holds.update_none (loc : Location) (h : fs.Holds P)
    (hdirs : fs'.dirs = Function.update fs.dirs loc none) : fs'.Holds P := by
  intro loc' d s b hd hs hb
  rw [hdirs] at hd
  by_cases hloc : loc' = loc
  · subst hloc
    rw [Function.update_self] at hd
    cases hd
  · rw [Function.update_of_ne hloc] at hd
    exact h loc' d s b hd hs hb

/-- Files are removed from a directory. -/
theorem Holds.update_some {loc : Location} {d d' : VersionDir} (h : fs.Holds P)
    (hd' : fs.dirs loc = some d') (hdirs : fs'.dirs = Function.update fs.dirs loc (some d))
    (hfile : ∀ s b, d.file s = some b → d'.file s = some b) : fs'.Holds P := by
  intro loc' d₁ s b hd hs hb
  rw [hdirs] at hd
  by_cases hloc : loc' = loc
  · subst hloc
    rw [Function.update_self] at hd
    obtain rfl := Option.some.inj hd
    exact h loc' d' s b hd' hs (hfile s b hb)
  · rw [Function.update_of_ne hloc] at hd
    exact h loc' d₁ s b hd hs hb

theorem dirs_chdirDefault (h : fs.chdirDefault = some fs') : fs'.dirs = fs.dirs := by
  unfold chdirDefault at h
  split_ifs at h
  rw [← Option.some.inj h]

theorem dirs_chdirVersion (h : fs.chdirVersion v = some fs') : fs'.dirs = fs.dirs := by
  unfold chdirVersion at h
  split_ifs at h
  rw [← Option.some.inj h]

theorem Holds.mkdir (hfs : fs.Holds P) (h : fs.mkdir v = some fs') : fs'.Holds P := by
  unfold FileSystem.mkdir at h
  split_ifs at h
  rw [← Option.some.inj h]
  intro loc d s b hd hs hb
  by_cases hloc : loc = .version v
  · subst hloc
    obtain rfl := Option.some.inj (hd.symm.trans (Function.update_self ..))
    cases hb
  · exact hfs loc d s b ((Function.update_of_ne hloc ..).symm.trans hd) hs hb

end FileSystem

namespace ControlFile

variable {cf cf' cf'' : ControlFile} {s : Suffix} {v : String} {fails : FsCall → Bool}

/-! ## Choosing a version -/

/-- The control files are still as the engine writes them, and the header is as before, or it has
    been read from one of them or laid out. -/
structure Loads (cf cf' : ControlFile) : Prop where
  files : cf.fs.Written → cf'.fs.Written
  header : cf.fs.Written → cf'.header = cf.header ∨ cf'.header.InRange ∧ cf'.header.Encodable

namespace Loads

theorem refl (cf : ControlFile) : Loads cf cf := ⟨id, fun _ => .inl rfl⟩

theorem trans (h : Loads cf cf') (h' : Loads cf' cf'') : Loads cf cf'' where
  files hfiles := h'.files (h.files hfiles)
  header hfiles := by
    rcases h'.header (h.files hfiles) with heq | hnew
    · rw [heq]
      exact h.header hfiles
    · exact .inr hnew

/-- A change of directory, or of the version. -/
theorem of_dirs (hheader : cf'.header = cf.header) (hdirs : cf'.fs.dirs = cf.fs.dirs) :
    Loads cf cf' :=
  ⟨fun hfiles => hfiles.of_dirs hdirs, fun _ => .inl hheader⟩

end Loads

theorem loads_readControlFile (hs : s ≠ .none) : Loads cf (cf.readControlFile s).1 := by
  obtain ⟨header, sum, sums, heq⟩ := cf.exists_readControlFile s
  refine ⟨fun hfiles => by rw [heq]; exact hfiles, fun hfiles => ?_⟩
  cases hb : cf.fs.read s with
  | none =>
    refine .inl ?_
    simp only [readControlFile, hb]
  | some b =>
    have hheader : (cf.readControlFile s).1.header = ControlFileHeader.ofBytes b := by
      simp only [readControlFile, hb]
      split_ifs <;> rfl
    rw [hheader]
    exact .inr ⟨(hfiles.read hs hb).toInRange, ControlFileHeader.encodable_ofBytes b⟩

theorem loads_readAndCheck (hs : s ≠ .none) : Loads cf (cf.readAndCheck s).1 := by
  have h : Loads cf (cf.readControlFile s).1 := loads_readControlFile hs
  unfold readAndCheck
  split
  all_goals
    rename_i heq
    rwa [heq] at h

theorem loads_checkAndLoadControlFile : Loads cf cf.checkAndLoadControlFile.1 := by
  rcases cf.checkAndLoad_cases with ⟨⟨header, sum, sums, heq⟩, h₀, h₁⟩ | ⟨s, b, hs, hb, hacc, himage, heq⟩
  · have hread : cf.checkAndLoadControlFile.1 =
        ((cf.readAndCheck .first).1.readAndCheck .next).1 := by
      have h₁' : ((cf.readAndCheck .first).1.readAndCheck .next).2 = none := by
        obtain ⟨header, sum, sums, heq⟩ := cf.exists_readAndCheck .first
        rw [heq, readAndCheck_snd]
        exact h₁
      rw [← cf.readAndCheck_snd] at h₀
      rw [checkAndLoadControlFile]
      simp only [h₀, h₁', and_self, if_true]
    rw [hread]
    exact (loads_readAndCheck (by decide)).trans (loads_readAndCheck (by decide))
  · rw [heq]
    refine ⟨fun hfiles => hfiles, fun hfiles => ?_⟩
    have hlaid := laidOut_resume cf (hfiles.read hs hb) hacc himage hs
    exact .inr ⟨hlaid.inRange, hlaid.encodable⟩

theorem loads_call {c : FsCall} {r : Option FileSystem} {fs : FileSystem}
    (hr : ∀ fs, r = some fs → fs.dirs = cf.fs.dirs) (h : call fails c r = some fs) :
    Loads cf { cf with fs := fs } := by
  unfold call at h
  split_ifs at h
  exact .of_dirs rfl (hr fs h)

theorem loads_checkVersion : Loads cf (cf.checkVersion fails v).1 := by
  unfold checkVersion
  split
  · exact .refl cf
  · rename_i fs hfs
    have hdefault : Loads cf { cf with fs := fs } := loads_call (fun fs h => FileSystem.dirs_chdirDefault h) hfs
    split
    · exact hdefault
    · rename_i fs' hfs'
      exact (hdefault.trans (loads_call (fun fs h => FileSystem.dirs_chdirVersion h) hfs')).trans
        loads_checkAndLoadControlFile

theorem loads_writeVersion : Loads cf (cf.writeVersion fails v).1 := by
  unfold writeVersion
  split
  · exact .refl cf
  · split
    · exact .of_dirs rfl rfl
    · rename_i fs hfs
      have hdefault : Loads cf { cf with fs := fs } := loads_call (fun fs h => FileSystem.dirs_chdirDefault h) hfs
      split_ifs
      · exact hdefault
      · exact hdefault.trans (.of_dirs rfl rfl)
      · have hversion : Loads cf { cf with fs := { fs with versionFile := some v }, version := v } :=
          hdefault.trans (.of_dirs rfl rfl)
        dsimp only
        split
        · exact hversion
        · rename_i fs' hfs'
          exact hversion.trans (loads_call (fun fs h => FileSystem.dirs_chdirVersion h) hfs')

theorem loads_writeNewVersion : Loads cf (cf.writeNewVersion fails v).1 := by
  unfold writeNewVersion
  split
  · exact .refl cf
  · rename_i fs hfs
    have hdefault : Loads cf { cf with fs := fs } := loads_call (fun fs h => FileSystem.dirs_chdirDefault h) hfs
    split
    · rename_i fs' hfs'
      exact (hdefault.trans (loads_call (fun fs h => FileSystem.dirs_chdirVersion h) hfs')).trans loads_writeVersion
    · split
      · exact hdefault
      · rename_i fs' hfs'
        have hmade : Loads cf { cf with fs := fs' } := by
          refine ⟨fun hfiles => ?_, fun _ => .inl rfl⟩
          unfold call at hfs'
          split_ifs at hfs'
          exact (hdefault.files hfiles).mkdir hfs'
        split
        · exact hmade
        · rename_i fs'' hfs''
          exact (hmade.trans (loads_call (fun fs h => FileSystem.dirs_chdirVersion h) hfs'')).trans
            loads_writeVersion

/-- The header of a layout, whether or not it could be written. -/
theorem header_initControlFile {size chunkSize : ℕ} {r : ControlFile × FileError}
    (hsize : size < 2 ^ 32) (hchunk : chunkSize < 2 ^ 32)
    (h : cf.initControlFile size chunkSize = some r) :
    r = (cf, .fileDamaged) ∨ r.1.header.InRange ∧ r.1.header.Encodable := by
  rcases initControlFile_cases h with heq | ⟨-, hne, rfl⟩
  · exact .inl heq
  · have hrange := cf.inRange_layOut hsize hne
    have henc := cf.encodable_layOut hsize hne hchunk
    cases hd : (cf.layOut size chunkSize).fs.here with
    | none =>
      simp only [writeControlFile, hd]
      exact .inr ⟨hrange, henc⟩
    | some d =>
      have hlaid := cf.laidOut_layOut (Option.isSome_iff_exists.2 ⟨d, hd⟩) hsize hne hchunk
      exact .inr ⟨hlaid.writeControlFile.inRange, hlaid.writeControlFile.encodable⟩

theorem loads_initControlFile {size chunkSize : ℕ} {r : ControlFile × FileError}
    (hsize : size < 2 ^ 32) (hchunk : chunkSize < 2 ^ 32)
    (h : cf.initControlFile size chunkSize = some r) : Loads cf r.1 := by
  refine ⟨fun hfiles => ?_, fun _ => ?_⟩
  · rcases initControlFile_cases h with rfl | ⟨-, hne, rfl⟩
    · exact hfiles
    · cases hd : (cf.layOut size chunkSize).fs.here with
      | none =>
        simp only [writeControlFile, hd]
        exact hfiles
      | some d =>
        have hlaid := cf.laidOut_layOut (Option.isSome_iff_exists.2 ⟨d, hd⟩) hsize hne hchunk
        exact hlaid.holds_writeControlFile hfiles
  · rcases header_initControlFile hsize hchunk h with rfl | hnew
    · exact .inl rfl
    · exact .inr hnew

theorem loads_setUpdateStatus (status : UpdateStatus) : Loads cf (cf.setUpdateStatus status) :=
  ⟨fun hfiles => hfiles.modify_status _, fun _ => .inl rfl⟩

theorem loads_removeContent : Loads cf (cf.removeContent v).1 := by
  refine ⟨fun hfiles => ?_, fun _ => .inl (cf.removeContent_fst v).2⟩
  unfold removeContent
  dsimp only
  split
  · exact hfiles.of_dirs rfl
  · rename_i d hd
    have hdir : cf.fs.dirs (.version v) = some d := by
      split_ifs at hd
      exact hd
    split_ifs
    · exact hfiles.update_none _ rfl
    · refine hfiles.update_some hdir rfl fun s b hb => ?_
      exact VersionDir.file_of_setFile (VersionDir.file_of_setFile (VersionDir.file_of_setFile hb))

/-- What the removal of a version leaves as it is. -/
theorem layout_removeContent : (cf.removeContent v).1.header = cf.header ∧
    (cf.removeContent v).1.sums = cf.sums ∧ (cf.removeContent v).1.suffix = cf.suffix := by
  unfold removeContent
  dsimp only
  split
  · exact ⟨rfl, rfl, rfl⟩
  · split_ifs <;> exact ⟨rfl, rfl, rfl⟩

/-! ## The thread -/

/-- The thread changes the header in the size of the control file only, and one hash. -/
theorem layout_intThread (cf : ControlFile) (fault : Option WriteFault) :
    (∃ n, (n < 2 ^ 32 ∨ n = cf.header.fileSize) ∧
        (cf.intThread fault).header = { cf.header with fileSize := n }) ∧
      (cf.intThread fault).sums.length = cf.sums.length ∧
      (cf.intThread fault).suffix = nextSuffix cf.suffix := by
  have hlen : (cf.recordChunk fault).sums.length = cf.sums.length := List.length_set
  have hwrite (s : Suffix) (chunk : ℤ) : (∃ n, (n < 2 ^ 32 ∨ n = cf.header.fileSize) ∧
        ((cf.recordChunk fault).writeControlFileChunk s chunk).1.header =
          { cf.header with fileSize := n }) ∧
      ((cf.recordChunk fault).writeControlFileChunk s chunk).1.sums.length = cf.sums.length ∧
      ((cf.recordChunk fault).writeControlFileChunk s chunk).1.suffix = cf.suffix := by
    unfold writeControlFileChunk
    split
    · exact ⟨⟨_, .inr rfl, rfl⟩, hlen, rfl⟩
    · exact ⟨⟨_, .inl (toUInt_lt _), rfl⟩, hlen, rfl⟩
  obtain ⟨hheader, hsums, hsuffix⟩ := hwrite cf.suffix cf.pd.chunk
  exact ⟨hheader, hsums, congrArg nextSuffix hsuffix⟩

end ControlFile

namespace CANProcessor

variable {p p' : CANProcessor} {i : ℕ} {v : String} {done : Bool}

/-- A script thread writes a status at most. -/
theorem scriptStep_status (h : p.scriptStep i = some p') : p'.controlFile = p.controlFile ∨
    ∃ status, p'.controlFile = p.controlFile.setUpdateStatus status := by
  unfold scriptStep at h
  split at h
  · cases h
  · rw [← Option.some.inj h]
    exact .inr ⟨_, rfl⟩
  · rw [← Option.some.inj h]
    exact .inl rfl
  · rw [← Option.some.inj h]
    exact .inr ⟨_, rfl⟩
  · rw [← Option.some.inj h]
    exact .inl rfl

/-- A script that writes a status changes no control file. -/
theorem scriptStatus_files (h : p.scriptStatus i v done = some p') :
    (∀ P, p.controlFile.fs.Holds P → p'.controlFile.fs.Holds P) ∧
      p'.controlFile.header = p.controlFile.header ∧ p'.controlFile.sums = p.controlFile.sums ∧
      p'.controlFile.pd = p.controlFile.pd := by
  unfold scriptStatus at h
  split at h
  · rw [← Option.some.inj h]
    refine ⟨fun P hfiles => ?_, rfl, rfl, rfl⟩
    cases hd : p.controlFile.fs.dirs (.version v) with
    | none => exact hfiles.update_none (.version v) rfl
    | some d =>
      let text := if done then "done\n".toList else "error".toList
      exact hfiles.update_some hd (congrArg (Function.update p.controlFile.fs.dirs (.version v))
        (show _ = some { d with status := some text } from rfl)) fun s b hb => hb
  · cases h

theorem scriptStatus_read (h : p.scriptStatus i v done = some p') :
    p'.controlFile.suffix = p.controlFile.suffix ∧
      p'.controlFile.fs.here.isSome = p.controlFile.fs.here.isSome ∧
      ∀ s, p'.controlFile.fs.read s = p.controlFile.fs.read s := by
  unfold scriptStatus at h
  split at h
  · obtain rfl := Option.some.inj h
    refine ⟨rfl, ?_, fun s => ?_⟩
    all_goals
      simp only [FileSystem.read, FileSystem.here]
      by_cases hcwd : p.controlFile.fs.cwd = .version v
      · rw [hcwd, Function.update_self]
        cases p.controlFile.fs.dirs (.version v) <;> rfl
      · rw [Function.update_of_ne hcwd]
  · cases h

end CANProcessor

namespace Engine

variable {e e' : Engine} {o : Outcome} {c : Command} {ack : Acknowledge} {buf : List UInt8}

/-- The control file that a command leaves. -/
inductive CommandEffect (e : Engine) (o : Outcome) : Command → ControlFile → Prop
  | same {c : Command} : CommandEffect e o c e.controlFile
  | existing {v : String} (hready : e.processor.state = .ready) :
    CommandEffect e o (.setVersion v)
      ((e.controlFile.checkVersion o.fails v).1.writeVersion o.fails v).1
  | new {v : String} (hready : e.processor.state = .ready) :
    CommandEffect e o (.setVersion v)
      ((e.controlFile.checkVersion o.fails v).1.writeNewVersion o.fails v).1
  | laidOut {fileSize : UInt32} {chunkSize : UInt16} {cf : ControlFile}
    (hready : e.processor.state = .ready)
    (hinit : e.controlFile.initControlFile fileSize.toNat chunkSize.toNat = some (cf, .ok)) :
    CommandEffect e o (.setInfo fileSize chunkSize) (cf.setUpdateStatus .uploading)
  | notLaidOut {fileSize : UInt32} {chunkSize : UInt16} {cf : ControlFile} {err : FileError}
    (hready : e.processor.state = .ready) (herr : err ≠ .ok)
    (hinit : e.controlFile.initControlFile fileSize.toNat chunkSize.toNat = some (cf, err)) :
    CommandEffect e o (.setInfo fileSize chunkSize) cf
  | checked : CommandEffect e o (.checkSign ControlFileHeader.defaultChunkNo)
      (e.controlFile.setUpdateStatus .uploaded)
  | removed {v : String} (hready : e.processor.state = .ready) :
    CommandEffect e o (.userRemove v) (e.controlFile.removeContent v).1

theorem setVersion_cases (p : CANProcessor) (fails : FsCall → Bool) (v : String) :
    (p.setVersion fails v).1.controlFile = p.controlFile ∨ p.state = .ready ∧
      ((p.setVersion fails v).1.controlFile =
          ((p.controlFile.checkVersion fails v).1.writeVersion fails v).1 ∨
        (p.setVersion fails v).1.controlFile =
          ((p.controlFile.checkVersion fails v).1.writeNewVersion fails v).1) := by
  unfold CANProcessor.setVersion
  split
  · exact .inl rfl
  · rename_i hready
    refine .inr ⟨not_not.1 hready, ?_⟩
    split
    · rename_i cf heq
      rw [heq]
      refine .inl ?_
      unfold ControlFile.writeExistingVersion
      split
      all_goals
        rename_i heq'
        rw [heq']
    · rename_i cf err hne heq
      rw [heq]
      refine .inr ?_
      split
      all_goals
        rename_i heq'
        rw [heq']

theorem commandEffect (h : e.commandHandler o c = some (e', ack)) :
    CommandEffect e o c e'.controlFile := by
  obtain ⟨p, hp, rfl⟩ := called_of_commandHandler h
  change CommandEffect e o c p.controlFile
  cases hp with
  | setVersion v =>
    rcases setVersion_cases e.processor o.fails v with heq | ⟨hready, heq | heq⟩
    · rw [heq]
      exact .same
    · rw [heq]
      exact .existing hready
    · rw [heq]
      exact .new hready
  | setInfo hr =>
    unfold CANProcessor.setInfo at hr
    split_ifs at hr with hready
    · cases hr
      exact .same
    · obtain ⟨⟨cf, err⟩, hinit, heq⟩ := Option.map_eq_some_iff.1 hr
      by_cases herr : err = .ok
      · subst herr
        cases heq
        exact .laidOut (not_not.1 hready) hinit
      · have hcf : p.controlFile = cf := by
          cases err
          · exact absurd rfl herr
          all_goals
            cases heq
            rfl
        rw [hcf]
        exact .notLaidOut (not_not.1 hready) herr hinit
  | checkSign chunk =>
    have hcf : (e.processor.checkChunkSHA2 chunk).1.controlFile =
        (e.controlFile.checkChunkSHA2 chunk).1 := by
      unfold CANProcessor.checkChunkSHA2
      split
      all_goals
        rename_i heq
        rw [controlFile, heq]
    rw [hcf]
    by_cases hwhole : chunk = ControlFileHeader.defaultChunkNo
    · subst hwhole
      rcases e.controlFile.checkChunkSHA2_fst ControlFileHeader.defaultChunkNo with
        heq | heq
      · rw [heq]
        exact .same
      · rw [heq]
        exact .checked
    · rw [e.controlFile.checkChunkSHA2_chunk hwhole]
      exact .same
  | userRemove v =>
    unfold CANProcessor.removeContent
    split
    · exact .same
    · rename_i hready
      have hremoved := CommandEffect.removed (o := o) (v := v) (not_not.1 hready)
      split
      all_goals
        rename_i heq
        rw [controlFile, heq] at hremoved
        exact hremoved
  | userUpdate =>
    rw [e.processor.controlFile_updateContent o.created]
    exact .same
  | forceRollback =>
    rw [e.processor.controlFile_forceRollBack o.created]
    exact .same
  | getNumWrCh | writeCh | userGetVer | getUpdStatus | unknown => exact .same

/-- An upload is laid out. -/
theorem setInfo_ok {fileSize : UInt32} {chunkSize : UInt16}
    (h : e.commandHandler o (.setInfo fileSize chunkSize) = some (e', .ackOk)) :
    ∃ cf, e.controlFile.initControlFile fileSize.toNat chunkSize.toNat = some (cf, .ok) ∧
      e'.controlFile = cf.setUpdateStatus .uploading := by
  obtain ⟨⟨p, status⟩, hr, hack⟩ := Option.map_eq_some_iff.1 h
  have hok : status = .ok := by
    cases status
    · rfl
    all_goals cases hack
  subst hok
  cases hack
  unfold CANProcessor.setInfo at hr
  split_ifs at hr
  · cases hr
  obtain ⟨⟨cf, err⟩, hinit, heq⟩ := Option.map_eq_some_iff.1 hr
  cases err
  case ok =>
    cases heq
    exact ⟨cf, hinit, rfl⟩
  all_goals cases heq

theorem CommandEffect.loads {cf : ControlFile} (h : CommandEffect e o c cf) :
    ControlFile.Loads e.controlFile cf := by
  cases h with
  | same => exact .refl _
  | existing hready => exact ControlFile.loads_checkVersion.trans ControlFile.loads_writeVersion
  | new hready => exact ControlFile.loads_checkVersion.trans ControlFile.loads_writeNewVersion
  | @laidOut fileSize chunkSize _ hready hinit =>
    have hchunk : chunkSize.toNat < 2 ^ 32 := chunkSize.toNat_lt.trans (by norm_num)
    exact (ControlFile.loads_initControlFile fileSize.toNat_lt hchunk hinit).trans
      (ControlFile.loads_setUpdateStatus _)
  | @notLaidOut fileSize chunkSize _ _ hready herr hinit =>
    have hchunk : chunkSize.toNat < 2 ^ 32 := chunkSize.toNat_lt.trans (by norm_num)
    exact ControlFile.loads_initControlFile fileSize.toNat_lt hchunk hinit
  | checked => exact ControlFile.loads_setUpdateStatus _
  | removed hready => exact ControlFile.loads_removeContent

/-- Only the commands of the setup, and only while the engine is ready, change the layout. -/
theorem CommandEffect.layout {cf : ControlFile} (h : CommandEffect e o c cf)
    (hc : c.isSetup = false ∨ e.processor.state ≠ .ready) :
    cf.header = e.controlFile.header ∧ cf.sums = e.controlFile.sums ∧
      cf.suffix = e.controlFile.suffix := by
  cases h with
  | same => exact ⟨rfl, rfl, rfl⟩
  | existing hready => exact absurd hc (by simp [Command.isSetup, hready])
  | new hready => exact absurd hc (by simp [Command.isSetup, hready])
  | laidOut hready => exact absurd hc (by simp [Command.isSetup, hready])
  | notLaidOut hready => exact absurd hc (by simp [Command.isSetup, hready])
  | checked => exact ⟨rfl, rfl, rfl⟩
  | removed hready => exact ControlFile.layout_removeContent

/-- What a data packet leaves, if `WriteFile` need not wait, and what it leaves if it has to. -/
inductive DataEffect (e : Engine) (buf : List UInt8) : Engine → Prop
  | refused (herr : e.controlFile.pd.mErr ≠ .ok) :
    DataEffect e buf (e.withControlFile { e.controlFile with
      header.lastSuccessfulChunk := e.controlFile.pd.lastSuccChunkBefore })
  | noChunk (herr : e.controlFile.pd.mErr = .ok)
    (hnext : e.controlFile.header.next = ControlFileHeader.defaultChunkNo) : DataEffect e buf e
  | handedOver {chunk : ℤ} (hwrite : e.controlFile.writeFile = (e.controlFile, .waits chunk))
    (hwritten : e.controlFile.pd.writtenStatus = true) : DataEffect e buf (e.handOver chunk buf)
  | waits {chunk : ℤ} (hwrite : e.controlFile.writeFile = (e.controlFile, .waits chunk))
    (hwritten : e.controlFile.pd.writtenStatus = false) :
    DataEffect e buf { e with writing := some (chunk, buf) }

theorem dataEffect (e : Engine) (buf : List UInt8) : DataEffect e buf (e.dataHandler buf).1 := by
  by_cases herr : e.controlFile.pd.mErr = .ok
  · cases hwrite : e.controlFile.writeFile with
    | mk cf call =>
      cases call with
      | waits chunk =>
        obtain ⟨rfl, -⟩ := ControlFile.writeFile_fst hwrite
        cases hwritten : e.controlFile.pd.writtenStatus with
        | true =>
          simp only [dataHandler, hwrite, hwritten, if_true]
          exact .handedOver hwrite hwritten
        | false =>
          simp only [dataHandler, hwrite, hwritten, Bool.false_eq_true, if_false]
          exact .waits hwrite hwritten
      -- without an error, `WriteFile` returns at once only if there is no next chunk
      | returned err =>
        have hsame : cf = e.controlFile ∧
            e.controlFile.header.next = ControlFileHeader.defaultChunkNo := by
          unfold ControlFile.writeFile at hwrite
          by_cases hnext : e.controlFile.header.next = ControlFileHeader.defaultChunkNo
          · simp only [if_neg (not_not.2 herr), if_pos hnext] at hwrite
            split_ifs at hwrite
            · cases hwrite
              exact ⟨rfl, hnext⟩
            · cases hwrite
          · simp only [if_neg (not_not.2 herr), if_neg hnext] at hwrite
            cases hwrite
        obtain ⟨rfl, hnext⟩ := hsame
        have heq : (e.dataHandler buf).1 = e := by
          simp only [dataHandler, hwrite]
          cases err <;> rfl
        rw [heq]
        exact .noChunk herr hnext
  · have hwrite : e.controlFile.writeFile = ({ e.controlFile with
        header.lastSuccessfulChunk := e.controlFile.pd.lastSuccChunkBefore }, .returned .ok) := by
      rw [ControlFile.writeFile, if_pos herr]
    simp only [dataHandler, hwrite]
    exact .refused herr

/-- What a step does to what the thread shares, and to the call of `WriteFile` that waits for it. -/
inductive Handing (e : Engine) : Event → Engine → Prop
  | kept {a : Event} {e' : Engine} (ha : ∀ fault, a ≠ .writer fault)
    (hpd : e'.controlFile.pd = e.controlFile.pd) (hwriting : e'.writing = e.writing)
    (hheader : e.writing = none ∨ e'.controlFile.header = e.controlFile.header) : Handing e a e'
  | waits {o : Outcome} {buf : List UInt8} {chunk : ℤ} (hfree : e.writing = none)
    (hwrite : e.controlFile.writeFile = (e.controlFile, .waits chunk))
    (hwritten : e.controlFile.pd.writtenStatus = false) :
    Handing e (.receive o (.sendData buf)) { e with writing := some (chunk, buf) }
  | handedOver {o : Outcome} {buf : List UInt8} {chunk : ℤ} (hfree : e.writing = none)
    (hwrite : e.controlFile.writeFile = (e.controlFile, .waits chunk))
    (hwritten : e.controlFile.pd.writtenStatus = true) :
    Handing e (.receive o (.sendData buf)) (e.handOver chunk buf)
  | finished {buf : List UInt8} {chunk : ℤ} (hwriting : e.writing = some (chunk, buf))
    (hwritten : e.controlFile.pd.writtenStatus = true) : Handing e .finishWrite (e.handOver chunk buf)
  | stored {fault : Option WriteFault} (hpending : e.controlFile.pd.writtenStatus = false) :
    Handing e (.writer fault) (e.withControlFile (e.controlFile.intThread fault))

theorem handing {a : Event} (h : e.step a = some e') : Handing e a e' := by
  cases a with
  | receive o packet =>
    simp only [step] at h
    split_ifs at h with hfree
    obtain ⟨⟨e₁, reply⟩, hreceive, rfl⟩ := Option.map_eq_some_iff.1 h
    cases packet with
    | command c =>
      obtain ⟨⟨e₂, ack⟩, hcommand, heq⟩ := Option.map_eq_some_iff.1 hreceive
      cases heq
      have hhandled := handled_of_commandHandler hcommand
      exact .kept (fun _ h => by cases h) hhandled.pd hhandled.writing (.inl hfree)
    | sendData buf =>
      have heffect := dataEffect e buf
      rw [show (e.dataHandler buf).1 = e₁ from congrArg Prod.fst (Option.some.inj hreceive)] at heffect
      cases heffect with
      | refused herr => exact .kept (fun _ h => by cases h) rfl rfl (.inl hfree)
      | noChunk herr hnext => exact .kept (fun _ h => by cases h) rfl rfl (.inl hfree)
      | handedOver hwrite hwritten => exact .handedOver hfree hwrite hwritten
      | waits hwrite hwritten => exact .waits hfree hwrite hwritten
  | finishWrite =>
    obtain ⟨⟨e₁, ack⟩, hfinish, rfl⟩ := Option.map_eq_some_iff.1 h
    unfold finishWrite at hfinish
    split at hfinish
    · cases hfinish
    · rename_i hwriting
      split_ifs at hfinish with hwritten
      cases hfinish
      exact .finished hwriting hwritten
  | writer fault =>
    simp only [step, writerStep] at h
    split_ifs at h with hwritten
    cases h
    exact .stored (by simpa using hwritten)
  | script i =>
    obtain ⟨p, hp, rfl⟩ := Option.map_eq_some_iff.1 h
    obtain ⟨hheader, hpd⟩ := CANProcessor.scriptStep_controlFile hp
    exact .kept (fun _ h => by cases h) hpd rfl (.inr hheader)
  | scriptStatus i v done =>
    obtain ⟨p, hp, rfl⟩ := Option.map_eq_some_iff.1 h
    obtain ⟨hheader, hpd⟩ := CANProcessor.scriptStatus_controlFile hp
    exact .kept (fun _ h => by cases h) hpd rfl (.inr hheader)

end Engine

end EW8.Update
