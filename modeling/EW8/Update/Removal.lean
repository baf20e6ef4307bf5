import EW8.Update.Busy

/-!
# Removing a version

`RemoveContent` changes into the directory above the working directory, from there removes the files
of the version by their names, and then its directory; and it forgets the current version, whichever
it is. So it depends on where the engine is (`Removable`), which the commands and the boots before
have left (`Operation`).

* `setVersion_entered`: after `SetVersion` the engine is in the directory of the version;
* `removesOnly_iff`: just in the states that are `Removable` the directory of the version is removed,
  and nothing else changes.
-/

namespace EW8.Update

namespace ControlFile

variable {cf cf' : ControlFile} {fails : FsCall → Bool} {v : String}

theorem call_eq_some {c : FsCall} {r : Option FileSystem} {fs : FileSystem}
    (h : call fails c r = some fs) : r = some fs := by
  unfold call at h
  split_ifs at h
  exact h

theorem cwd_chdirVersion {fs fs' : FileSystem} (h : fs.chdirVersion v = some fs') :
    fs'.cwd = .version v := by
  unfold FileSystem.chdirVersion at h
  split_ifs at h
  cases h
  rfl

/-! ## Where the engine is -/

theorem fs_readControlFile (cf : ControlFile) (s : Suffix) : (cf.readControlFile s).1.fs = cf.fs := by
  unfold readControlFile
  split
  · rfl
  · dsimp only
    split_ifs <;> rfl

theorem fs_readAndCheck (cf : ControlFile) (s : Suffix) : (cf.readAndCheck s).1.fs = cf.fs := by
  have h := cf.fs_readControlFile s
  unfold readAndCheck
  split <;> rename_i heq <;> rwa [heq] at h

/-- Loading the control files does not change the working directory. -/
theorem fs_checkAndLoadControlFile (cf : ControlFile) : cf.checkAndLoadControlFile.1.fs = cf.fs := by
  have hfirst := cf.fs_readAndCheck .first
  have hnext := (cf.readAndCheck .first).1.fs_readAndCheck .next
  unfold checkAndLoadControlFile
  dsimp only
  split_ifs
  · exact hnext.trans hfirst
  · exact (fs_readControlFile _ _).trans (hnext.trans hfirst)

/-- `WriteVersion`, that is called in the directory of the version. -/
theorem writeVersion_entered (hcwd : cf.fs.cwd = .version v) (h : cf.writeVersion fails v = (cf', .ok)) :
    cf'.fs.cwd = .version v ∧ cf'.version = v := by
  unfold writeVersion at h
  by_cases hsame : cf.version = v
  · rw [if_pos hsame] at h
    cases h
    exact ⟨hcwd, hsame⟩
  · rw [if_neg hsame] at h
    cases hdefault : call fails .writeVersionDefault cf.fs.chdirDefault with
    | none =>
      rw [hdefault] at h
      cases h
    | some fs =>
      simp only [hdefault] at h
      split_ifs at h
      · cases h
      · cases h
      · split at h
        · cases h
        · rename_i hcall
          cases h
          exact ⟨cwd_chdirVersion (call_eq_some hcall), rfl⟩

theorem writeNewVersion_entered (h : cf.writeNewVersion fails v = (cf', .ok)) :
    cf'.fs.cwd = .version v ∧ cf'.version = v := by
  unfold writeNewVersion at h
  split at h
  · cases h
  · split at h
    · rename_i hcall
      exact writeVersion_entered (cwd_chdirVersion (call_eq_some hcall)) h
    · split at h
      · cases h
      · split at h
        · cases h
        · rename_i hcall
          exact writeVersion_entered (cwd_chdirVersion (call_eq_some hcall)) h

theorem checkVersion_entered (h : cf.checkVersion fails v = (cf', .ok)) : cf'.fs.cwd = .version v := by
  unfold checkVersion at h
  split at h
  · cases h
  · split at h
    · cases h
    · rename_i fs hcall
      have hfs := fs_checkAndLoadControlFile { cf with fs := fs }
      rw [h] at hfs
      rw [hfs]
      exact cwd_chdirVersion (call_eq_some hcall)

end ControlFile

namespace CANProcessor

variable {p p' : CANProcessor} {fails : FsCall → Bool} {v : String}

/-- After `SetVersion` the engine is in the directory of the version, that is the current one. -/
theorem setVersion_entered {status : CANProcessorStatus} (h : p.setVersion fails v = (p', status))
    (hstatus : status = .ok ∨ status = .dirExists) :
    p'.controlFile.fs.cwd = .version v ∧ p'.controlFile.version = v := by
  unfold setVersion at h
  split_ifs at h
  · cases h
    rcases hstatus with hstatus | hstatus <;> cases hstatus
  · split at h
    · rename_i hcheck
      split at h
      · rename_i hwrite
        cases h
        exact ControlFile.writeVersion_entered (ControlFile.checkVersion_entered hcheck) hwrite
      · cases h
        rcases hstatus with hstatus | hstatus <;> cases hstatus
    · split at h
      · rename_i hwrite
        cases h
        exact ControlFile.writeNewVersion_entered hwrite
      · cases h
        rcases hstatus with hstatus | hstatus <;> cases hstatus

/-! ## What is removed -/

/-- The engine is in the directory of a version, knows the names of the files of the version to be
    removed, and has no other current version. -/
structure Removable (p : CANProcessor) (v : String) : Prop where
  inVersion : p.controlFile.fs.cwd.parent = .download
  names : p.controlFile.suffix = .none →
    (p.controlFile.fs.dirs (.version v)).bind (fun d => d.file .next) = none
  current : p.controlFile.version = "" ∨ p.controlFile.version = v

/-- The version `v` is removed, and nothing else. -/
structure RemovesOnly (p : CANProcessor) (v : String) : Prop where
  status : (p.removeContent v).2 = .ok
  dirs : (p.removeContent v).1.controlFile.fs.dirs =
    Function.update p.controlFile.fs.dirs (.version v) none
  versionFile : (p.removeContent v).1.controlFile.fs.versionFile = p.controlFile.fs.versionFile
  version : p.controlFile.version ≠ v →
    (p.removeContent v).1.controlFile.version = p.controlFile.version

/-- What `RemoveContent` leaves of a directory. -/
def leftFiles (cf : ControlFile) (d : VersionDir) : VersionDir :=
  { ((d.setFile cf.suffix none).setFile (nextSuffix cf.suffix) none).setFile .none none with
    status := none }

/-- The names that `RemoveContent` knows are those of all files, but for one where no control file
    has been loaded or written. -/
theorem isEmpty_leftFiles (cf : ControlFile) (d : VersionDir) :
    (leftFiles cf d).isEmpty = true ↔ (cf.suffix = .none → d.file .next = none) := by
  cases hs : cf.suffix <;>
    simp [leftFiles, hs, VersionDir.isEmpty, VersionDir.setFile, nextSuffix, Function.update]

theorem removeContent_of_above (hready : p.state = .ready)
    (h : p.controlFile.fs.cwd.parent ≠ .download) : (p.removeContent v).2 = .needVersion := by
  simp only [removeContent, hready, ne_eq, not_true, if_false, ControlFile.removeContent, if_neg h]

theorem removeContent_of_dir {d : VersionDir} (hready : p.state = .ready)
    (h : p.controlFile.fs.cwd.parent = .download) (hd : p.controlFile.fs.dirs (.version v) = some d) :
    p.removeContent v =
      if (leftFiles p.controlFile d).isEmpty then
        ({ p with controlFile := { p.controlFile with
            version := ""
            fs := { p.controlFile.fs with
              cwd := p.controlFile.fs.cwd.parent
              dirs := Function.update p.controlFile.fs.dirs (.version v) none } } }, .ok)
      else
        ({ p with controlFile := { p.controlFile with
            version := ""
            fs := { p.controlFile.fs with
              cwd := p.controlFile.fs.cwd.parent
              dirs := Function.update p.controlFile.fs.dirs (.version v)
                (some (leftFiles p.controlFile d)) } } }, .needVersion) := by
  simp only [removeContent, hready, ne_eq, not_true, if_false, ControlFile.removeContent, if_pos h, hd,
    leftFiles]
  split_ifs <;> rfl

/-- Just from a state that is `Removable` the version is removed, and nothing else. -/
theorem removesOnly_iff {d : VersionDir} (hready : p.state = .ready)
    (hd : p.controlFile.fs.dirs (.version v) = some d) : p.RemovesOnly v ↔ p.Removable v := by
  have hnames : (p.controlFile.suffix = .none →
      (p.controlFile.fs.dirs (.version v)).bind (fun d => d.file .next) = none) ↔
        (leftFiles p.controlFile d).isEmpty = true := by
    rw [isEmpty_leftFiles, hd, Option.bind_some]
  by_cases hparent : p.controlFile.fs.cwd.parent = .download
  · have heq := removeContent_of_dir hready hparent hd
    by_cases hempty : (leftFiles p.controlFile d).isEmpty = true
    · rw [if_pos hempty] at heq
      constructor
      · intro h
        refine ⟨hparent, hnames.2 hempty, ?_⟩
        by_contra hcurrent
        have hversion := h.version fun hv => hcurrent (.inr hv)
        rw [heq] at hversion
        exact hcurrent (.inl hversion.symm)
      · intro h
        refine ⟨by rw [heq], by rw [heq], by rw [heq], fun hv => ?_⟩
        rw [heq, h.current.resolve_right hv]
    · rw [if_neg hempty] at heq
      refine iff_of_false (fun h => ?_) fun h => hempty (hnames.1 h.names)
      have hstatus := h.status
      rw [heq] at hstatus
      cases hstatus
  · refine iff_of_false (fun h => ?_) fun h => hparent h.inVersion
    have hstatus := h.status
    rw [removeContent_of_above hready hparent] at hstatus
    cases hstatus

/-! ## Runs -/

/-- What changes versions and their directories, and the working directory with them. -/
inductive Operation
  | setVersion (fails : FsCall → Bool) (v : String)
  | removeContent (v : String)
  /-- A boot, with what the new process finds in the memory that it shares with its thread. -/
  | boot (created : Bool) (pd : WriteThreadSharedData)

/-- An operation. -/
def operate (p : CANProcessor) : Operation → Option CANProcessor
  | .setVersion fails v => some (p.setVersion fails v).1
  | .removeContent v => some (p.removeContent v).1
  | .boot created pd => some (Engine.launch created pd p.controlFile.fs).processor

theorem state_launch {created : Bool} {pd : WriteThreadSharedData} {fs : FileSystem} :
    (Engine.launch created pd fs).processor.state = .ready := by
  unfold Engine.launch runScript
  cases created <;> rfl

theorem ready_of_run {l : List Operation} (hready : p.state = .ready)
    (hrun : Transition.run operate p l = some p') : p'.state = .ready := by
  refine Transition.inv_of_run (I := fun p => p.state = .ready) ?_ hready hrun
  intro p₁ a p₂ hready hstep
  cases a with
  | setVersion fails v =>
    cases hstep
    obtain ⟨cf, hcf⟩ := exists_setVersion p₁ fails v
    rw [hcf]
    exact hready
  | removeContent v =>
    cases hstep
    obtain ⟨cf, hcf⟩ := exists_removeContent p₁ v
    rw [hcf]
    exact hready
  | boot created pd =>
    cases hstep
    exact state_launch

/-- All system calls succeed. -/
def succeed : FsCall → Bool := fun _ => false

end CANProcessor

end EW8.Update
