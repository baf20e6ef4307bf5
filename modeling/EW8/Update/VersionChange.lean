import EW8.Update.Resume
import EW8.Update.Device

/-!
# A change of the version

`SetVersion` changes into the directory of a version, and makes it if need be. On the way it goes
through `DEFAULT_UPDATE_DIR`, reads the control files it comes across, and writes the name of the
version to `_version`; each of these steps may fail.

* `inVersion_of_setVersion`: where it succeeds, the engine is in the directory of the version;
* `kept_iff_of_nack`: where it fails, it seldom leaves things as they were, since it does not go
  back to where it came from.
-/

namespace EW8.Update

namespace FileSystem

variable {fs fs' : FileSystem} {v : String} {c : FsCall} {fails : FsCall → Bool}

/-- The call `c` of `chdir(DEFAULT_UPDATE_DIR)` succeeds. -/
def Opens (fs : FileSystem) (fails : FsCall → Bool) (c : FsCall) : Prop :=
  fails c = false ∧ (fs.dirs .download).isSome

theorem opens_of_call (h : ControlFile.call fails c fs.chdirDefault = some fs') :
    fs.Opens fails c ∧ fs' = { fs with cwd := .download } := by
  unfold ControlFile.call chdirDefault at h
  split_ifs at h with hfails hdir
  exact ⟨⟨Bool.eq_false_iff.2 hfails, hdir⟩, (Option.some.inj h).symm⟩

theorem not_opens_of_call (h : ControlFile.call fails c fs.chdirDefault = none) :
    ¬fs.Opens fails c := by
  rintro ⟨hfails, hdir⟩
  simp [ControlFile.call, chdirDefault, hfails, hdir] at h

theorem call_chdirVersion (h : ControlFile.call fails c (fs.chdirVersion v) = some fs') :
    fails c = false ∧ (fs.dirs (.version v)).isSome ∧ fs' = { fs with cwd := .version v } := by
  unfold ControlFile.call chdirVersion at h
  split_ifs at h with hfails hdir
  exact ⟨Bool.eq_false_iff.2 hfails, hdir.2, (Option.some.inj h).symm⟩

end FileSystem

namespace ControlFile

variable {cf cf' : ControlFile} {v : String} {fails : FsCall → Bool} {err : FileError}

/-! ## A version that is set -/

/-- The engine works on the version `v`: its files are those of the directory of `v`. -/
structure InVersion (cf : ControlFile) (v : String) : Prop where
  cwd : cf.fs.cwd = .version v
  version : cf.version = v

/-- `WriteVersion` ends in the directory of the version, or outside of it. -/
theorem writeVersion_cases (h : cf.writeVersion fails v = (cf', err)) :
    err = .ok ∧ (cf.fs.cwd = .version v → cf'.InVersion v) ∨
      err ≠ .ok ∧ (cf'.version = "" ∨ cf'.fs.cwd = .download) := by
  by_cases hv : cf.version = v
  · rw [writeVersion, if_pos hv] at h
    cases h
    exact .inl ⟨rfl, fun hcwd => ⟨hcwd, hv⟩⟩
  · rw [writeVersion, if_neg hv] at h
    split at h
    · cases h
      exact .inr ⟨by decide, .inl rfl⟩
    · rename_i fs hfs
      obtain ⟨-, rfl⟩ := FileSystem.opens_of_call hfs
      split_ifs at h
      · cases h
        exact .inr ⟨by decide, .inr rfl⟩
      · cases h
        exact .inr ⟨by decide, .inr rfl⟩
      · dsimp only at h
        split at h
        · cases h
          exact .inr ⟨by decide, .inr rfl⟩
        · rename_i fs' hfs'
          obtain ⟨-, -, rfl⟩ := FileSystem.call_chdirVersion hfs'
          cases h
          exact .inl ⟨rfl, fun _ => ⟨rfl, rfl⟩⟩

theorem writeVersion_ok (h : cf.writeVersion fails v = (cf', .ok)) (hcwd : cf.fs.cwd = .version v) :
    cf'.InVersion v := by
  rcases writeVersion_cases h with ⟨-, hin⟩ | ⟨hne, -⟩
  · exact hin hcwd
  · exact absurd rfl hne

theorem writeVersion_err (h : cf.writeVersion fails v = (cf', err)) (herr : err ≠ .ok) :
    cf'.version = "" ∨ cf'.fs.cwd = .download := by
  rcases writeVersion_cases h with ⟨hok, -⟩ | ⟨-, hout⟩
  · exact absurd hok herr
  · exact hout

theorem writeNewVersion_ok (h : cf.writeNewVersion fails v = (cf', .ok)) : cf'.InVersion v := by
  unfold writeNewVersion at h
  split at h
  · cases h
  · split at h
    · rename_i fs hfs
      obtain ⟨-, -, rfl⟩ := FileSystem.call_chdirVersion hfs
      exact writeVersion_ok h rfl
    · split at h
      · cases h
      · split at h
        · cases h
        · rename_i fs hfs
          obtain ⟨-, -, rfl⟩ := FileSystem.call_chdirVersion hfs
          exact writeVersion_ok h rfl

/-- A version that is not made: nothing happens if the very first step fails. -/
theorem writeNewVersion_err (h : cf.writeNewVersion fails v = (cf', err)) (herr : err ≠ .ok) :
    ¬cf.fs.Opens fails .writeNewVersionDefault ∧ cf' = cf ∨
      cf.fs.Opens fails .writeNewVersionDefault ∧ (cf'.version = "" ∨ cf'.fs.cwd = .download) := by
  unfold writeNewVersion at h
  split at h
  · rename_i hnone
    exact .inl ⟨FileSystem.not_opens_of_call hnone, (congrArg Prod.fst h).symm⟩
  · rename_i fs hfs
    obtain ⟨hopens, rfl⟩ := FileSystem.opens_of_call hfs
    refine .inr ⟨hopens, ?_⟩
    split at h
    · exact writeVersion_err h herr
    · split at h
      · obtain rfl := congrArg Prod.fst h
        exact .inr rfl
      · rename_i fs' hfs'
        have hcwd : fs'.cwd = .download := by
          unfold call FileSystem.mkdir at hfs'
          split_ifs at hfs'
          rw [← Option.some.inj hfs']
        split at h
        · obtain rfl := congrArg Prod.fst h
          exact .inr hcwd
        · exact writeVersion_err h herr

theorem checkVersion_ok (h : cf.checkVersion fails v = (cf', .ok)) : cf'.fs.cwd = .version v := by
  unfold checkVersion at h
  split at h
  · cases h
  · split at h
    · cases h
    · rename_i fs hfs
      obtain ⟨-, -, rfl⟩ := FileSystem.call_chdirVersion hfs
      obtain ⟨s, b, -, -, -, -, rfl⟩ := checkAndLoad_ok h
      rfl

/-! ## A version that is not set -/

/-- What a failed change of the version should leave as it is. -/
structure Kept (cf cf' : ControlFile) : Prop where
  cwd : cf'.fs.cwd = cf.fs.cwd
  version : cf'.version = cf.version
  versionFile : cf'.fs.versionFile = cf.fs.versionFile
  header : cf'.header = cf.header
  sums : cf'.sums = cf.sums

theorem Kept.refl (cf : ControlFile) : Kept cf cf := ⟨rfl, rfl, rfl, rfl, rfl⟩

/-- A version is in progress: the engine is in its directory. -/
structure InProgress (cf : ControlFile) : Prop extends cf.InVersion cf.version where
  ne : cf.version ≠ ""

theorem InProgress.not_kept (h : cf.InProgress) (hout : cf'.version = "" ∨ cf'.fs.cwd = .download) :
    ¬Kept cf cf' := by
  intro hkept
  rcases hout with hversion | hcwd
  · exact h.ne (hkept.version.symm.trans hversion)
  · have hsame := hkept.cwd
    rw [hcwd, h.cwd] at hsame
    cases hsame

/-- To read the two control files of the directory again changes nothing in memory. -/
def Rereads (cf : ControlFile) : Prop :=
  ((cf.readControlFile .first).1.readControlFile .next).1.header = cf.header ∧
    ((cf.readControlFile .first).1.readControlFile .next).1.sums = cf.sums

/-- Where there is nothing to resume, the control files have been read all the same. -/
theorem checkAndLoad_err (h : cf.checkAndLoadControlFile = (cf', err)) (herr : err ≠ .ok) :
    cf' = ((cf.readControlFile .first).1.readControlFile .next).1 := by
  have hread (cf : ControlFile) (s : Suffix) : (cf.readAndCheck s).1 = (cf.readControlFile s).1 := by
    unfold readAndCheck
    split
    all_goals
      rename_i heq
      rw [heq]
  simp only [checkAndLoadControlFile] at h
  split_ifs at h
  · rw [← hread, ← hread]
    exact (congrArg Prod.fst h).symm
  · exact absurd (congrArg Prod.snd h).symm herr

/-- `CheckVersion` changes into the directory of the version, where it gets that far. -/
def Enters (cf : ControlFile) (fails : FsCall → Bool) (v : String) : Prop :=
  fails .checkVersion = false ∧ (cf.fs.dirs (.version v)).isSome

/-- How the check of a version fails: it cannot start, it stops in `DEFAULT_UPDATE_DIR`, or it
    has changed into the directory of the version and read its control files. -/
theorem checkVersion_err (h : cf.checkVersion fails v = (cf', err)) (herr : err ≠ .ok) :
    ¬cf.fs.Opens fails .checkVersionDefault ∧ cf' = cf ∨
      cf.fs.Opens fails .checkVersionDefault ∧
        (¬cf.Enters fails v ∧ cf'.fs.cwd = .download ∨
          cf.Enters fails v ∧ ∃ w : ControlFile,
            w = { cf with fs := { cf.fs with cwd := .version v } } ∧
              cf' = ((w.readControlFile .first).1.readControlFile .next).1) := by
  unfold checkVersion at h
  split at h
  · rename_i hnone
    exact .inl ⟨FileSystem.not_opens_of_call hnone, (congrArg Prod.fst h).symm⟩
  · rename_i fs hfs
    obtain ⟨hopens, rfl⟩ := FileSystem.opens_of_call hfs
    refine .inr ⟨hopens, ?_⟩
    split at h
    · rename_i hnone
      obtain rfl := congrArg Prod.fst h
      refine .inl ⟨?_, rfl⟩
      rintro ⟨hfails, hdir⟩
      simp [call, FileSystem.chdirVersion, hfails, hdir] at hnone
    · rename_i fs' hfs'
      obtain ⟨hfails, hdir, rfl⟩ := FileSystem.call_chdirVersion hfs'
      exact .inr ⟨⟨hfails, hdir⟩, _, rfl, checkAndLoad_err h herr⟩

/-- What the check of a version leaves as it is. -/
structure Checked (cf cf' : ControlFile) : Prop where
  version : cf'.version = cf.version
  versionFile : cf'.fs.versionFile = cf.fs.versionFile
  dirs : cf'.fs.dirs = cf.fs.dirs

theorem checked_checkAndLoad (cf : ControlFile) : Checked cf cf.checkAndLoadControlFile.1 := by
  rcases cf.checkAndLoad_cases with ⟨⟨header, sum, sums, heq⟩, -⟩ | ⟨s, b, -, -, -, -, heq⟩
  all_goals
    rw [heq]
    exact ⟨rfl, rfl, rfl⟩

theorem checked_checkVersion (h : cf.checkVersion fails v = (cf', err)) :
    Checked cf cf' ∧ (err = .ok → cf.fs.Opens fails .checkVersionDefault) := by
  unfold checkVersion at h
  split at h
  · cases h
    exact ⟨⟨rfl, rfl, rfl⟩, fun herr => by cases herr⟩
  · rename_i fs hfs
    obtain ⟨hopens, rfl⟩ := FileSystem.opens_of_call hfs
    refine ⟨?_, fun _ => hopens⟩
    split at h
    · cases h
      exact ⟨rfl, rfl, rfl⟩
    · rename_i fs' hfs'
      obtain ⟨-, -, rfl⟩ := FileSystem.call_chdirVersion hfs'
      have hload := checked_checkAndLoad { cf with fs := { cf.fs with cwd := .version v } }
      rw [h] at hload
      exact ⟨hload.version, hload.versionFile, hload.dirs⟩

/-- After the check of a version that could be read: it is as before just if that is the version in
    progress, and what is in memory is what is in its control files. -/
theorem kept_reads_iff (h : cf.InProgress) {w : ControlFile}
    (hw : w = { cf with fs := { cf.fs with cwd := .version v } }) :
    Kept cf ((w.readControlFile .first).1.readControlFile .next).1 ↔
      v = cf.version ∧ cf.Rereads := by
  obtain ⟨header, sum, sums, h₁⟩ := w.exists_readControlFile .first
  obtain ⟨header', sum', sums', h₂⟩ := (w.readControlFile .first).1.exists_readControlFile .next
  have hcwd : ((w.readControlFile .first).1.readControlFile .next).1.fs.cwd = .version v := by
    rw [h₂, h₁, hw]
  by_cases hv : v = cf.version
  · have hsame : w = cf := by rw [hw, hv, ← h.cwd]
    subst hsame
    refine ⟨fun hkept => ⟨hv, hkept.header, hkept.sums⟩, fun ⟨_, hheader, hsums⟩ => ?_⟩
    refine ⟨?_, ?_, ?_, hheader, hsums⟩
    all_goals rw [h₂, h₁]
  · refine ⟨fun hkept => ?_, fun hthe => absurd hthe.1 hv⟩
    have hsame := hkept.cwd
    rw [hcwd, h.cwd] at hsame
    injection hsame with hsame
    exact absurd hsame hv

end ControlFile

namespace Engine

/-- The version "1" is in progress, with two chunks. -/
def inProgress : Engine where
  processor :=
    { controlFile :=
        { header := ⟨160, 0, 2, 1, 2, -1, 3⟩
          sum := Vector.replicate 32 0
          sums := List.replicate 2 (Vector.replicate 32 0)
          suffix := .first
          version := "1"
          pd := ⟨[], 0, .ok, 0, true, []⟩
          sha2 := Vector.replicate 32 0
          fs := ⟨fun loc => if loc = .download ∨ loc = .version "1" then some .empty else none,
            some "1", .version "1"⟩ }
      state := .ready
      scripts := [] }
  writing := none

/-- The outcome that the call `c` fails, wherever it is made. -/
def failing (c : List FsCall) : Outcome := ⟨fun c' => c.contains c', true, 0⟩

end Engine

namespace CANProcessor

variable {p p' : CANProcessor} {v : String} {fails : FsCall → Bool} {status : CANProcessorStatus}

/-- `SetVersion`, by what its helpers return. -/
theorem setVersion_cases (h : p.setVersion fails v = (p', status)) :
    p.state ≠ .ready ∧ p' = p ∧ status = .activeTransmission ∨
      p.state = .ready ∧ ∃ cf err cf' err',
        p.controlFile.checkVersion fails v = (cf, err) ∧ p' = { p with controlFile := cf' } ∧
        (err = .ok ∧ cf.writeVersion fails v = (cf', err') ∧
            status = (if err' = .ok then .dirExists else .fileWriteError) ∨
          err ≠ .ok ∧ cf.writeNewVersion fails v = (cf', err') ∧
            status = (if err' = .ok then .ok else .fileWriteError)) := by
  by_cases hready : p.state = .ready
  · refine .inr ⟨hready, ?_⟩
    rw [setVersion, if_neg (not_not.2 hready)] at h
    split at h
    · rename_i cf hcheck
      obtain ⟨cf', err', hwrite⟩ : ∃ cf' err', cf.writeVersion fails v = (cf', err') := ⟨_, _, rfl⟩
      refine ⟨cf, .ok, cf', err', hcheck, ?_⟩
      rw [ControlFile.writeExistingVersion, hwrite] at h
      cases err'
      all_goals
        cases h
        exact ⟨rfl, .inl ⟨rfl, hwrite, rfl⟩⟩
    · rename_i cf err hne hcheck
      obtain ⟨cf', err', hwrite⟩ : ∃ cf' err', cf.writeNewVersion fails v = (cf', err') := ⟨_, _, rfl⟩
      refine ⟨cf, err, cf', err', hcheck, ?_⟩
      have herr : err ≠ .ok := hne
      rw [hwrite] at h
      cases err'
      all_goals
        cases h
        exact ⟨rfl, .inr ⟨herr, hwrite, rfl⟩⟩
  · rw [setVersion, if_pos hready] at h
    cases h
    exact .inl ⟨hready, rfl, rfl⟩

theorem inVersion_of_accepted (h : p.setVersion fails v = (p', status))
    (hok : status = .ok ∨ status = .dirExists) : p'.controlFile.InVersion v := by
  have hwritten {err : FileError} (r : CANProcessorStatus)
      (hstatus : status = if err = .ok then r else .fileWriteError) : err = .ok := by
    by_contra hne
    rw [hstatus, if_neg hne] at hok
    rcases hok with hok | hok <;> cases hok
  rcases setVersion_cases h with
    ⟨-, -, rfl⟩ | ⟨-, cf, err, cf', err', hcheck, rfl, ⟨rfl, hwrite, hstatus⟩ | ⟨-, hwrite, hstatus⟩⟩
  · rcases hok with hok | hok <;> cases hok
  · obtain rfl := hwritten _ hstatus
    exact ControlFile.writeVersion_ok hwrite (ControlFile.checkVersion_ok hcheck)
  · obtain rfl := hwritten _ hstatus
    exact ControlFile.writeNewVersion_ok hwrite

/-- When a failed `SetVersion` does no harm: a script is running; or it cannot change into
    `DEFAULT_UPDATE_DIR`, both times that it tries to; or the version is the one in progress, it is
    only the second time that fails, and what has been read in between is what was there. -/
def Spares (p : CANProcessor) (fails : FsCall → Bool) (v : String) : Prop :=
  p.state ≠ .ready ∨
    ¬p.controlFile.fs.Opens fails .checkVersionDefault ∧
      ¬p.controlFile.fs.Opens fails .writeNewVersionDefault ∨
    v = p.controlFile.version ∧ p.controlFile.fs.Opens fails .checkVersionDefault ∧
      fails .checkVersion = false ∧ (p.controlFile.fs.dirs (.version v)).isSome ∧
      ¬p.controlFile.fs.Opens fails .writeNewVersionDefault ∧ p.controlFile.Rereads

/-- A failure of `SetVersion` leaves the version in progress as it is just where it does no harm. -/
theorem kept_iff_of_err (hprogress : p.controlFile.InProgress) (h : p.setVersion fails v = (p', status))
    (hok : status ≠ .ok) (hexists : status ≠ .dirExists) :
    p.controlFile.Kept p'.controlFile ↔ p.Spares fails v := by
  rcases setVersion_cases h with ⟨hready, rfl, -⟩ | ⟨hready, cf, err, cf', err', hcheck, rfl, hcases⟩
  · exact ⟨fun _ => .inl hready, fun _ => .refl _⟩
  obtain ⟨hchecked, hopens₁⟩ := ControlFile.checked_checkVersion hcheck
  have hopens : cf.fs.Opens fails .writeNewVersionDefault ↔
      p.controlFile.fs.Opens fails .writeNewVersionDefault := by
    rw [FileSystem.Opens, FileSystem.Opens, hchecked.dirs]
  -- The first case is out.
  have hspares : p.Spares fails v ↔
      ¬p.controlFile.fs.Opens fails .writeNewVersionDefault ∧
        (¬p.controlFile.fs.Opens fails .checkVersionDefault ∨ v = p.controlFile.version ∧
          p.controlFile.fs.Opens fails .checkVersionDefault ∧ p.controlFile.Enters fails v ∧
            p.controlFile.Rereads) := by
    rw [Spares, ControlFile.Enters]
    tauto
  rw [hspares, ← hopens]
  rcases hcases with ⟨rfl, hwrite, rfl⟩ | ⟨herr, hwrite, rfl⟩
  · have herr' : err' ≠ .ok := fun heq => hexists (if_pos heq)
    refine iff_of_false (hprogress.not_kept (ControlFile.writeVersion_err hwrite herr')) ?_
    rintro ⟨-, hnot | ⟨hv, -⟩⟩
    · exact hnot (hopens₁ rfl)
    · -- The version that is in progress need not be written.
      rw [ControlFile.writeVersion, if_pos (hchecked.version.trans hv.symm)] at hwrite
      exact herr' (congrArg Prod.snd hwrite).symm
  · have herr' : err' ≠ .ok := fun heq => hok (if_pos heq)
    rcases ControlFile.writeNewVersion_err hwrite herr' with ⟨hnot, rfl⟩ | ⟨hopens₂, hout⟩
    · rcases ControlFile.checkVersion_err hcheck herr with
        ⟨hnot₁, rfl⟩ | ⟨hopens₁, ⟨henters, hcwd⟩ | ⟨henters, w, hw, rfl⟩⟩
      · exact iff_of_true (.refl _) ⟨hnot, .inl hnot₁⟩
      · refine iff_of_false (hprogress.not_kept (.inr hcwd)) ?_
        rintro ⟨-, hnot₁ | ⟨-, -, henters', -⟩⟩
        · exact hnot₁ hopens₁
        · exact henters henters'
      · rw [ControlFile.kept_reads_iff hprogress hw]
        constructor
        · rintro ⟨hv, hrereads⟩
          exact ⟨hnot, .inr ⟨hv, hopens₁, henters, hrereads⟩⟩
        · rintro ⟨-, hnot₁ | ⟨hv, -, -, hrereads⟩⟩
          · exact absurd hopens₁ hnot₁
          · exact ⟨hv, hrereads⟩
    · exact iff_of_false (hprogress.not_kept hout) fun hthe => hthe.1 hopens₂

end CANProcessor

namespace Engine

theorem inProgress_inProgress : inProgress.controlFile.InProgress := ⟨⟨rfl, rfl⟩, by decide⟩

/-- `DEFAULT_UPDATE_DIR` cannot be changed into. -/
def noDefault : Outcome := failing [.checkVersionDefault, .writeNewVersionDefault]

end Engine

end EW8.Update
