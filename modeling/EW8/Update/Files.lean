import EW8.Lib.Overwrite

/-!
# The files of the updater

The engine keeps its files below `/opt/updater/download`, its `DEFAULT_UPDATE_DIR`: the name
of the current version in `_version`, and a directory for each version, with the image
`update.swu`, the control files `update.swu.1` and `update.swu.2` and the file `status`. It
changes into the directory of the version, and opens these by their names, so that the
working directory is part of the state (`FileSystem`).

A version is the name of one directory, without slashes.
-/

namespace EW8.Update

/-- The suffixes: none, `m_defaultSuffix` ".1" and `m_defaultNextSuffix` ".2". -/
inductive Suffix
  | none
  | first
  | next
  deriving DecidableEq, Repr

/-- The files of the directory of a version. -/
@[ext]
structure VersionDir where
  /-- `m_fileName` with a suffix; without one, it is the image. -/
  file : Suffix → Option (List UInt8)
  /-- `m_statusFile`. -/
  status : Option (List Char)

namespace VersionDir

/-- A new directory. -/
def empty : VersionDir := ⟨fun _ => .none, .none⟩

/-- `rmdir` is possible. -/
def isEmpty (d : VersionDir) : Bool :=
  (d.file .none).isNone && (d.file .first).isNone && (d.file .next).isNone && d.status.isNone

/-- The directory with new content of a file, `none` if it is removed. -/
def setFile (d : VersionDir) (s : Suffix) (content : Option (List UInt8)) : VersionDir :=
  { d with file := Function.update d.file s content }

variable {d : VersionDir} {s s' : Suffix} {content : Option (List UInt8)}

@[simp] theorem file_setFile_self : (d.setFile s content).file s = content :=
  Function.update_self ..

theorem file_setFile_of_ne (h : s' ≠ s) : (d.setFile s content).file s' = d.file s' :=
  Function.update_of_ne h ..

end VersionDir

/-- The file with `buf` written at the offset `ofs`. A gap before it reads as zeros. -/
abbrev writeAt (file : List UInt8) (ofs : ℕ) (buf : List UInt8) : List UInt8 :=
  overwrite 0 file ofs buf

/-- The directories that the engine can be in. -/
inductive Location
  | version (name : String)
  /-- `DEFAULT_UPDATE_DIR`. -/
  | download
  /-- The directories above it: `/opt/updater`, `/opt` and `/`. -/
  | above (level : Fin 3)
  deriving DecidableEq, Repr

/-- `..`. -/
def Location.parent : Location → Location
  | version _ => download
  | download => above ⟨0, by decide⟩
  | above ⟨0, _⟩ => above ⟨1, by decide⟩
  | above _ => above ⟨2, by decide⟩

/-- The files below `DEFAULT_UPDATE_DIR`, and the working directory. -/
structure FileSystem where
  /-- The directories that exist. -/
  dirs : Location → Option VersionDir
  /-- The content of `_version`. -/
  versionFile : Option String
  cwd : Location

namespace FileSystem

/-- The working directory. -/
def here (fs : FileSystem) : Option VersionDir := fs.dirs fs.cwd

/-- Opening a file by its name, to read it. -/
def read (fs : FileSystem) (s : Suffix) : Option (List UInt8) := fs.here.bind fun d => d.file s

/-- A change in the working directory; nothing if it has been removed. -/
def modify (fs : FileSystem) (f : VersionDir → VersionDir) : FileSystem :=
  { fs with dirs := Function.update fs.dirs fs.cwd (fs.here.map f) }

/-- New content of a file of the working directory. -/
def write (fs : FileSystem) (s : Suffix) (content : List UInt8) : FileSystem :=
  fs.modify fun d => d.setFile s (some content)

/-- `chdir(DEFAULT_UPDATE_DIR)`. -/
def chdirDefault (fs : FileSystem) : Option FileSystem :=
  if (fs.dirs .download).isSome then some { fs with cwd := .download } else .none

/-- `chdir` to a version: its directory is below `DEFAULT_UPDATE_DIR`. -/
def chdirVersion (fs : FileSystem) (v : String) : Option FileSystem :=
  if fs.cwd = .download ∧ (fs.dirs (.version v)).isSome then some { fs with cwd := .version v }
  else .none

/-- `mkdir`. -/
def mkdir (fs : FileSystem) (v : String) : Option FileSystem :=
  if fs.cwd = .download ∧ v ≠ "" ∧ fs.dirs (.version v) = .none then
    some { fs with dirs := Function.update fs.dirs (.version v) (some .empty) }
  else .none

/-- All control files have the property `P`. -/
def Holds (P : List UInt8 → Prop) (fs : FileSystem) : Prop :=
  ∀ loc d s b, fs.dirs loc = some d → s ≠ .none → d.file s = some b → P b

variable {fs fs' : FileSystem} {s : Suffix} {P : List UInt8 → Prop} {b : List UInt8}

@[simp] theorem cwd_modify (f : VersionDir → VersionDir) : (fs.modify f).cwd = fs.cwd := rfl

@[simp] theorem here_modify (f : VersionDir → VersionDir) :
    (fs.modify f).here = fs.here.map f :=
  Function.update_self ..

theorem dirs_modify_of_ne {loc : Location} (h : loc ≠ fs.cwd) (f : VersionDir → VersionDir) :
    (fs.modify f).dirs loc = fs.dirs loc :=
  Function.update_of_ne h ..

/-- Writing a file changes no other. -/
theorem read_write_of_ne {s' : Suffix} (h : s' ≠ s) (content : List UInt8) :
    (fs.write s content).read s' = fs.read s' := by
  rw [read, read, write, here_modify]
  cases fs.here with
  | none => rfl
  | some d => exact Function.update_of_ne h ..

/-- A change of the status changes no file. -/
theorem read_modify_status (f : VersionDir → Option (List Char)) :
    (fs.modify fun d => { d with status := f d }).read s = fs.read s := by
  rw [read, read, here_modify]
  cases fs.here <;> rfl

theorem read_write (d : VersionDir) (hd : fs.here = some d) (content : List UInt8) :
    (fs.write s content).read s = some content := by
  rw [read, write, here_modify, hd]
  exact Function.update_self ..

namespace Holds

theorem read (h : fs.Holds P) (hs : s ≠ .none) (hb : fs.read s = some b) : P b := by
  obtain ⟨d, hd, hb⟩ := Option.bind_eq_some_iff.1 hb
  exact h fs.cwd d s b hd hs hb

/-- The working directory does not matter. -/
theorem of_dirs (h : fs.Holds P) (hdirs : fs'.dirs = fs.dirs) : fs'.Holds P :=
  fun loc d s b hd => h loc d s b (hdirs ▸ hd)

theorem modify (h : fs.Holds P) {f : VersionDir → VersionDir}
    (hf : ∀ d s b, fs.here = some d → s ≠ .none → (f d).file s = some b → d.file s = some b ∨ P b) :
    (fs.modify f).Holds P := by
  intro loc d s b hd hs hb
  by_cases hloc : loc = fs.cwd
  · subst hloc
    have hmap : fs.here.map f = some d := (here_modify f).symm.trans hd
    obtain ⟨d', hd', rfl⟩ := Option.map_eq_some_iff.1 hmap
    exact (hf d' s b hd' hs hb).elim (fun hb' => h _ d' s b hd' hs hb') id
  · rw [dirs_modify_of_ne hloc] at hd
    exact h loc d s b hd hs hb

theorem write (h : fs.Holds P) {content : List UInt8} (hP : s ≠ .none → P content) :
    (fs.write s content).Holds P := by
  refine h.modify fun d s' b _ hs' hb => ?_
  by_cases hs : s' = s
  · subst hs
    rw [VersionDir.file_setFile_self] at hb
    exact .inr (Option.some.inj hb ▸ hP hs')
  · rw [VersionDir.file_setFile_of_ne hs] at hb
    exact .inl hb

theorem modify_status (h : fs.Holds P) (f : VersionDir → Option (List Char)) :
    (fs.modify fun d => { d with status := f d }).Holds P :=
  h.modify fun _ _ _ _ _ hb => .inl hb

end Holds

end FileSystem

end EW8.Update
