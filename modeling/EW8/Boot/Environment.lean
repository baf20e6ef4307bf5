import EW8.Lib.Transition
import EW8.Lib.Mirror

/-!
# The mirrored boot environment

The scripts of the updater share five variables (`EnvKey`), kept in the file
`updater_env`, twice, each copy with an `.md5` file. Every script works on a cached
copy of its own: `read_env_variables` fills it from the copies, and
`write_env_variables` edits its lines and copies it back, to the primary file first,
then to the secondary one, with a `sync` after each.

A `Device` is a run of scripts on these files, in which power may be lost at any
point of a write. What a read then finds is decided by `Mirror.Sound`: it is the
last write completed, or the one interrupted last (`read_of_run`), as long as every
script reads before it writes, and no primary half of a write is lost while the
secondary copy is damaged. Nothing in the scripts sees to the latter:
`read_env_file` is content with a good primary copy, and repairs nothing.
-/

namespace EW8.Boot

/-- The environment variables. -/
inductive EnvKey
  | fwPartitionIndex
  | mediaPartitionIndex
  | rollbackRestartCount
  | rollbackStatus
  | updateStatus
  deriving DecidableEq

/-- The values of the variables. -/
abbrev EnvVars := EnvKey → String

/-- An environment file: its lines `key=value`. -/
abbrev EnvFile := List (EnvKey × String)

/-- The defaults set when the script is loaded. -/
def defaultVars : EnvVars
  | .fwPartitionIndex => "5"
  | .mediaPartitionIndex => "3"
  | .rollbackRestartCount => "0"
  | .rollbackStatus => "none"
  | .updateStatus => "none"

/-- `init_default_env_file`: a file with the variables as they are. -/
def initDefaultEnvFile (vars : EnvVars) : EnvFile :=
  [(.fwPartitionIndex, vars .fwPartitionIndex),
    (.mediaPartitionIndex, vars .mediaPartitionIndex),
    (.rollbackRestartCount, vars .rollbackRestartCount),
    (.rollbackStatus, vars .rollbackStatus),
    (.updateStatus, vars .updateStatus)]

/-- `read_env_param`: the values of the lines with the key. -/
def readEnvParam (file : EnvFile) (key : EnvKey) : String :=
  "\n".intercalate ((file.filter fun l => l.1 = key).map Prod.snd)

/-- `write_env_param`: the value is replaced in the lines with the key. -/
def writeEnvParam (key : EnvKey) (value : String) (file : EnvFile) : EnvFile :=
  file.map fun l => if l.1 = key then (key, value) else l

/-- A script: its cached environment file and its variables. -/
structure Script where
  cached : EnvFile
  vars : EnvVars

/-- A script that has just loaded `updater_environment.sh`: `mktemp` makes an empty
    file. -/
def Script.loaded : Script := ⟨[], defaultVars⟩

/-- The files: two copies, a file that does not exist being `none`. -/
abbrev EnvStore := Mirror.Store (Option EnvFile) String

section Scripts

variable (md5 : EnvFile → String)

/-- `get_md5`: nothing for a file that does not exist. -/
def getMd5 : Option EnvFile → String
  | none => ""
  | some file => md5 file

/-- `write_env_file`: the cached file is copied to both files. -/
def writeEnvFile (cached : EnvFile) : EnvStore := Mirror.Store.write (getMd5 md5) (some cached)

/-- `read_env_file`. The files are created first if the primary one does not exist; a
    copy from a file that does not exist fails. -/
def readEnvFile (p : Script) (m : EnvStore) : EnvFile × EnvStore :=
  let r := if m.pri.content = none then
      (initDefaultEnvFile p.vars, writeEnvFile md5 (initDefaultEnvFile p.vars))
    else (p.cached, m)
  match r.2.read (getMd5 md5) with
  | some file => (file.getD r.1, r.2)
  | none => (initDefaultEnvFile p.vars, r.2)

/-- `read_env_variables`. -/
def readEnvVariables (p : Script) (m : EnvStore) : Script × EnvStore :=
  let r := readEnvFile md5 p m
  (⟨r.1, readEnvParam r.1⟩, r.2)

/-- The edits of `write_env_variables` to the cached file. -/
def writeEnvParams (p : Script) : EnvFile :=
  writeEnvParam .rollbackRestartCount (p.vars .rollbackRestartCount) <|
  writeEnvParam .rollbackStatus (p.vars .rollbackStatus) <|
  writeEnvParam .mediaPartitionIndex (p.vars .mediaPartitionIndex) <|
  writeEnvParam .fwPartitionIndex (p.vars .fwPartitionIndex) <|
  writeEnvParam .updateStatus (p.vars .updateStatus) p.cached

/-! ## Runs -/

/-- A device: its files and the script it runs; of the writes so far, what the last
    complete one has written, and the last interrupted one since. -/
structure Device where
  store : EnvStore
  script : Script
  completed : EnvVars
  interrupted : Option EnvVars

/-- What can happen to a device. -/
inductive EnvAction
  /-- A script starts; also, power is lost while nothing is written. -/
  | load
  /-- `read_env_variables`. -/
  | read
  /-- The script sets its variables. -/
  | assign (vars : EnvVars)
  /-- `write_env_variables`. -/
  | write
  /-- Power is lost in the primary half of a write, before `sync`: both its files may
      be torn. A loss before anything is written is a `load`. -/
  | losePrimary (file : EnvFile) (md5File : String)
  /-- Power is lost in the secondary half of a write. A loss after everything is
      written is a `write`, and then a `load`. -/
  | loseSecondary (file : EnvFile) (md5File : String)

/-- A torn copy carries its own checksum only by being the old or the new one. -/
abbrev Torn (old : Mirror.Copy (Option EnvFile) String) (file : EnvFile)
    (torn : Mirror.Copy (Option EnvFile) String) : Prop :=
  Mirror.Torn (getMd5 md5) old (some file) torn

instance (old : Mirror.Copy (Option EnvFile) String) (file : EnvFile)
    (torn : Mirror.Copy (Option EnvFile) String) : Decidable (Torn md5 old file torn) :=
  inferInstanceAs (Decidable (_ → _))

/-- One step of a device. -/
def Device.step (d : Device) : EnvAction → Option Device
  | .load => some { d with script := .loaded }
  | .read =>
    let r := readEnvVariables md5 d.script d.store
    some { d with script := r.1, store := r.2 }
  | .assign vars => some { d with script := { d.script with vars := vars } }
  | .write =>
    let file := writeEnvParams d.script
    some { store := writeEnvFile md5 file
           script := { d.script with cached := file }
           completed := d.script.vars
           interrupted := none }
  | .losePrimary file md5File =>
    let torn : Mirror.Copy (Option EnvFile) String := ⟨some file, md5File⟩
    if Torn md5 d.store.pri (writeEnvParams d.script) torn ∧ torn ≠ d.store.pri then
      some { d with
        store := { d.store with pri := torn }
        script := .loaded
        interrupted := some d.script.vars }
    else none
  | .loseSecondary file md5File =>
    let new := Mirror.Copy.of (getMd5 md5) (some (writeEnvParams d.script))
    let torn : Mirror.Copy (Option EnvFile) String := ⟨some file, md5File⟩
    if Torn md5 d.store.sec (writeEnvParams d.script) torn ∧ torn ≠ new then
      some { d with
        store := ⟨new, torn⟩
        script := .loaded
        interrupted := some d.script.vars }
    else none

end Scripts

/-! ## Lines of an environment file -/

/-- The file has one line for every variable, with its value. -/
def Encodes (file : EnvFile) (vars : EnvVars) : Prop :=
  ∀ k, (file.filter fun l => l.1 = k) = [(k, vars k)]

variable {file : EnvFile} {vars : EnvVars}

theorem Encodes.readEnvParam_eq (h : Encodes file vars) : readEnvParam file = vars := by
  funext k
  rw [readEnvParam, h k]
  rfl

theorem encodes_initDefaultEnvFile (vars : EnvVars) :
    Encodes (initDefaultEnvFile vars) vars := fun k => by
  cases k <;> rfl

/-- Editing the line of a variable changes its value, and no other. -/
theorem Encodes.writeEnvParam (h : Encodes file vars) (key : EnvKey) (value : String) :
    Encodes (writeEnvParam key value file) (Function.update vars key value) := fun k => by
  have hkey : (fun l : EnvKey × String =>
      decide ((if l.1 = key then (key, value) else l).1 = k)) = fun l => decide (l.1 = k) := by
    funext l
    split_ifs with hl <;> simp [hl]
  rw [Boot.writeEnvParam, List.filter_map, Function.comp_def, hkey, h k]
  by_cases hk : k = key
  · simp [hk]
  · simp [hk]

/-- What is written encodes the variables of the script, if its cached file has a line
    for each. -/
theorem encodes_writeEnvParams {p : Script} (h : Encodes p.cached vars) :
    Encodes (writeEnvParams p) p.vars := by
  have h' := ((((h.writeEnvParam .updateStatus (p.vars .updateStatus)).writeEnvParam
    .fwPartitionIndex (p.vars .fwPartitionIndex)).writeEnvParam
    .mediaPartitionIndex (p.vars .mediaPartitionIndex)).writeEnvParam
    .rollbackStatus (p.vars .rollbackStatus)).writeEnvParam
    .rollbackRestartCount (p.vars .rollbackRestartCount)
  have hvars : p.vars = Function.update (Function.update (Function.update (Function.update
      (Function.update vars .updateStatus (p.vars .updateStatus))
      .fwPartitionIndex (p.vars .fwPartitionIndex))
      .mediaPartitionIndex (p.vars .mediaPartitionIndex))
      .rollbackStatus (p.vars .rollbackStatus))
      .rollbackRestartCount (p.vars .rollbackRestartCount) := by
    funext k
    cases k <;> rfl
  rw [hvars]
  exact h'

/-! ## Crash safety -/

variable (md5 : EnvFile → String)

/-- A device after a first complete `write_env_file`. -/
structure Device.Written (d : Device) : Prop where
  store : ∃ file, Encodes file d.completed ∧ d.store = writeEnvFile md5 file
  cached : d.script.cached = [] ∨ ∃ vars, Encodes d.script.cached vars
  interrupted : d.interrupted = none

/-- `read_env_file` takes the defaults. -/
def FallsBack (m : EnvStore) : Prop :=
  m.pri.content = none ∨ m.read (getMd5 md5) = none

/-- A write is made by a script that has read the environment, and no primary half of a
    write is lost while the secondary copy is damaged. -/
def Careful (d : Device) : EnvAction → Prop
  | .write => d.script.cached ≠ []
  | .losePrimary _ _ => d.script.cached ≠ [] ∧ d.store.sec.Passes (getMd5 md5)
  | .loseSecondary _ _ => d.script.cached ≠ []
  | _ => True

/-- The invariant of a device: the files hold what the last writes were given. -/
structure Device.Inv (d : Device) : Prop where
  sound : ∃ completed interrupted,
    Mirror.Sound (getMd5 md5) d.store (some completed) interrupted ∧
      Encodes completed d.completed ∧
      ∀ x, interrupted = some x → ∃ file vars, x = some file ∧ d.interrupted = some vars ∧
        Encodes file vars
  pri_exists : d.store.pri.content ≠ none
  cached : d.script.cached = [] ∨ ∃ vars, Encodes d.script.cached vars

instance (m : EnvStore) : Decidable (FallsBack md5 m) :=
  inferInstanceAs (Decidable (_ ∨ _))

instance (d : Device) : ∀ a, Decidable (Careful md5 d a)
  | .load => isTrue trivial
  | .read => isTrue trivial
  | .assign _ => isTrue trivial
  | .write => inferInstanceAs (Decidable (_ ≠ _))
  | .losePrimary _ _ => inferInstanceAs (Decidable (_ ∧ _))
  | .loseSecondary _ _ => inferInstanceAs (Decidable (_ ≠ _))

variable {md5} {d d' : Device} {a : EnvAction} {l : List EnvAction}

theorem Device.Written.inv (h : d.Written md5) : d.Inv md5 := by
  obtain ⟨file, hfile, hstore⟩ := h.store
  refine ⟨⟨file, none, ?_, hfile, nofun⟩, ?_, h.cached⟩
  · rw [hstore]
    exact Mirror.sound_write (some file) none
  · rw [hstore]
    exact nofun

namespace Device.Inv

/-- A read finds the last write completed, or the one interrupted last, and does not
    fall back to the defaults. -/
theorem read_eq (h : d.Inv md5) :
    ¬FallsBack md5 d.store ∧ ∃ file vars, Encodes file vars ∧
      readEnvVariables md5 d.script d.store = (⟨file, vars⟩, d.store) ∧
      (vars = d.completed ∨ some vars = d.interrupted) := by
  obtain ⟨completed, interrupted, hsound, hcompleted, hinterrupted⟩ := h.sound
  obtain ⟨y, hread, hy⟩ := hsound.read_eq
  refine ⟨?_, ?_⟩
  · rintro (hnone | hnone)
    · exact h.pri_exists hnone
    · rw [hread] at hnone
      cases hnone
  obtain ⟨file, vars, rfl, hfile, hvars⟩ : ∃ file vars, y = some file ∧ Encodes file vars ∧
      (vars = d.completed ∨ some vars = d.interrupted) := by
    rcases hy with rfl | hy
    · exact ⟨completed, d.completed, rfl, hcompleted, .inl rfl⟩
    · obtain ⟨file, vars, rfl, hint, hfile⟩ := hinterrupted y hy.symm
      exact ⟨file, vars, rfl, hfile, .inr hint.symm⟩
  refine ⟨file, vars, hfile, ?_, hvars⟩
  simp only [readEnvVariables, readEnvFile, if_neg h.pri_exists, hread, Option.getD_some,
    hfile.readEnvParam_eq]

theorem encodes_cached (h : d.Inv md5) (hread : d.script.cached ≠ []) :
    Encodes (writeEnvParams d.script) d.script.vars := by
  obtain ⟨vars, hvars⟩ := h.cached.resolve_left hread
  exact encodes_writeEnvParams hvars

/-- Every careful step keeps the invariant. -/
theorem step (h : d.Inv md5) (hc : Careful md5 d a) (hstep : d.step md5 a = some d') :
    d'.Inv md5 := by
  cases a with
  | load =>
    obtain rfl := Option.some.inj hstep
    exact ⟨h.sound, h.pri_exists, .inl rfl⟩
  | read =>
    obtain ⟨-, file, vars, hfile, hread, -⟩ := h.read_eq
    simp only [Device.step, hread] at hstep
    obtain rfl := Option.some.inj hstep
    exact ⟨h.sound, h.pri_exists, .inr ⟨vars, hfile⟩⟩
  | assign vars =>
    obtain rfl := Option.some.inj hstep
    exact ⟨h.sound, h.pri_exists, h.cached⟩
  | write =>
    have hfile := h.encodes_cached hc
    obtain rfl := Option.some.inj hstep
    exact ⟨⟨_, none, Mirror.sound_write _ none, hfile, nofun⟩, nofun, .inr ⟨_, hfile⟩⟩
  -- the write that has been lost may be read later on, or the last one that was completed
  | losePrimary file md5File =>
    have hfile := h.encodes_cached hc.1
    obtain ⟨completed, interrupted, hsound, hcompleted, -⟩ := h.sound
    rw [Device.step] at hstep
    split_ifs at hstep with hguard
    obtain rfl := Option.some.inj hstep
    refine ⟨⟨completed, _, hsound.interruptPrimary hguard.1 hguard.2 hc.2, hcompleted, ?_⟩,
      nofun, .inl rfl⟩
    rintro x hx
    exact ⟨_, _, (Option.some.inj hx).symm, rfl, hfile⟩
  | loseSecondary file md5File =>
    have hfile := h.encodes_cached hc
    obtain ⟨completed, interrupted, hsound, hcompleted, -⟩ := h.sound
    rw [Device.step] at hstep
    split_ifs at hstep with hguard
    obtain rfl := Option.some.inj hstep
    refine ⟨⟨completed, _, hsound.interruptSecondary hguard.1 hguard.2, hcompleted, ?_⟩,
      nofun, .inl rfl⟩
    rintro x hx
    exact ⟨_, _, (Option.some.inj hx).symm, rfl, hfile⟩

end Device.Inv

/-- A checksum that tells files apart by their values. -/
def joinedValues (file : EnvFile) : String := ";".intercalate (file.map Prod.snd)

/-- A device after the first write of `vars`. -/
def Device.fresh (vars : EnvVars) : Device where
  store := writeEnvFile joinedValues (initDefaultEnvFile vars)
  script := .loaded
  completed := vars
  interrupted := none

theorem Device.written_fresh (vars : EnvVars) : (Device.fresh vars).Written joinedValues where
  store := ⟨_, encodes_initDefaultEnvFile vars, rfl⟩
  cached := .inl rfl
  interrupted := rfl

/-- The environment of a device that runs the firmware of partition 7. -/
def swappedVars : EnvVars := Function.update defaultVars .fwPartitionIndex "7"

end EW8.Boot
