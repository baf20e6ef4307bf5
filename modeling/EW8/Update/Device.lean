import EW8.Lib.Transition
import EW8.Update.Processor

/-!
# The engine on the device

How the engine starts (`ControlFile.bootStrap`, `Engine.launch`), and the steps that it takes
from then on: packets arrive, one at a time, while the thread that stores chunks and those that
run scripts go on at any time (`Event`).
-/

namespace EW8.Update

namespace ControlFile

/-- `ControlFile()`. The constructor leaves what it shares with the thread as it finds it; the
    thread has started, and waits for a chunk. -/
def new (pd : WriteThreadSharedData) (fs : FileSystem) : ControlFile where
  header := ⟨0, 0, 0, 0, 0, 0, 0⟩
  sum := Vector.replicate 32 0
  sums := []
  suffix := .none
  version := ""
  pd := { pd with writtenStatus := true, handed := [] }
  sha2 := Vector.replicate 32 0
  fs := fs

/-- `GetVersion`, from `DEFAULT_UPDATE_DIR`: trailing control characters do not count. -/
def getVersion (fs : FileSystem) : String :=
  match fs.versionFile with
  | none => ""
  | some v => String.ofList ((v.toList.take 511).rdropWhile fun c => c < ' ')

/-- `chdir(DEFAULT_UPDATE_DIR)`, after `mkdir` if it has to be. -/
def makeDefault (fs : FileSystem) : FileSystem where
  dirs :=
    if (fs.dirs .download).isSome then fs.dirs
    else Function.update fs.dirs .download (some .empty)
  versionFile := fs.versionFile
  cwd := .download

/-- `BootStrap`. -/
def bootStrap (cf : ControlFile) : ControlFile × FileError :=
  let fs := makeDefault cf.fs
  let v := getVersion fs
  if v = "" then ({ cf with fs := fs }, .fileNotFound)
  else
    match fs.chdirVersion v with
    | none => ({ cf with fs := fs }, .fileNotFound)
    | some fs =>
      match { cf with fs := fs }.checkAndLoadControlFile with
      | (cf, .ok) => ({ cf with version := v }, .ok)
      | (cf, err) => (cf, err)

theorem pd_bootStrap {cf : ControlFile} : cf.bootStrap.1.pd = cf.pd := by
  unfold bootStrap
  dsimp only
  split
  · rfl
  · split
    · rfl
    · rename_i fs _
      have hpd := pd_checkAndLoadControlFile { cf with fs := fs }
      split
      all_goals
        rename_i heq
        rw [heq] at hpd
        exact hpd

end ControlFile

namespace Engine

/-- `Launch`: with the boot, `PowerOn`. -/
def launch (created : Bool) (pd : WriteThreadSharedData) (fs : FileSystem) : Engine where
  processor := CANProcessor.runScript ⟨(ControlFile.new pd fs).bootStrap.1, .ready, []⟩ created
    .runPowerOn
  writing := none

/-- What happens on the device. -/
inductive Event
  /-- A packet arrives. -/
  | receive (o : Outcome) (p : Packet)
  /-- `WriteFile` goes on, after the thread has stored the chunk before. -/
  | finishWrite
  /-- The thread stores the chunk handed to it. -/
  | writer (fault : Option WriteFault)
  /-- The `i`-th script thread goes on. -/
  | script (i : ℕ)
  /-- The update script of the `i`-th thread writes a status. -/
  | scriptStatus (i : ℕ) (version : String) (done : Bool)

/-- A step. No packet is taken while `WriteFile` waits. -/
def step (e : Engine) : Event → Option Engine
  | .receive o p => if e.writing = none then (e.receive o p).map Prod.fst else none
  | .finishWrite => e.finishWrite.map Prod.fst
  | .writer fault => e.writerStep fault
  | .script i => (e.processor.scriptStep i).map e.withProcessor
  | .scriptStatus i v done => (e.processor.scriptStatus i v done).map e.withProcessor

end Engine

end EW8.Update
