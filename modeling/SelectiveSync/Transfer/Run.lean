import SelectiveSync.System.Program
import SelectiveSync.Transfer.Plan

/-! # Running transfers

A plan is run by writing its filter to a file of its own, giving the command and waiting for the
program. The file is gone when the run is over, however it ends. -/
namespace SelectiveSync.TransferPlan
set_option autoImplicit false

def event (message : String) (fields : List (String × String)) : Event :=
  ⟨.debug, "offsync_core::transfer", message, fields⟩

/-- The plan for a target as it lies on the disk. -/
def ofTarget (settings : Settings) (t : Target) (direction : Direction) (o : TransferOptions) :
    Task Error TransferPlan := do
  let rootIsDir ← Task.isDir t.root
  Task.check id (of settings t direction o rootIsDir)

/-- Makes the filter file of a plan that has rules. -/
def writeFilter (p : TransferPlan) : Task Error (Option String) :=
  match p.rules with
  | none => return none
  | some rules => do
    let file ← Task.check Error.system (← Task.ask .newFilter)
    let write := Task.ask (.append file (filterText rules).toUTF8)
    match ← write with
    | .ok () => return some file
    | .error fault =>
      let _ ← Task.ask (.removeFile file)
      throw (.system fault)

/-- Removes a filter file, if there is one. -/
def removeFilter (file : Option String) : Program Unit :=
  match file with
  | none => return ()
  | some file => do
    let _ ← Program.ask (.removeFile file)

/-- Gives the command with the arguments `args`, unless it is only to be shown. -/
def execute (p : TransferPlan) (args : List String) : Task Error TransferReport := do
  let command := p.program :: args
  if p.dryRun = some .shown then
    Task.log (event "dry run, not executing" [("program", p.program)])
    return ⟨command, false⟩
  Task.log (event "running transfer"
    [("program", p.program), ("source", p.source), ("destination", p.destination)])
  match ← Task.check Error.system (← Task.ask (.run p.program args)) with
  | some 0 => return ⟨command, true⟩
  | status => throw (.transferFailed p.program status)

def run (p : TransferPlan) : Task Error TransferReport := do
  let file ← p.writeFilter
  (p.execute (p.arguments file)).finally_ (removeFilter file)

end SelectiveSync.TransferPlan
