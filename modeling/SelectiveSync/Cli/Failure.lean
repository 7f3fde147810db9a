import SelectiveSync.Error
import SelectiveSync.System.Program

/-! # Failures of commands

Why a command fails, what is printed about it and the status that it ends with. -/
namespace SelectiveSync.Cli
set_option autoImplicit false

inductive Failure where
  | operation (cause : Error)
  | prompt (fault : Fault)
  /-- The user did not agree. -/
  | cancelled (step : String)
  | nothingSelected
  | nothingNamed
  /-- Paths that are no target's root. -/
  | unmatched (paths : List String)
  deriving DecidableEq

/-- A task that commands are made of. -/
abbrev CommandTask := Task Failure

namespace Failure

def message : Failure → String
  | operation cause => cause.message
  | prompt fault => "Interactive prompt error: IO error: " ++ fault.message
  | cancelled step => step ++ " cancelled by user."
  | nothingSelected => "no targets selected"
  | nothingNamed => "no target selected (did you mean --all?)"
  | unmatched paths =>
    "no matching target for paths:\n" ++ "\n".intercalate (paths.map ("  " ++ ·))

/-- The stored decisions contradict each other. -/
def isFatal : Failure → Bool
  | operation cause => cause.isFatal
  | _ => false

def report (f : Failure) : String :=
  if f.isFatal then
    "fatal: " ++ f.message ++ "\nThe stored targets are inconsistent; please report this.\n"
  else "error: " ++ f.message ++ "\n"

def status (f : Failure) : Nat :=
  if f.isFatal then 2 else 1

end Failure

/-- A task on targets as part of a command. -/
def ofTask {α : Type} (t : Task Error α) : CommandTask α :=
  t.mapError Failure.operation

/-- A call to the system as part of a command. -/
def ofFault {α : Type} (t : Task Fault α) : CommandTask α :=
  t.mapError fun fault => .operation (.system fault)

end SelectiveSync.Cli
