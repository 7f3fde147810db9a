import SelectiveSync.Cli.Failure
import SelectiveSync.Config.Dir
import SelectiveSync.Path.Canonical
import SelectiveSync.Registry.Edit

/-! # Sessions

What all commands of one run share: the configuration directory, and how much they tell. Paths that
the user gives are resolved before anything is done with them. -/
namespace SelectiveSync.Cli
set_option autoImplicit false

structure Session where
  config : ConfigDir
  verbosity : Nat
  deriving DecidableEq, Repr

/-- The path without links of a file that may not exist yet. -/
def resolve (path : String) : CommandTask String :=
  (canonicalize path).mapError fun cause => .operation (.file cause)

namespace Session

def registry (s : Session) : CommandTask Registry :=
  ofTask s.config.loadRegistry

/-- Makes an edit of the stored registry: what it was about. -/
def edit (s : Session) (e : Edit) : CommandTask String :=
  s.config.updateRegistry Failure.operation fun r => ofTask (e.perform r)

end Session

/-! ## Messages -/

/-- Tells of something done. -/
def tellDone (message : String) : CommandTask Unit :=
  Task.print ("OK " ++ message ++ "\n")

/-- Tells of something begun. -/
def tellNext (message : String) : CommandTask Unit :=
  Task.print ("=> " ++ message ++ "\n")

/-- The first of the keys pressed that is an answer. Whoever presses only Enter does not agree. -/
def agreed : Nat → CommandTask Bool
  | 0 => throw (.prompt .missing)
  | fuel + 1 => do
    match ← Task.ask .key with
    | .error fault => throw (.prompt fault)
    | .ok key =>
      if key = 'y' ∨ key = 'Y' then return true
      else if key = 'n' ∨ key = 'N' ∨ key = '\r' ∨ key = '\n' then return false
      else agreed fuel

/-- The most keys that are looked at before a question counts as unanswered. -/
def keyLimit : Nat := 100000

/-- Asks before a step that cannot be undone. -/
def confirm (question step : String) : CommandTask Unit := do
  let yes ← agreed keyLimit
  Task.warn ("! " ++ question ++ (if yes then " yes" else " no") ++ "\n")
  unless yes do throw (.cancelled step)

end SelectiveSync.Cli
