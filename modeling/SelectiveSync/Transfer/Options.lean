import SelectiveSync.Tree.Path

/-! # Choices for one transfer

Which way a transfer goes, whether it is only tried out, and what else was asked for. -/
namespace SelectiveSync
set_option autoImplicit false

/-- A push makes the source like the local root, a revert the local root like the source, and a
summon fetches one path without touching what is there. -/
inductive Direction where
  | push
  | revert
  | summon (path : TreePath)
  deriving DecidableEq

/-- How a transfer is tried out: by showing its command or by the program itself. -/
inductive DryRun where
  | shown
  | tool
  deriving DecidableEq, Repr

namespace DryRun

def text : DryRun → String
  | shown => "local"
  | tool => "tool"

def default : DryRun := shown

/-- The message on a text that names no way to try out a transfer. -/
def complaint (s : String) : String :=
  "unknown dry-run mode '" ++ s ++ "', expected 'local' or 'tool'"

def parse (s : String) : Except String DryRun :=
  if s = "local" then .ok shown
  else if s = "tool" ∨ s = "rsync" then .ok tool
  else .error (complaint s)

end DryRun

structure TransferOptions where
  verbosity : Nat := 0
  dryRun : Option DryRun := none
  extra : List String := []
  deriving DecidableEq, Repr

end SelectiveSync
