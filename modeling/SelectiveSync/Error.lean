import SelectiveSync.Storage.FileError
import SelectiveSync.Tree.Corruption

/-! # Errors

The causes for which an operation on targets fails, and the message for each. -/
namespace SelectiveSync
set_option autoImplicit false

inductive Error where
  | invalidPath (path : String) (fault : PathFault)
  | targetRoot (path : String)
  | alreadyIncluded (path outer : TreePath)
  | alreadyEvicted (path outer : TreePath)
  | includedBeneath (path : TreePath) (count : Nat) (example_ : String)
  | insideIncluded (path outer : TreePath)
  | notMarked (path : TreePath)
  | unknownTarget (path : String)
  | overlap (root existing : String)
  | corrupt (fault : Corruption)
  | transferFailed (program : String) (status : Option Nat)
  | noConfigDir
  | file (cause : FileError)
  | system (fault : Fault)
  | unreadable
  deriving DecidableEq

namespace Error

/-- How a program ended: with a status, or by a signal. -/
def ending : Option Nat → String
  | some code => "status " ++ toString code
  | none => "a signal"

def message : Error → String
  | invalidPath path fault => fault.complaint path
  | targetRoot path => "Invalid path '" ++ path ++ "': path is the target root itself"
  | alreadyIncluded path outer =>
    "'" ++ path.text ++ "' is already included (by '" ++ outer.text ++ "')"
  | alreadyEvicted path outer =>
    "'" ++ path.text ++ "' is already excluded (by '" ++ outer.text ++ "')"
  | includedBeneath path count example_ =>
    "Cannot exclude '" ++ path.text ++ "': " ++ toString count
      ++ " included path(s) beneath it, such as '" ++ example_ ++ "'. Reset them first"
  | insideIncluded path outer =>
    "Cannot exclude '" ++ path.text ++ "' inside included '" ++ outer.text ++ "'. Reset '"
      ++ outer.text ++ "' first"
  | notMarked path => "'" ++ path.text ++ "' is neither included nor excluded explicitly"
  | unknownTarget path => "Not inside any target: " ++ path
  | overlap root existing => root ++ " overlaps with existing target " ++ existing
  | corrupt fault => "Tree corruption: " ++ fault.message
  | transferFailed program status => program ++ " exited with " ++ ending status
  | noConfigDir => "Cannot determine configuration directory; set OFFSYNC_CONFIG_DIR"
  | file cause => cause.message
  | system fault => fault.message
  | unreadable => "TOML parse error"

/-- What was asked for holds already. -/
def isRedundant : Error → Bool
  | alreadyIncluded .. | alreadyEvicted .. => true
  | _ => false

/-- The stored decisions contradict each other, which no operation brings about. -/
def isFatal : Error → Bool
  | corrupt _ => true
  | _ => false

end Error
end SelectiveSync
