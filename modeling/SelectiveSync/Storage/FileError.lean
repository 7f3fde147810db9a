import SelectiveSync.Format.Name
import SelectiveSync.System.Fault

/-! # Errors of stored files

The causes for which a file cannot be read, written or locked, or its text not understood. -/
namespace SelectiveSync
set_option autoImplicit false

inductive FileError where
  | system (path : String) (fault : Fault)
  | unreadable (format : Format) (path : String)
  | unwritable (format : Format) (path : String)
  | unsupported (extension : String)
  | locked (path : String)
  deriving DecidableEq, Repr

namespace FileError

def message : FileError → String
  | system path fault => "I/O error at " ++ path ++ ": " ++ fault.message
  | unreadable format path =>
    "Failed to parse " ++ format.name ++ " config at " ++ path ++ ": unexpected content"
  | unwritable format path => "Failed to serialize " ++ format.name ++ " config for " ++ path
  | unsupported extension => "Unsupported config format: " ++ extension
  | locked path => "Lock acquisition failed for " ++ path

end FileError
end SelectiveSync
