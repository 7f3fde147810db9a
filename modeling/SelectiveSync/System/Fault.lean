/-! # Failures of the operating system

The causes for which a call to the system fails, with the number and the text of each. -/
namespace SelectiveSync
set_option autoImplicit false

inductive Fault where
  | noEntry
  | notExecutable
  | denied
  | exists_
  | notDirectory
  | isDirectory
  | invalidArgument
  | tooLarge
  | noSpace
  | nameTooLong
  | notEmpty
  | linkLoop
  | missing
  | notText
  | nulInName
  | nulInArgument
  | notTerminal
  deriving DecidableEq, Repr

namespace Fault

/-- The text of a failure that has a number. -/
def numbered (text : String) (number : Nat) : String :=
  text ++ " (os error " ++ toString number ++ ")"

def message : Fault → String
  | noEntry => numbered "No such file or directory" 2
  | notExecutable => numbered "Exec format error" 8
  | denied => numbered "Permission denied" 13
  | exists_ => numbered "File exists" 17
  | notDirectory => numbered "Not a directory" 20
  | isDirectory => numbered "Is a directory" 21
  | invalidArgument => numbered "Invalid argument" 22
  | tooLarge => numbered "File too large" 27
  | noSpace => numbered "No space left on device" 28
  | nameTooLong => numbered "File name too long" 36
  | notEmpty => numbered "Directory not empty" 39
  | linkLoop => numbered "Too many levels of symbolic links" 40
  | missing => "entity not found"
  | notText => "stream did not contain valid UTF-8"
  | nulInName => "file name contained an unexpected NUL byte"
  | nulInArgument => "nul byte found in provided data"
  | notTerminal => "not a terminal"

end Fault
end SelectiveSync
