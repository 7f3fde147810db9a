import SelectiveSync.Format.Decode

/-! # Settings

Which program transfers files and which options it is always given. -/
namespace SelectiveSync
set_option autoImplicit false

structure Settings where
  program : String := "rsync"
  /-- The options that every command starts with. -/
  baseOptions : List String := ["-raHEAXS", "--protect-args"]
  /-- The options after these. -/
  options : List String := []
  deriving DecidableEq, Repr, Inhabited

namespace Settings

def sectionOfValue? (d : Dialect) (v : Value) : Option Settings := do
  let fields ← v.record? d ["program", "base_options", "options"]
  let standard : Settings := {}
  return {
    program := ← fieldOr? fields "program" standard.program Value.text?
    baseOptions := ← fieldOr? fields "base_options" standard.baseOptions
      (Value.listOf? Value.text?)
    options := ← fieldOr? fields "options" standard.options (Value.listOf? Value.text?) }

/-- Settings are stored in a section of their own. What is missing has its standard value. -/
def ofValue? (d : Dialect) (v : Value) : Option Settings := do
  let fields ← v.record? d ["transfer"]
  fieldOr? fields "transfer" {} (sectionOfValue? d)

def toValue (s : Settings) : Value :=
  .record [("transfer", .record [
    ("program", .text s.program),
    ("base_options", Value.texts s.baseOptions),
    ("options", Value.texts s.options)])]

end Settings
end SelectiveSync
