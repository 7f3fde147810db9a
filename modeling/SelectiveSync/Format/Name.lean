/-! # The stored formats

Files tell their format by the extension of their names. -/
namespace SelectiveSync
set_option autoImplicit false

inductive Format where
  | toml
  | json
  | yaml
  deriving DecidableEq, Repr

namespace Format

def name : Format → String
  | toml => "TOML"
  | json => "JSON"
  | yaml => "YAML"

/-- The format that an extension stands for, whether in small or capital letters. -/
def ofExtension? (extension : String) : Option Format :=
  let e := extension.toLower
  if e = "toml" then some toml
  else if e = "json" then some json
  else if e = "yaml" ∨ e = "yml" then some yaml
  else none

end Format
end SelectiveSync
