import SelectiveSync.Format.Json.Reader
import SelectiveSync.Format.Json.Writer
import SelectiveSync.Format.Name
import SelectiveSync.Format.Toml.Reader
import SelectiveSync.Format.Toml.Writer
import SelectiveSync.Format.Yaml.Reader
import SelectiveSync.Format.Yaml.Writer

/-! # Values in any format

Reading and writing a value in the format that is asked for, in its form for people. -/
namespace SelectiveSync.Format
set_option autoImplicit false

def read : Format → String → Option Value
  | toml => Toml.read
  | json => Json.read
  | yaml => Yaml.read

def write : Format → Value → Option String
  | toml => Toml.pretty
  | json => Json.pretty
  | yaml => Yaml.pretty

/-- What may stand for what in a value that was read. -/
def dialect : Format → Dialect
  | toml => Toml.dialect
  | json => Json.dialect
  | yaml => Yaml.dialect

end SelectiveSync.Format
