/-! # Names in the configuration directory

The files of the configuration directory, its own name, and the variable that overrides it. -/
namespace SelectiveSync
set_option autoImplicit false

inductive ConfigFile where
  | settings
  | targets
  deriving DecidableEq, Repr

namespace ConfigFile

def name : ConfigFile → String
  | settings => "config.toml"
  | targets => "targets.toml"

/-- The names under which the file is looked for, the first found being taken. -/
def alternatives : ConfigFile → List String
  | settings => ["config.toml", "config.yaml", "config.yml", "config.json"]
  | targets => ["targets.toml"]

end ConfigFile

/-- The directory's name inside the directory of all configurations. -/
def configDirName : String := "offsync"

/-- The variable that names another directory. -/
def configDirVariable : String := "OFFSYNC_CONFIG_DIR"

end SelectiveSync
