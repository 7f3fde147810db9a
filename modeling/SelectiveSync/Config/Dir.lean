import SelectiveSync.Config.Names
import SelectiveSync.Config.Settings
import SelectiveSync.Registry.File
import SelectiveSync.Storage.Value

/-! # The configuration directory

Where the settings and the registry are stored.

* `ConfigDir.resolve` finds the directory: the one asked for, the one that a variable names, or the
  one below the user's configurations.
* `loadSettings`, `loadRegistry`, `saveRegistry` and `updateRegistry` use the files in it. -/
namespace SelectiveSync
set_option autoImplicit false

structure ConfigDir where
  path : String
  deriving DecidableEq, Repr

namespace ConfigDir

def event (message path : String) : Event :=
  ⟨.debug, "offsync_core::settings", message, [("path", path)]⟩

/-- The user's home directory: what a variable says, or else the account. -/
def home : Task Error (Option String) := do
  match ← Task.ask (.variable_ "HOME") with
  | some h => if h = "" then Task.ask .accountHome else return some h
  | none => Task.ask .accountHome

/-- The directory of all the user's configurations. -/
def userConfigs : Task Error (Option String) := do
  match ← Task.ask (.variable_ "XDG_CONFIG_HOME") with
  | some dir => if WrittenPath.isAbsolute dir then return some dir
  | none => pure ()
  return (← home).map fun h => WrittenPath.append h ".config"

def resolve (explicit : Option String) : Task Error ConfigDir := do
  let wanted ← match explicit with
    | some dir => pure (some dir)
    | none => Task.ask (.variable_ configDirVariable)
  let path ← match wanted.filter (· ≠ "") with
    | some dir => pure dir
    | none =>
      match ← userConfigs with
      | some dir => pure (WrittenPath.append dir configDirName)
      | none => throw .noConfigDir
  Task.log (event "using configuration directory" path)
  return ⟨path⟩

def targetsFile (d : ConfigDir) : String :=
  WrittenPath.append d.path ConfigFile.targets.name

/-- The first of some paths that leads to a file. -/
def firstFile {ε : Type} : List String → Task ε (Option String)
  | [] => return none
  | path :: rest => do
    if (← Task.ask (.kind path)) = some .file then return some path else firstFile rest

/-- The settings file, if there is one. -/
def settingsFile {ε : Type} (d : ConfigDir) : Task ε (Option String) :=
  firstFile (ConfigFile.settings.alternatives.map (WrittenPath.append d.path))

def loadSettings (d : ConfigDir) : Task Error Settings := do
  match ← d.settingsFile with
  | none => return {}
  | some file =>
    let settings ← (Storage.load Settings.ofValue? (NormalPath.ofText file)).mapError Error.file
    Task.log (event "loaded settings" file)
    return settings

def loadRegistry (d : ConfigDir) : Task Error Registry :=
  Registry.loadOrDefault d.targetsFile

def saveRegistry (d : ConfigDir) (r : Registry) : Task Error Unit :=
  r.save d.targetsFile

def updateRegistry {ε α : Type} (lift : Error → ε) (d : ConfigDir)
    (change : Registry → Task ε (α × Registry)) : Task ε α :=
  Registry.update lift d.targetsFile change

end ConfigDir
end SelectiveSync
