import SelectiveSync.Path.Normal
import SelectiveSync.Path.Written
import SelectiveSync.Storage.FileError
import SelectiveSync.System.Program

/-! # Paths of existing and future files

`canonicalize` finds the path without links of a file that may not exist yet: the links of whatever
exists on the way are resolved and the missing names appended. -/
namespace SelectiveSync
set_option autoImplicit false

/-- The search goes on one path above, with the name that leads back down, if there is such a path
and name. -/
def searchAbove (search : String → List String → Task FileError (String × List String))
    (path : String) (missing : List String) : Task FileError (String × List String) :=
  match WrittenPath.parent? path, WrittenPath.fileName? path with
  | some parent, some name => search parent (name :: missing)
  | _, _ => return (path, missing)

/-- The nearest path above that exists, or one that has nothing above it by name, with the names
that lead back down from there. At most `fuel` paths are looked at. -/
def nearestExisting : Nat → String → List String → Task FileError (String × List String)
  | 0, path, missing => return (path, missing)
  | fuel + 1, path, missing => do
    if ← Task.exists_ path then return (path, missing)
    else searchAbove (nearestExisting fuel) path missing

/-- The path read from the working directory. -/
def absolutePath (path : String) : Task FileError String :=
  if WrittenPath.isAbsolute path then pure path
  else do
    let cwd ← Task.check (FileError.system path) (← Task.ask .workingDir)
    return WrittenPath.append cwd path

/-- What exists of the path with its links resolved, and the missing names behind it. -/
def resolvedPath (path : String) : Task FileError String := do
  let absolute ← absolutePath path
  let (existing, missing) ←
    nearestExisting ((WrittenPath.parts absolute).length + 1) absolute []
  let resolved ← Task.check (FileError.system existing) (← Task.ask (.canonical existing))
  return missing.foldl WrittenPath.append resolved

def canonicalize (path : String) : Task FileError String := do
  return (NormalPath.ofText (← resolvedPath path)).text

end SelectiveSync
