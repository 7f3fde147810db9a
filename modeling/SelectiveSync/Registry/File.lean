import SelectiveSync.Registry.Stored
import SelectiveSync.Storage.File

/-! # The registry's file

A registry is stored in a file of its own, and all processes that use it go through the file's lock.

* `load` reads the registry and `save` writes it.
* `update` reads, changes and writes it under one lock, and writes nothing if the change fails. -/
namespace SelectiveSync.Registry
set_option autoImplicit false

def event (level : Level) (message : String) (fields : List (String × String)) : Event :=
  ⟨level, "offsync_core::registry", message, fields⟩

def load (path : String) : Task Error Registry := do
  let content ← (Storage.readLocked (NormalPath.ofText path)).mapError Error.file
  let r ← Task.check id (ofToml content)
  Task.log (event .debug "loaded registry"
    [("path", path), ("targets", toString r.targets.length)])
  return r

/-- The registry of a file, or an empty one if there is no file yet. -/
def loadOrDefault (path : String) : Task Error Registry := do
  if ← Task.exists_ path then load path
  else
    Task.log (event .debug "no registry yet" [("path", path)])
    return {}

/-- Warns of each target whose root is a directory while its source is not one. -/
def warnOfSources (r : Registry) : Program Unit :=
  r.targets.forM fun t => do
    let kind ← Program.ask (.kind t.root)
    if kind = some .directory && !t.hasDirectorySource then
      Program.ask (.log (event .warn "directory target uses a non-directory source"
        [("root", t.root), ("source", t.source)]))

def save (r : Registry) (path : String) : Task Error Unit := do
  r.warnOfSources
  (Storage.writeAtomic (NormalPath.ofText path) r.toToml.toUTF8).mapError Error.file

/-- Reads the registry of a file whose lock is held, changes it and writes it back. -/
def updateLocked {ε α : Type} (lift : Error → ε) (path : String) (f : LockedFile)
    (change : Registry → Task ε (α × Registry)) : Task ε α := do
  let content ← (f.read).mapError (lift ∘ Error.file)
  let r ← match content with
    | some content => Task.check lift (ofToml content)
    | none => pure {}
  let (a, r) ← change r
  r.warnOfSources
  (f.write r.toToml.toUTF8).mapError (lift ∘ Error.file)
  Task.log (event .debug "updated registry" [("path", path)])
  return a

/-- Changes the registry of a file while no other process uses it. -/
def update {ε α : Type} (lift : Error → ε) (path : String)
    (change : Registry → Task ε (α × Registry)) : Task ε α := do
  let f ← (LockedFile.acquire (NormalPath.ofText path)).mapError (lift ∘ Error.file)
  (updateLocked lift path f change).finally_ f.release

end SelectiveSync.Registry
