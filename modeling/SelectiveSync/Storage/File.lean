import SelectiveSync.Path.Normal
import SelectiveSync.Path.Written
import SelectiveSync.Storage.FileError
import SelectiveSync.System.Program

/-! # Files that several processes share

Whoever reads or writes a file holds a lock on another file beside it, so that the file itself can
be replaced as a whole while the lock is held.

* `readLocked` and `writeAtomic` take the lock for one reading or writing.
* `LockedFile` is a file whose lock is held exclusively until it is released, for reading and then
  writing it.
* `makeDirs` makes a directory with all that are missing above it.

New content is always saved before it takes the file's place: a setting of the program that leaves
this out is not offered here. How long a lock is waited for is left to the system, which answers if
it was granted. -/
namespace SelectiveSync
set_option autoImplicit false

/-- A task on files. -/
abbrev FileTask := Task FileError

/-- What was asked for is there, if now made or not. -/
def settleDir (path : String) : Except Fault Unit → Task Fault Unit
  | .ok () => pure ()
  | .error fault => do unless ← Task.isDir path do throw fault

/-- A directory whose place is missing, made once `above` has made the place. -/
def makeDirBelow (above : String → Task Fault Unit) (path : String) : Task Fault Unit :=
  match WrittenPath.parent? path with
  | none => throw .noEntry
  | some parent => do
    above parent
    settleDir path (← Task.ask (.makeDir path))

def makeDirWith (above : String → Task Fault Unit) (path : String) : Task Fault Unit :=
  if path = "" then pure ()
  else do
    match ← Task.ask (.makeDir path) with
    | .error .noEntry => makeDirBelow above path
    | r => settleDir path r

/-- A directory with all missing ones above it, of which there are fewer than `fuel`. -/
def makeDirsFrom : Nat → String → Task Fault Unit
  | 0 => makeDirWith fun _ => throw .noEntry
  | fuel + 1 => makeDirWith (makeDirsFrom fuel)

def makeDirs (path : String) : Task Fault Unit :=
  makeDirsFrom (WrittenPath.parts path).length path

namespace Storage

/-! ## Names beside a file -/

def lockPath (path : String) : String :=
  WrittenPath.withFileName path ((WrittenPath.fileName? path).getD "" ++ ".lock")

/-- Where a process writes the new content of a file. -/
def newPath (path : String) (process : Nat) : String :=
  WrittenPath.withFileName path
    ("." ++ (WrittenPath.fileName? path).getD "" ++ "." ++ toString process ++ ".tmp")

def makeParent (path : String) : FileTask Unit :=
  match WrittenPath.parent? path with
  | some parent =>
    if parent = "" then pure () else (makeDirs parent).mapError (FileError.system parent)
  | none => pure ()

/-! ## Events -/

def event (level : Level) (message : String) (fields : List (String × String)) : Event :=
  ⟨level, "offsync_fs::io", message, fields⟩

def lockName : LockKind → String
  | .shared => "Shared"
  | .exclusive => "Exclusive"

/-! ## Locks -/

def acquire (path : String) (kind : LockKind) : FileTask Unit := do
  Task.check (FileError.system (lockPath path)) (← Task.ask (.touch (lockPath path)))
  unless ← Task.ask (.lock (lockPath path) kind) do
    Task.log (event .warn "lock acquisition timed out" [("path", path), ("kind", lockName kind)])
    throw (.locked path)

def release (path : String) (kind : LockKind) : Program Unit :=
  Program.ask (.unlock (lockPath path) kind)

/-- A task done while a lock is held. -/
def withLock {α : Type} (path : String) (kind : LockKind) (task : FileTask α) : FileTask α := do
  acquire path kind
  task.finally_ (release path kind)

/-! ## Content -/

def textOf (path : String) (bytes : ByteArray) : Except FileError String :=
  match String.fromUTF8? bytes with
  | some s => .ok s
  | none => .error (.system path .notText)

def read (path : String) : FileTask String := do
  let bytes ← Task.check (FileError.system path) (← Task.ask (.read path))
  Task.check id (textOf path bytes)

/-- Replaces the content of a file as a whole: the new content is written under another name, which
then becomes the file's. Whoever calls this holds the lock. -/
def replace (path : String) (content : ByteArray) : FileTask Unit := do
  let new := newPath path (← Task.ask .processId)
  Task.check (FileError.system new) (← Task.ask (.create new))
  Task.check (FileError.system new) (← Task.ask (.append new content))
  Task.check (FileError.system new) (← Task.ask (.sync new))
  match ← Task.ask (.rename new path) with
  | .ok () => pure ()
  | .error fault =>
    let _ ← Task.ask (.removeFile new)
    throw (.system path fault)

/-! ## Whole files -/

def writeAtomic (path : NormalPath) (content : ByteArray) : FileTask Unit := do
  makeParent path.text
  withLock path.text .exclusive (replace path.text content)
  Task.log (event .debug "wrote file atomically"
    [("path", path.text), ("bytes", toString content.size)])

def writeText (path : NormalPath) (content : String) : FileTask Unit :=
  writeAtomic path content.toUTF8

def readLocked (path : NormalPath) : FileTask String := do
  unless ← Task.exists_ path.text do throw (.system path.text .missing)
  withLock path.text .shared (read path.text)

/-- The text of a file, whoever holds its lock. -/
def readText (path : NormalPath) : FileTask String :=
  read path.text

end Storage

/-- A file whose exclusive lock is held. -/
structure LockedFile where
  path : String
  deriving DecidableEq, Repr

namespace LockedFile

def acquire (path : NormalPath) : FileTask LockedFile := do
  Storage.makeParent path.text
  Storage.acquire path.text .exclusive
  Task.log (Storage.event .trace "holding exclusive lock" [("path", path.text)])
  return ⟨path.text⟩

/-- The content of the file, if there is a file yet. -/
def read (f : LockedFile) : FileTask (Option String) := do
  if ← Task.exists_ f.path then return some (← Storage.read f.path) else return none

def write (f : LockedFile) (content : ByteArray) : FileTask Unit := do
  Storage.replace f.path content
  Task.log (Storage.event .debug "wrote locked file"
    [("path", f.path), ("bytes", toString content.size)])

def release (f : LockedFile) : Program Unit :=
  Storage.release f.path .exclusive

end LockedFile
end SelectiveSync
