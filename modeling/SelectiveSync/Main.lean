import SelectiveSync.Cli.Run

/-! # The program on a machine

Answers the calls of a program with the files, variables and streams of the machine that it runs on.
Everything that is decided is decided by `Cli.run`.

No programs are started from here: a call to run one is answered as one to a program that may not be
run. -/
namespace SelectiveSync.Machine
set_option autoImplicit false

/-! ## Failures -/

/-- The number of the system's failure, if it has one. -/
def numberOf? : IO.Error → Option Nat
  | .noFileOrDirectory _ n _ | .interrupted _ n _ => some n.toNat
  | .alreadyExists _ n _ | .invalidArgument _ n _ | .permissionDenied _ n _
  | .resourceExhausted _ n _ | .inappropriateType _ n _ | .noSuchThing _ n _ => some n.toNat
  | .resourceBusy n _ | .otherError n _ | .resourceVanished n _ | .unsupportedOperation n _
  | .hardwareFault n _ | .unsatisfiedConstraints n _ | .illegalOperation n _ | .protocolError n _
  | .timeExpired n _ => some n.toNat
  | .unexpectedEof | .userError _ => none

def faultOfNumber : Nat → Fault
  | 2 => .noEntry
  | 8 => .notExecutable
  | 17 => .exists_
  | 20 => .notDirectory
  | 21 => .isDirectory
  | 22 => .invalidArgument
  | 27 => .tooLarge
  | 28 => .noSpace
  | 36 => .nameTooLong
  | 39 => .notEmpty
  | 40 => .linkLoop
  | _ => .denied

/-- The result of an action, where a failure is told by its cause. -/
def attempt {α : Type} (action : IO α) : IO (Except Fault α) := do
  try return .ok (← action)
  catch e => return .error (((numberOf? e).map faultOfNumber).getD .denied)

/-! ## Locks -/

/-- The locks that are held, each on a file that was opened for it. -/
abbrev Held := IO.Ref (List (String × LockKind × IO.FS.Handle))

/-- How often a lock is asked for, with a pause after each refusal. -/
def lockAttempts : Nat := 100

def pauseMilliseconds : UInt32 := 50

def waitForLock (file : IO.FS.Handle) (kind : LockKind) : Nat → IO Bool
  | 0 => return false
  | n + 1 => do
    if ← file.tryLock (kind == .exclusive) then return true
    IO.sleep pauseMilliseconds
    waitForLock file kind n

def lock (held : Held) (path : String) (kind : LockKind) : IO Bool := do
  let file ← IO.FS.Handle.mk path .readWrite
  let taken ← waitForLock file kind lockAttempts
  if taken then held.modify ((path, kind, file) :: ·)
  return taken

def unlock (held : Held) (path : String) (kind : LockKind) : IO Unit := do
  let (released, kept) := (← held.get).partition fun l => l.1 = path ∧ l.2.1 = kind
  released.forM fun l => l.2.2.unlock
  held.set kept

/-! ## Names -/

/-- A name that nobody else is likely to choose at the same time. -/
def filterPath : IO String := do
  let letters := (← IO.getRandomBytes 6).toList.map fun b => Nat.digitChar (b.toNat % 16)
  return "/tmp/offsync-" ++ String.ofList letters ++ ".filter"

/-! ## Calls -/

def answer (held : Held) : (c : Call) → IO c.Reply
  | .kind path => do
    try
      if ← (← IO.FS.realPath path).isDir then return some Kind.directory
      return some Kind.file
    catch _ => return none
  | .workingDir => attempt do return (← IO.currentDir).toString
  | .canonical path => attempt do return (← IO.FS.realPath path).toString
  | .makeDir path => attempt (IO.FS.createDir path)
  | .read path => attempt (IO.FS.readBinFile path)
  | .touch path => attempt do let _ ← IO.FS.Handle.mk path .append
  | .create path => attempt do let _ ← IO.FS.Handle.mk path .write
  | .append path bytes => attempt do
    let file ← IO.FS.Handle.mk path .append
    file.write bytes
    file.flush
  | .sync _ => return .ok ()
  | .rename source target => attempt (IO.FS.rename source target)
  | .removeFile path => attempt (IO.FS.removeFile path)
  | .removeTree path => attempt (IO.FS.removeDirAll path)
  | .lock path kind => do
    try lock held path kind
    catch _ => return false
  | .unlock path kind => do
    try unlock held path kind
    catch _ => return ()
  | .newFilter => attempt do
    let path ← filterPath
    let _ ← IO.FS.Handle.mk path .writeNew
    return path
  | .processId => IO.monoNanosNow
  | .variable_ name => IO.getEnv name
  | .accountHome => return none
  | .run .. => return .error .denied
  | .print text => do
    (← IO.getStdout).putStr text
    (← IO.getStdout).flush
  | .warn text => IO.eprint text
  | .log event => IO.eprintln event.line
  | .key => do
    let input ← IO.getStdin
    unless ← input.isTty do return .error .notTerminal
    match (← input.read 1).toList with
    | [b] => return .ok (Char.ofNat b.toNat)
    | _ => return .error .missing

def runProgram {α : Type} (held : Held) : Program α → IO α
  | .done a => return a
  | .call c next => do runProgram held (next (← answer held c))

end SelectiveSync.Machine

def main (args : List String) : IO UInt32 := do
  let held ← IO.mkRef []
  return UInt32.ofNat (← SelectiveSync.Machine.runProgram held (SelectiveSync.Cli.run args))
