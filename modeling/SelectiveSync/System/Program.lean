import SelectiveSync.System.Fault

/-! # Programs

What a program asks of the system, one call after the other. A `Program` says which call comes next
and how it goes on with the reply; who answers the calls is left open, so that the same program runs
in a world given as a value and on a machine. -/
namespace SelectiveSync
set_option autoImplicit false

/-! ## Log -/

inductive Level where
  | trace
  | debug
  | info
  | warn
  | error
  deriving DecidableEq, Repr

/-- Something worth a line in the log: from which part of the program, with what values. -/
structure Event where
  level : Level
  part : String
  message : String
  fields : List (String × String)
  deriving DecidableEq, Repr

/-! ## Calls -/

/-- What a path leads to. -/
inductive Kind where
  | file
  | directory
  deriving DecidableEq, Repr

/-- Many may share a lock, but nobody holds an exclusive one beside another. -/
inductive LockKind where
  | shared
  | exclusive
  deriving DecidableEq, Repr

/-- A request to the system. `print` and `warn` have no failure for an answer. On a machine a program
that writes to a closed output ends there, with status 101 and with all that it wrote before, the
registry included; this is left out. -/
inductive Call where
  | kind (path : String)
  | workingDir
  | canonical (path : String)
  | makeDir (path : String)
  | read (path : String)
  /-- Opens a file for writing, made if it is missing, and leaves what is in it. -/
  | touch (path : String)
  /-- Opens a file for writing, made if it is missing, and empties it. -/
  | create (path : String)
  /-- Writes to the end of an open file. -/
  | append (path : String) (bytes : ByteArray)
  /-- Waits until what was written is safe. -/
  | sync (path : String)
  | rename (source target : String)
  | removeFile (path : String)
  | removeTree (path : String)
  /-- Takes a lock on a file that was touched, unless others hold it for too long. -/
  | lock (path : String) (kind : LockKind)
  | unlock (path : String) (kind : LockKind)
  /-- Makes a file with a name of its own for directives. -/
  | newFilter
  | processId
  | variable_ (name : String)
  /-- The home directory of the account that the process runs for. -/
  | accountHome
  /-- Runs a program to its end: its status, or none if a signal ended it. -/
  | run (program : String) (args : List String)
  | print (text : String)
  | warn (text : String)
  | log (event : Event)
  /-- The next key pressed, if there is a terminal. -/
  | key

/-- What the system answers. -/
abbrev Call.Reply : Call → Type
  | kind _ => Option Kind
  | workingDir => Except Fault String
  | canonical _ => Except Fault String
  | makeDir _ => Except Fault Unit
  | read _ => Except Fault ByteArray
  | touch _ => Except Fault Unit
  | create _ => Except Fault Unit
  | append .. => Except Fault Unit
  | sync _ => Except Fault Unit
  | rename .. => Except Fault Unit
  | removeFile _ => Except Fault Unit
  | removeTree _ => Except Fault Unit
  | lock .. => Bool
  | unlock .. => Unit
  | newFilter => Except Fault String
  | processId => Nat
  | variable_ _ => Option String
  | accountHome => Option String
  | run .. => Except Fault (Option Nat)
  | print _ => Unit
  | warn _ => Unit
  | log _ => Unit
  | key => Except Fault Char

/-! ## Programs -/

inductive Program (α : Type) where
  | done (a : α)
  | call (c : Call) (next : c.Reply → Program α)

namespace Program

def bind {α β : Type} (p : Program α) (f : α → Program β) : Program β :=
  match p with
  | done a => f a
  | call c next => call c fun r => (next r).bind f

instance : Monad Program where
  pure := done
  bind := bind

/-- One call by itself. -/
def ask (c : Call) : Program c.Reply :=
  call c done

theorem bind_done {α : Type} (p : Program α) : p.bind done = p := by
  induction p with
  | done a => rfl
  | call c next ih =>
    simp only [bind]
    congr 1
    funext r
    exact ih r

end Program

/-- A program that may fail for reasons of type `ε`. -/
abbrev Task (ε α : Type) := ExceptT ε Program α

namespace Task

variable {ε α : Type}

/-- One call that always has an answer. -/
def ask (c : Call) : Task ε c.Reply :=
  ExceptT.lift (Program.ask c)

/-- The result of a call or function, where a failure means what `f` says. -/
def check {δ : Type} (f : δ → ε) (r : Except δ α) : Task ε α :=
  ExceptT.mk (pure (r.mapError f))

/-- A task whose failures mean what `f` says. -/
def mapError {δ : Type} (f : δ → ε) (t : Task δ α) : Task ε α :=
  ExceptT.mk do return (← t.run).mapError f

/-- A task followed by one that is done in any case. -/
def finally_ (t : Task ε α) (after : Program Unit) : Task ε α :=
  ExceptT.mk do
    let r ← t.run
    after
    return r

def print (s : String) : Task ε Unit := ask (.print s)
def warn (s : String) : Task ε Unit := ask (.warn s)
def log (e : Event) : Task ε Unit := ask (.log e)

/-- Whatever the path leads to exists. -/
def exists_ (path : String) : Task ε Bool := do
  return (← ask (.kind path)).isSome

def isDir (path : String) : Task ε Bool := do
  return (← ask (.kind path)) = some .directory

end Task
end SelectiveSync
