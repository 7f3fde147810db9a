import SelectiveSync.System.FileSystem
import SelectiveSync.System.Program

/-! # Worlds

A world is everything that programs can see and change, as a value: files, locks, what was printed
and logged. `World.answer` answers one call and `World.run` runs a whole program.

What the programs on the search path do is given as a function, so that statements about transfers
hold for all of them. -/
namespace SelectiveSync
set_option autoImplicit false

/-- A lock on the file at a location. -/
structure Lock where
  location : Location
  kind : LockKind
  owner : Nat
  deriving DecidableEq

structure World where
  files : FileSystem
  cwd : Location := []
  environment : List (String × String) := []
  accountHome : Option String := none
  /-- Where programs are looked for. -/
  searchPath : List String := []
  locks : List Lock := []
  out : String := ""
  err : String := ""
  log : List Event := []
  /-- The keys that will be pressed, if there is a terminal. -/
  keys : Option (List Char) := none
  deriving Inhabited

/-- What a program file does, given its location, its name as called and its arguments: how it ends,
and the world after it. -/
abbrev Executables := Location → String → List String → World → Except Fault (Option Nat) × World

namespace World

/-- The locks at a location allow another one. -/
def allows (w : World) (l : Location) : LockKind → Bool
  | .exclusive => w.locks.all fun k => k.location ≠ l
  | .shared => w.locks.all fun k => k.location ≠ l || k.kind = .shared

/-- The locks after the file at one location took the place of the file at another. A lock stays
with its file. -/
def movedLocks (locks : List Lock) (source target : Location) : List Lock :=
  (locks.filter fun k => k.location ≠ target).map fun k =>
    if k.location = source then { k with location := target } else k

/-- Renames a file. -/
def rename (w : World) (source target : String) : Except Fault Unit × World :=
  match w.files.rename w.cwd source target with
  | .error fault => (.error fault, w)
  | .ok files =>
    let locks := match w.files.locate w.cwd false source, w.files.locate w.cwd false target with
      | .ok old, .ok new =>
        if old.location = new.location then w.locks
        else movedLocks w.locks old.location new.location
      | _, _ => w.locks
    (.ok (), { w with files, locks })

/-- The world with its files changed, or as it was if they cannot be. -/
def change (w : World) : Except Fault FileSystem → Except Fault Unit × World
  | .ok files => (.ok (), { w with files })
  | .error fault => (.error fault, w)

/-- The file that a path leads to, if it may be run. -/
def runnable (w : World) (path : String) : Except Fault (Location × String) :=
  match w.files.entry w.cwd path with
  | .ok (l, .file _ true) => .ok (l, path)
  | .ok _ => .error .denied
  | .error fault => .error fault

/-- The first of some paths that leads to a file that may be run. The search goes on after a path
that leads to no file, or to none that may be run, and fails in the end for the latter if it met one.
Here `fault` is why it would fail so far. -/
def firstRunnable (w : World) (fault : Fault) : List String → Except Fault (Location × String)
  | [] => .error fault
  | path :: paths =>
    match w.runnable path with
    | .ok found => .ok found
    | .error other =>
      if other ∈ [.noEntry, .notDirectory, .denied] then
        w.firstRunnable (if fault = .denied then fault else other) paths
      else .error other

/-- The program file that a name means: the name itself if it holds a slash, and otherwise the first
of that name on the search path, where an empty place means the working directory. -/
def executable (w : World) (program : String) : Except Fault (Location × String) :=
  if '\x00' ∈ program.toList then .error .nulInArgument
  else if program = "" then .error .noEntry
  else if '/' ∈ program.toList then w.runnable program
  else w.firstRunnable .noEntry <|
    w.searchPath.map fun dir => if dir = "" then program else dir ++ "/" ++ program

/-- The first path for a file of directives that is still free. -/
def filterPath (w : World) : String :=
  let path (n : Nat) : String :=
    let digits := toString n
    "/tmp/offsync-" ++ "".pushn '0' (6 - digits.length) ++ digits ++ ".filter"
  let free := (List.range (w.files.entries.length + 1)).find? fun n =>
    (w.files.makeFile w.cwd (path n)).isOk
  path (free.getD 0)

/-- The answer to a call of process `self`, and the world after it. -/
def answer (programs : Executables) (self : Nat) (c : Call) (w : World) : c.Reply × World :=
  match c with
  | .kind path =>
    match w.files.entry w.cwd path with
    | .ok (_, .directory) => (some .directory, w)
    | .ok _ => (some .file, w)
    | .error _ => (none, w)
  | .workingDir => (.ok w.cwd.text, w)
  | .canonical path => (w.files.canonical w.cwd path, w)
  | .makeDir path => w.change (w.files.makeDir w.cwd path)
  | .read path => (w.files.read w.cwd path, w)
  | .touch path => w.change ((w.files.openWith w.cwd id path).map (·.2))
  | .create path => w.change ((w.files.openWith w.cwd (fun _ => .empty) path).map (·.2))
  | .append path bytes => w.change ((w.files.openWith w.cwd (· ++ bytes) path).map (·.2))
  | .sync _ => (.ok (), w)
  | .rename source target => w.rename source target
  | .removeFile path => w.change (w.files.removeFile w.cwd path)
  | .removeTree path => w.change (w.files.removeTree w.cwd path)
  | .lock path kind =>
    match w.files.entry w.cwd path with
    | .ok (l, _) =>
      if w.allows l kind then (true, { w with locks := ⟨l, kind, self⟩ :: w.locks }) else (false, w)
    | .error _ => (false, w)
  | .unlock path kind =>
    match w.files.entry w.cwd path with
    | .ok (l, _) => ((), { w with locks := w.locks.erase ⟨l, kind, self⟩ })
    | .error _ => ((), w)
  | .newFilter =>
    match w.files.makeFile w.cwd w.filterPath with
    | .ok files => (.ok w.filterPath, { w with files })
    | .error fault => (.error fault, w)
  | .processId => (self, w)
  | .variable_ name => (w.environment.lookup name, w)
  | .accountHome => (w.accountHome, w)
  | .run program args =>
    if args.any fun a => '\x00' ∈ a.toList then (.error .nulInArgument, w)
    else match w.executable program with
      | .error fault => (.error fault, w)
      | .ok (l, path) => programs l path args w
  | .print s => ((), { w with out := w.out ++ s })
  | .warn s => ((), { w with err := w.err ++ s })
  | .log e => ((), { w with log := w.log ++ [e] })
  | .key =>
    match w.keys with
    | none => (.error .notTerminal, w)
    | some [] => (.error .missing, w)
    | some (k :: rest) => (.ok k, { w with keys := some rest })

/-- Runs a program of process `self` to its end. -/
def run {α : Type} (programs : Executables) (self : Nat) : Program α → World → α × World
  | .done a, w => (a, w)
  | .call c next, w =>
    let (r, w) := w.answer programs self c
    run programs self (next r) w

end World
end SelectiveSync
