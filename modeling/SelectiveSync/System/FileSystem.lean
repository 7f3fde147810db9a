import SelectiveSync.System.Fault
import SelectiveSync.Text.Split

/-! # File systems

A file system gives an entry to each of finitely many locations: a directory, a file or a symbolic
link. The root is always a directory.

* `walk` follows a path name by name, through links and `..`, to an entry or to the place where one
  could be made.
* The other functions do what system calls of their names do, and fail for the same reasons. -/
namespace SelectiveSync
set_option autoImplicit false

/-- The names that lead from the root to an entry. -/
abbrev Location := List String

namespace Location

/-- The absolute path of a location. -/
def text (l : Location) : String :=
  "/" ++ Text.joined '/' l

end Location

inductive Entry where
  | directory
  | file (bytes : ByteArray) (executable : Bool)
  | link (target : String)
  deriving Inhabited

/-- Where a path leads: to an entry, or to a name that a directory does not hold. -/
inductive Place where
  | found (at_ : Location) (entry : Entry)
  | vacant (parent : Location) (name : String)

namespace Place

/-- The location of the entry, or the one that it would have. -/
def location : Place → Location
  | found l _ => l
  | vacant dir name => dir ++ [name]

end Place

structure FileSystem where
  entries : List (Location × Entry) := []
  deriving Inhabited

namespace FileSystem

/-! ## Entries -/

def get? (fs : FileSystem) (l : Location) : Option Entry :=
  if l = [] then some .directory else fs.entries.lookup l

/-- The entry at a location replaced, or added after all others. -/
def put (l : Location) (e : Entry) : List (Location × Entry) → List (Location × Entry)
  | [] => [(l, e)]
  | (k, x) :: rest => if k = l then (k, e) :: rest else (k, x) :: put l e rest

def insert (fs : FileSystem) (l : Location) (e : Entry) : FileSystem :=
  ⟨put l e fs.entries⟩

def erase (fs : FileSystem) (l : Location) : FileSystem :=
  ⟨fs.entries.filter fun (k, _) => k ≠ l⟩

/-- The file system without an entry and all entries beneath it. -/
def eraseTree (fs : FileSystem) (l : Location) : FileSystem :=
  ⟨fs.entries.filter fun (k, _) => !l.isPrefixOf k⟩

/-- The names in a directory with their entries. -/
def list (fs : FileSystem) (l : Location) : List (String × Entry) :=
  fs.entries.filterMap fun (k, e) =>
    match k.getLast? with
    | some name => if k.dropLast = l then some (name, e) else none
    | none => none

/-! ## Paths -/

/-- The parts of a path that are walked one by one. A slash at the end asks for a directory, as a
dot there does. -/
def parts (path : String) : List String :=
  let ps := Text.pieces '/' path
  ps.filter (· ≠ "") ++ if ps.getLast? = some "" then ["."] else []

/-- A walk that reached its place, or came to a link and goes on from there. -/
inductive Stop where
  | at_ (place : Place)
  | link (dir : Location) (parts : List String)

/-- Walks up to the first link that has to be followed. -/
def walkToLink (fs : FileSystem) (follow : Bool) (dir : Location) :
    List String → Except Fault Stop
  | [] =>
    match fs.get? dir with
    | some e => .ok (.at_ (.found dir e))
    | none => .error .noEntry
  | p :: rest =>
    if p = "." then walkToLink fs follow dir rest
    else if p = ".." then walkToLink fs follow dir.dropLast rest
    else if 255 < p.utf8ByteSize then .error .nameTooLong
    else match fs.get? (dir ++ [p]) with
      | none => if rest = [] then .ok (.at_ (.vacant dir p)) else .error .noEntry
      | some .directory => walkToLink fs follow (dir ++ [p]) rest
      | some (.file bytes x) =>
        if rest = [] then .ok (.at_ (.found (dir ++ [p]) (.file bytes x)))
        else .error .notDirectory
      | some (.link target) =>
        if rest = [] ∧ ¬ follow then .ok (.at_ (.found (dir ++ [p]) (.link target)))
        else .ok (.link (if Text.startsWith '/' target then [] else dir) (parts target ++ rest))

/-- Walks through at most `links` links. -/
def walk (fs : FileSystem) (follow : Bool) (links : Nat) (dir : Location) (ps : List String) :
    Except Fault Place :=
  match walkToLink fs follow dir ps with
  | .error fault => .error fault
  | .ok (.at_ place) => .ok place
  | .ok (.link dir ps) =>
    match links with
    | 0 => .error .linkLoop
    | links + 1 => walk fs follow links dir ps

/-- The most links that one path may lead through. -/
def linkLimit : Nat := 40

/-- Where a path leads from a working directory. A link at its end is followed only if `follow` is
set. -/
def locate (fs : FileSystem) (cwd : Location) (follow : Bool) (path : String) :
    Except Fault Place :=
  if '\x00' ∈ path.toList then .error .nulInName
  else if path = "" then .error .noEntry
  else if 4096 ≤ path.utf8ByteSize then .error .nameTooLong
  else fs.walk follow linkLimit (if Text.startsWith '/' path then [] else cwd) (parts path)

/-- The entry that a path leads to. -/
def entry (fs : FileSystem) (cwd : Location) (path : String) : Except Fault (Location × Entry) :=
  match fs.locate cwd true path with
  | .ok (.found l e) => .ok (l, e)
  | .ok (.vacant ..) => .error .noEntry
  | .error fault => .error fault

/-! ## Calls -/

/-- The location of a path with all links resolved. -/
def canonical (fs : FileSystem) (cwd : Location) (path : String) : Except Fault String :=
  (fs.entry cwd path).map fun (l, _) => l.text

def read (fs : FileSystem) (cwd : Location) (path : String) : Except Fault ByteArray :=
  match fs.entry cwd path with
  | .ok (_, .file bytes _) => .ok bytes
  | .ok _ => .error .isDirectory
  | .error fault => .error fault

/-- A path without the slashes at its end. -/
def withoutSlashes (path : String) : String :=
  match Text.trimEnd '/' path with
  | "" => if path = "" then "" else "/"
  | p => p

def makeDir (fs : FileSystem) (cwd : Location) (path : String) : Except Fault FileSystem :=
  match fs.locate cwd false (withoutSlashes path) with
  | .ok (.vacant dir name) => .ok (fs.insert (dir ++ [name]) .directory)
  | .ok (.found ..) => .error .exists_
  | .error fault => .error fault

/-- Makes an empty file where there is nothing yet. -/
def makeFile (fs : FileSystem) (cwd : Location) (path : String) : Except Fault FileSystem :=
  match fs.locate cwd false path with
  | .ok (.vacant dir name) => .ok (fs.insert (dir ++ [name]) (.file .empty false))
  | .ok (.found ..) => .error .exists_
  | .error fault => .error fault

/-- Opens a file for writing, made if it is missing: the location, with what `change` makes of its
bytes. -/
def openWith (fs : FileSystem) (cwd : Location) (change : ByteArray → ByteArray) (path : String) :
    Except Fault (Location × FileSystem) :=
  match fs.locate cwd true path with
  | .ok (.vacant dir name) =>
    .ok (dir ++ [name], fs.insert (dir ++ [name]) (.file (change .empty) false))
  | .ok (.found l (.file bytes x)) => .ok (l, fs.insert l (.file (change bytes) x))
  | .ok (.found ..) => .error .isDirectory
  | .error fault => .error fault

/-- Gives a file another path, in place of whatever file was there. -/
def rename (fs : FileSystem) (cwd : Location) (source target : String) :
    Except Fault FileSystem :=
  match fs.locate cwd false source, fs.locate cwd false target with
  | .error fault, _ => .error fault
  | .ok (.vacant ..), _ => .error .noEntry
  | .ok (.found ..), .error fault => .error fault
  | .ok (.found _ .directory), _ => .error .isDirectory
  | .ok (.found ..), .ok (.found _ .directory) => .error .isDirectory
  | .ok (.found l e), .ok (.found k _) => .ok (if k = l then fs else (fs.erase l).insert k e)
  | .ok (.found l e), .ok (.vacant dir name) => .ok ((fs.erase l).insert (dir ++ [name]) e)

def removeFile (fs : FileSystem) (cwd : Location) (path : String) : Except Fault FileSystem :=
  match fs.locate cwd false path with
  | .ok (.found _ .directory) => .error .isDirectory
  | .ok (.found l _) => .ok (fs.erase l)
  | .ok (.vacant ..) => .error .noEntry
  | .error fault => .error fault

/-- Removes a directory with everything beneath it. -/
def removeTree (fs : FileSystem) (cwd : Location) (path : String) : Except Fault FileSystem :=
  match fs.locate cwd false path with
  | .ok (.found l .directory) => .ok (fs.eraseTree l)
  | .ok (.found l (.link _)) => .ok (fs.erase l)
  | .ok (.found _ (.file ..)) => .error .notDirectory
  | .ok (.vacant ..) => .error .noEntry
  | .error fault => .error fault

end FileSystem
end SelectiveSync
