import SelectiveSync.Text.Split

/-! # Paths as written

A path is kept as it was written; this module reads its parts. Repeated slashes, a slash at the end
and `.` between parts do not count; a `.` at the start of a relative path does.

* `parts` lists the parts, and `order` compares two paths by them, so that `/a/b` comes before
  `/a-b`.
* `parent?` and `fileName?` take off the last part, `append` and `withFileName` put one on. -/
namespace SelectiveSync.WrittenPath
set_option autoImplicit false

inductive Part where
  | root
  | here
  | up
  | name (text : String)
  deriving DecidableEq, Repr

namespace Part

def rank : Part → Nat
  | root => 0
  | here => 1
  | up => 2
  | name _ => 3

/-- The root comes first, then `.`, then `..`, then names by their characters. -/
def order : Part → Part → Ordering
  | name a, name b => compare a b
  | a, b => compare a.rank b.rank

/-- A part as it stands between two slashes, if it counts there. -/
def ofPiece? (s : String) : Option Part :=
  if s = "" ∨ s = "." then none else if s = ".." then some up else some (name s)

end Part

def isAbsolute (path : String) : Bool :=
  Text.startsWith '/' path

/-- The path starts with a `.` that stands alone. -/
def startsHere (path : String) : Bool :=
  match path.toList with
  | ['.'] => true
  | '.' :: '/' :: _ => true
  | _ => false

/-- What is written before the parts between slashes: a slash, a dot, or nothing. -/
def head (path : String) : String :=
  if isAbsolute path then "/" else if startsHere path then "." else ""

/-- The stretches between slashes after the head. -/
def stretches (path : String) : List String :=
  Text.pieces '/' (String.ofList (path.toList.drop (head path).length))

def headParts (path : String) : List Part :=
  if isAbsolute path then [.root] else if startsHere path then [.here] else []

def parts (path : String) : List Part :=
  headParts path ++ (stretches path).filterMap Part.ofPiece?

def orderParts : List Part → List Part → Ordering
  | [], [] => .eq
  | [], _ :: _ => .lt
  | _ :: _, [] => .gt
  | a :: as, b :: bs => (a.order b).then (orderParts as bs)

def order (a b : String) : Ordering :=
  orderParts (parts a) (parts b)

/-- The two name the same path, whatever slashes they are written with. -/
def same (a b : String) : Bool :=
  parts a == parts b

/-- Stretches at the end that do not count are dropped. -/
def trimmed (stretches : List String) : List String :=
  (stretches.reverse.dropWhile fun s => (Part.ofPiece? s).isNone).reverse

/-- The path without its last part, and that part. The root has no last part. -/
def splitLast? (path : String) : Option (String × Part) :=
  match (trimmed (stretches path)).reverse with
  | last :: before =>
    (Part.ofPiece? last).map fun part =>
      (head path ++ Text.joined '/' (trimmed before.reverse), part)
  | [] => if startsHere path then some ("", .here) else none

def parent? (path : String) : Option String :=
  (splitLast? path).map (·.1)

def fileName? (path : String) : Option String :=
  match splitLast? path with
  | some (_, .name n) => some n
  | _ => none

/-- The second path read from the first: an absolute one stands for itself. -/
def append (base path : String) : String :=
  if isAbsolute path then path
  else if base = "" ∨ Text.endsWith '/' base then base ++ path
  else base ++ "/" ++ path

/-- The path with its last name replaced, or with a name added if it ends in none. -/
def withFileName (path name : String) : String :=
  match splitLast? path with
  | some (before, .name _) => append before name
  | _ => append path name

end SelectiveSync.WrittenPath
