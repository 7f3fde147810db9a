import SelectiveSync.Rule.Directive
import SelectiveSync.Tree.PathTree

/-! # From decisions to directives

The shortest list of directives that makes a transfer program follow the decisions of a tree. A
directory on the way to something included is entered, but nothing else in it is taken: first come
the directives for what is below it, then its other contents are excluded, then it is included
itself. Evictions count only where the way leads past them.

* `reaches` says whether something included is in a forest, `rules` lists the directives.
* `check` finds the first name that no file can have or that two siblings share; `rules` is meant
  for forests that pass.
* `PathTree.directives` and `PathTree.directivesAt` do both for a tree and for a part of it. -/
namespace SelectiveSync
set_option autoImplicit false

namespace Forest

/-- The path of a name inside `base`, the empty path standing for the root of the transfer. -/
def pathUnder (base name : String) : String :=
  if base = "" then name else base ++ "/" ++ name

def reaches : Forest → Bool
  | empty => false
  | node _ d below beside => d = .included || below.reaches || beside.reaches

/-- The directives for the siblings in order, each inside `base`. -/
def rules (base : String) : Forest → List Directive
  | empty => []
  | node n d below beside =>
    let path := pathUnder base n
    let own :=
      if d = .included then [⟨.included, .directory, path⟩]
      else if below.reaches then
        below.rules path ++ [⟨.excluded, .contents, path⟩, ⟨.included, .directory, path⟩]
      else if d = .evicted then [⟨.excluded, .exact, path⟩]
      else []
    own ++ beside.rules base

/-! ## Names -/

/-- Checks the names of siblings, `seen` being those before them. -/
def checkRow (base : String) (seen : List String) : Forest → Except Corruption Unit
  | empty => .ok ()
  | node n _ _ beside =>
    match nameFault? n with
    | some fault => .error (.badNode n base fault)
    | none =>
      if n ∈ seen then .error (.duplicateNode n base) else checkRow base (n :: seen) beside

/-- Checks the rows below the siblings. What is below an inclusion is of no account. -/
def checkBelow (base : String) : Forest → Except Corruption Unit
  | empty => .ok ()
  | node n d below beside => do
    unless d = .included do
      checkRow (pathUnder base n) [] below
      checkBelow (pathUnder base n) below
    checkBelow base beside

def check (base : String) (f : Forest) : Except Corruption Unit := do
  f.checkRow base []
  f.checkBelow base

/-- Checks all names of the forest, a node before the nodes below it. -/
def validate (base : String) (seen : List String) : Forest → Except Corruption Unit
  | empty => .ok ()
  | node n _ below beside =>
    match nameFault? n with
    | some fault => .error (.badChild n base fault)
    | none =>
      if n ∈ seen then .error (.duplicateChild n base)
      else do
        validate (pathUnder base n) [] below
        validate base (n :: seen) beside

end Forest

namespace Node

/-- The directives for a node that stands at `path` and is itself entered anyway. -/
def rules (n : Node) (path : String) : List Directive :=
  if n.decision = .included then [⟨.included, .directory, path⟩]
  else if n.below.reaches then n.below.rules path ++ [⟨.excluded, .contents, path⟩]
  else if n.decision = .evicted then [⟨.excluded, .exact, path⟩]
  else []

def directives (n : Node) (path : String) : Except Error (List Directive) :=
  match if n.decision = .included then .ok () else n.below.check path with
  | .error fault => .error (.corrupt fault)
  | .ok () => .ok (n.rules path)

end Node

namespace PathTree

/-- The directives for the whole tree, less the closing one. -/
def directives (t : PathTree) : Except Error (List Directive) :=
  match t.top.check "" with
  | .error fault => .error (.corrupt fault)
  | .ok () => .ok (t.top.rules "")

/-- The directives for the part of the tree at `p`, if there is any. -/
def directivesAt (t : PathTree) (p : TreePath) : Except Error (List Directive) :=
  match t.get? p with
  | none => .ok []
  | some n => n.directives p.text

/-- All names are usable and no two siblings share one. -/
def validate (t : PathTree) : Except Error Unit :=
  match t.top.validate "" [] with
  | .error fault => .error (.corrupt fault)
  | .ok () => .ok ()

end PathTree
end SelectiveSync
