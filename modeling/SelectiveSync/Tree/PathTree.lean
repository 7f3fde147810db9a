import SelectiveSync.Error
import SelectiveSync.Tree.Forest

/-! # The decisions of one target

A `PathTree` holds which paths of a target were included and which were evicted. What nobody decided
about is left out.

* `ruling` says what holds for a path and because of which mark.
* `markIncluded`, `markEvicted` and `unmark` change the decision on one path or say why they do not;
  `decide` is whichever of them brings a decision about.
* `marks` lists the decisions and `ofMarks` puts them together again, refusing lists that contradict
  themselves. -/
namespace SelectiveSync
set_option autoImplicit false

structure Mark where
  location : String
  decision : Decision
  deriving DecidableEq, Repr

/-- What holds for a path, and the path whose mark brings it about. -/
inductive Ruling where
  | included (outer : TreePath)
  | evicted (outer : TreePath)
  | ambient
  deriving DecidableEq

structure PathTree where
  top : Forest := .empty
  deriving DecidableEq, Repr, Inhabited

namespace PathTree

def isEmpty (t : PathTree) : Bool :=
  t.top = .empty

def get? (t : PathTree) (p : TreePath) : Option Node :=
  t.top.get? p.segments

def ruling (t : PathTree) (p : TreePath) : Ruling :=
  match t.top.verdict p.segments with
  | .included i => .included (p.upTo i)
  | .evicted i => .evicted (p.upTo i)
  | .ambient => .ambient

/-! ## Decisions -/

def markIncluded (t : PathTree) (p : TreePath) : Except Error PathTree :=
  match t.ruling p with
  | .included outer => .error (.alreadyIncluded p outer)
  | _ => .ok ⟨t.top.settle .included p.segments⟩

/-- The locations of the outermost inclusions strictly beneath a path. -/
def includedBeneath (t : PathTree) (p : TreePath) : List String :=
  match t.get? p with
  | none => []
  | some n => (n.below.included p.segments).map (Text.joined '/')

/-- Evicts a path, unless something beneath it is included or it lies inside something included. -/
def markEvicted (t : PathTree) (p : TreePath) : Except Error PathTree :=
  match t.includedBeneath p with
  | first :: rest => .error (.includedBeneath p (rest.length + 1) first)
  | [] =>
    match t.ruling p with
    | .included outer =>
      if outer = p then .ok ⟨t.top.settle .evicted p.segments⟩
      else .error (.insideIncluded p outer)
    | .evicted outer => .error (.alreadyEvicted p outer)
    | .ambient => .ok ⟨t.top.settle .evicted p.segments⟩

def unmark (t : PathTree) (p : TreePath) : Except Error PathTree :=
  match t.get? p with
  | none => .error (.notMarked p)
  | some n =>
    if n.decision = .undecided then .error (.notMarked p) else .ok ⟨t.top.clear p.segments⟩

/-- The change that leaves a path with the decision `d`. -/
def decide (d : Decision) : PathTree → TreePath → Except Error PathTree :=
  match d with
  | .included => markIncluded
  | .evicted => markEvicted
  | .undecided => unmark

/-! ## Stored decisions -/

/-- Every decision, outer ones before inner ones, siblings in the order of their declaration. -/
def marks (t : PathTree) : List Mark :=
  t.top.marks.map fun (path, d) => ⟨Text.joined '/' path, d⟩

/-- One stored decision added to those before it. -/
def addMark (t : PathTree) (m : Mark) : Except Corruption PathTree :=
  match TreePath.parse m.location with
  | .error fault => .error (.badLocation m.location fault)
  | .ok p =>
    if m.decision = .undecided then .error (.undecided m.location)
    else
      let node := (t.get? p).getD ⟨p.name, .undecided, .empty⟩
      let place :=
        if node.decision ≠ .undecided then .error (.storedTwice m.location)
        else if m.decision = .included ∧ node.below ≠ .empty then
          .error (.marksBeneath m.location)
        else .ok ⟨t.top.mark m.decision p.segments⟩
      match t.ruling p with
      | .included outer => if outer = p then place else .error (.insideIncluded m.location outer)
      | _ => place

def ofMarks (marks : List Mark) : Except Corruption PathTree :=
  marks.foldlM addMark {}

end PathTree
end SelectiveSync
