import SelectiveSync.Registry.Basic
import SelectiveSync.System.Program

/-! # Edits of the registry

An edit is one change that a user may ask for, kept as data.

* `Edit.apply` makes the change or says why it cannot be made.
* `Edit.perform` also tells the log, and names what was changed. -/
namespace SelectiveSync
set_option autoImplicit false

inductive Edit where
  | add (source root : String)
  | remove (root : String)
  | setSource (root source : String)
  | decide (d : Decision) (path : String)
  deriving DecidableEq, Repr

namespace Edit

def apply (r : Registry) : Edit → Except Error Registry
  | add source root => r.add source root
  | remove root => (r.remove root).map (·.2)
  | setSource root source => r.setSource root source
  | decide d path => (r.decide d path).map (·.2)

/-- What the edit is about: the root of a target, or a path inside the target it lies in. -/
def subject (r : Registry) : Edit → String
  | add _ root | remove root | setSource root _ => root
  | decide _ path =>
    match r.locate path with
    | .ok (_, some p) => p.text
    | _ => path

/-! ## Events -/

def registryEvent (message : String) (fields : List (String × String)) : Event :=
  ⟨.debug, "offsync_core::registry", message, fields⟩

/-- The number of decisions strictly beneath a path. -/
def decisionsBeneath (t : PathTree) (p : TreePath) : Nat :=
  match t.get? p with
  | none => 0
  | some n => n.below.marks.length

/-- What is told of a decision made in a tree, given the tree after it. -/
def treeEvent (d : Decision) (p : TreePath) (before after : PathTree) : Event :=
  let discarded := ("discarded", toString (decisionsBeneath before p))
  let (message, change) := match d with
    | .included => ("included path", discarded)
    | .evicted => ("evicted path", discarded)
    | .undecided => ("reverted path", ("pruned", toString (before.top.size - after.top.size)))
  ⟨.debug, "offsync_core::tree", message, [("path", p.text), change]⟩

/-- What is told of the target in which a decision was made. -/
def targetEvent (d : Decision) (p : TreePath) (root : String) : Event :=
  let message := match d with
    | .included => "target path included"
    | .evicted => "target path evicted"
    | .undecided => "target path reset"
  ⟨.debug, "offsync_core::target", message, [("target_root", root), ("path", p.text)]⟩

/-- What is told of an edit that was made to a registry. -/
def events (r : Registry) : Edit → List Event
  | add source root => [registryEvent "adding target" [("root", root), ("source", source)]]
  | remove root => [registryEvent "removed target" [("root", root)]]
  | setSource root source => [registryEvent "changed source" [("root", root), ("source", source)]]
  | decide d path =>
    match r.locate path with
    | .ok (t, some p) =>
      match t.tree.decide d p with
      | .ok after => [treeEvent d p t.tree after, targetEvent d p t.root]
      | .error _ => []
    | _ => []

/-- Makes an edit: what it was about, and the registry after it. -/
def perform (e : Edit) (r : Registry) : Task Error (String × Registry) := do
  let after ← Task.check id (e.apply r)
  (e.events r).forM Task.log
  return (e.subject r, after)

end Edit
end SelectiveSync
