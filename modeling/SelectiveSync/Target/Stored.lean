import SelectiveSync.Format.Decode
import SelectiveSync.Target.Basic

/-! # Targets as they are stored

A target is a record of its source, its root and a list of marks; a mark is a record of a location
and a state. A target without marks may lack the list. -/
namespace SelectiveSync
set_option autoImplicit false

namespace Decision

def ofText? (s : String) : Option Decision :=
  if s = "default" then some undecided
  else if s = "included" then some included
  else if s = "evicted" then some evicted
  else none

theorem ofText?_text (d : Decision) : ofText? d.text = some d := by
  cases d <;> rfl

end Decision

namespace Mark

def toValue (m : Mark) : Value :=
  .record [("location", .text m.location), ("state", .text m.decision.text)]

def ofValue? (d : Dialect) (v : Value) : Option Mark := do
  let fields ← v.record? d ["location", "state"]
  let location ← field? fields "location" Value.text?
  let decision ← field? fields "state" fun s => (s.alternative? d).bind Decision.ofText?
  return ⟨location, decision⟩

end Mark

/-- What is stored of a target, before its marks are put together. -/
structure StoredTarget where
  source : String
  root : String
  marks : List Mark
  deriving DecidableEq, Repr

namespace StoredTarget

def toValue (t : StoredTarget) : Value :=
  .record [("source", .text t.source), ("root", .text t.root),
    ("paths", .list (t.marks.map Mark.toValue))]

def ofValue? (d : Dialect) (v : Value) : Option StoredTarget := do
  let fields ← v.record? d ["source", "root", "paths"]
  let source ← field? fields "source" Value.text?
  let root ← field? fields "root" Value.text?
  let marks ← fieldOr? fields "paths" [] (Value.listOf? (Mark.ofValue? d))
  return ⟨source, root, marks⟩

end StoredTarget

namespace Target

def stored (t : Target) : StoredTarget :=
  ⟨t.source, t.root, t.tree.marks⟩

/-- The target of what is stored, unless the marks contradict each other. -/
def ofStored (s : StoredTarget) : Except Corruption Target :=
  match PathTree.ofMarks s.marks with
  | .ok tree => .ok ⟨s.source, s.root, tree⟩
  | .error fault => .error (.inTarget s.root fault)

def toValue (t : Target) : Value :=
  t.stored.toValue

def ofValue? (d : Dialect) (v : Value) : Option Target :=
  (StoredTarget.ofValue? d v).bind fun s => (ofStored s).toOption

end Target
end SelectiveSync
