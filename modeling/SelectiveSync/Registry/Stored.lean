import SelectiveSync.Format.Toml.Reader
import SelectiveSync.Format.Toml.Writer
import SelectiveSync.Registry.Basic
import SelectiveSync.Target.Stored

/-! # The registry as it is stored

A registry is a TOML document of a version and a list of targets. Its targets may be stored in any
order. -/
namespace SelectiveSync.Registry
set_option autoImplicit false

def toValue (r : Registry) : Value :=
  .record [("version", .text r.version), ("targets", .list (r.targets.map Target.toValue))]

/-- The version and the targets of a registry, before their marks are put together. -/
def storedOfValue? (v : Value) : Option (String × List StoredTarget) := do
  let fields ← v.record? Toml.dialect ["version", "targets"]
  let version ← field? fields "version" Value.text?
  let targets ← fieldOr? fields "targets" []
    (Value.listOf? (StoredTarget.ofValue? Toml.dialect))
  return (version, targets)

/-- The root of the first target does not come after that of the second. -/
def inOrder (a b : Target) : Bool :=
  WrittenPath.order a.root b.root != .gt

/-- The registry of what is stored, unless the marks of a target contradict each other. -/
def ofStored (version : String) (targets : List StoredTarget) : Except Corruption Registry :=
  (targets.mapM Target.ofStored).map fun l => ⟨version, l.mergeSort inOrder⟩

def ofToml (s : String) : Except Error Registry :=
  match (Toml.read s).bind storedOfValue? with
  | none => .error .unreadable
  | some (version, targets) =>
    match ofStored version targets with
    | .ok r => .ok r
    | .error fault => .error (.corrupt fault)

/-- The text under which the registry is stored. Texts and lists of records can always be written,
so the empty text stands for no registry. -/
def toToml (r : Registry) : String :=
  (Toml.pretty r.toValue).getD ""

end SelectiveSync.Registry
