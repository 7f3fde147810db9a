import SelectiveSync.Path.Normal
import SelectiveSync.Path.Written
import SelectiveSync.Target.Basic

/-! # The registry

All targets, in the order of their roots. No root lies within another's.

* `add`, `remove` and `setSource` change the list of targets; roots are told apart as written paths,
  while overlap is a matter of normalized ones.
* `locate` finds the target that a path lies in, and `decide` makes a decision on it there. -/
namespace SelectiveSync
set_option autoImplicit false

structure Registry where
  version : String := "1.0"
  targets : List Target := []
  deriving DecidableEq, Repr, Inhabited

namespace Registry

/-! ## Targets by root -/

def get? (r : Registry) (root : String) : Option Target :=
  r.targets.find? fun t => WrittenPath.same t.root root

/-- One of the two roots lies within the other. -/
def overlaps (a b : String) : Bool :=
  (NormalPath.ofText a).within (NormalPath.ofText b) ||
    (NormalPath.ofText b).within (NormalPath.ofText a)

/-- The target's root comes before another path. -/
def before (path : String) (t : Target) : Bool :=
  WrittenPath.order t.root path == .lt

/-- A new target without decisions, unless its root overlaps with that of another. -/
def add (r : Registry) (source root : String) : Except Error Registry :=
  match r.targets.find? fun t => overlaps root t.root with
  | some existing => .error (.overlap root existing.root)
  | none => .ok { r with
      targets := r.targets.takeWhile (before root) ++ ⟨source, root, {}⟩
        :: r.targets.dropWhile (before root) }

/-- Forgets a target and all decisions in it. -/
def remove (r : Registry) (root : String) : Except Error (Target × Registry) :=
  match r.get? root with
  | none => .error (.unknownTarget root)
  | some t => .ok (t, { r with
      targets := r.targets.eraseP fun t => WrittenPath.same t.root root })

/-- The first target for which `p` holds replaced. -/
def replaceFirst (p : Target → Bool) (t : Target) : List Target → List Target
  | [] => []
  | x :: rest => if p x then t :: rest else x :: replaceFirst p t rest

/-- The target of a root changed by `f`. -/
def editTarget (f : Target → Except Error Target) (r : Registry) (root : String) :
    Except Error Registry :=
  match r.get? root with
  | none => .error (.unknownTarget root)
  | some t => (f t).map fun t => { r with
      targets := replaceFirst (fun t => WrittenPath.same t.root root) t r.targets }

/-- Ties a target to another source. -/
def setSource (r : Registry) (root source : String) : Except Error Registry :=
  r.editTarget (fun t => .ok { t with source }) root

/-! ## Targets by path -/

/-- The path is the target's root or lies within it. -/
def covers (path : String) (t : Target) : Bool :=
  (NormalPath.ofText path).within (NormalPath.ofText t.root)

/-- The way from a root to a path within it, if they differ. -/
def relative (root path : String) : Except Error (Option TreePath) :=
  match (NormalPath.ofText path).relativeTo? (NormalPath.ofText root) with
  | none => .ok none
  | some rest =>
    if rest = "" then .ok none
    else match TreePath.parse rest with
      | .ok p => .ok (some p)
      | .error fault => .error (.invalidPath rest fault)

/-- The target that a path lies in, and the way there from its root. -/
def locate (r : Registry) (path : String) : Except Error (Target × Option TreePath) :=
  match r.targets.find? (covers path) with
  | none => .error (.unknownTarget path)
  | some t => (relative t.root path).map (t, ·)

/-- The tree around a path changed there by `f`. -/
def editAt (f : PathTree → TreePath → Except Error PathTree) (r : Registry) (path : String) :
    Except Error (TreePath × Registry) :=
  match r.locate path with
  | .error e => .error e
  | .ok (_, none) => .error (.targetRoot path)
  | .ok (t, some p) =>
    (t.edit (f · p)).map fun t => (p, { r with targets := replaceFirst (covers path) t r.targets })

/-- The decision `d` made at a path, in whatever target it lies. -/
def decide (d : Decision) (r : Registry) (path : String) : Except Error (TreePath × Registry) :=
  r.editAt (PathTree.decide d) path

end Registry
end SelectiveSync
