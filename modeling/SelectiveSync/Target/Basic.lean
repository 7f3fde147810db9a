import SelectiveSync.Rule.Synthesis

/-! # Targets

A target ties a local root to a source and says which paths beneath the root are kept in step. -/
namespace SelectiveSync
set_option autoImplicit false

structure Target where
  source : String
  root : String
  tree : PathTree := {}
  deriving DecidableEq, Repr, Inhabited

namespace Target

def directives (t : Target) : Except Error (List Directive) :=
  t.tree.directives

/-- The complete filter: the directives of the tree, and the one that leaves out all else. -/
def filterRules (t : Target) : Except Error (List Directive) :=
  t.directives.map (· ++ [Directive.ambient])

/-- The source stands for the contents of a directory. -/
def hasDirectorySource (t : Target) : Bool :=
  Text.endsWith '/' t.source

/-- The target with a change made to its tree. -/
def edit (f : PathTree → Except Error PathTree) (t : Target) : Except Error Target :=
  (f t.tree).map fun tree => { t with tree }

end Target
end SelectiveSync
