import SelectiveSync.Text.Quoted
import SelectiveSync.Tree.Path

/-! # What can be wrong with stored decisions

The ways in which a list of stored marks, or a tree put together elsewhere, contradicts itself. -/
namespace SelectiveSync
set_option autoImplicit false

inductive Corruption where
  | badLocation (location : String) (fault : PathFault)
  | undecided (location : String)
  | insideIncluded (location : String) (outer : TreePath)
  | storedTwice (location : String)
  | marksBeneath (location : String)
  | badNode (name base : String) (fault : NameFault)
  | duplicateNode (name base : String)
  | badChild (name base : String) (fault : NameFault)
  | duplicateChild (name base : String)
  | inTarget (root : String) (fault : Corruption)
  deriving DecidableEq

/-- The message on a text that is no path. -/
def PathFault.complaint (path : String) (fault : PathFault) : String :=
  "Invalid path '" ++ path ++ "': " ++ fault.message

namespace Corruption

def message : Corruption → String
  | badLocation l fault => "stored location '" ++ l ++ "': " ++ fault.complaint l
  | undecided l => "stored location '" ++ l ++ "' has no state"
  | insideIncluded l outer => "location '" ++ l ++ "' lies inside included '" ++ outer.text ++ "'"
  | storedTwice l => "location '" ++ l ++ "' is stored twice"
  | marksBeneath l => "included location '" ++ l ++ "' has marks beneath it"
  | badNode n base fault =>
    "node " ++ Text.quoted n ++ " under '" ++ base ++ "': " ++ fault.message
  | duplicateNode n base => "duplicate node '" ++ n ++ "' under '" ++ base ++ "'"
  | badChild n base fault =>
    "child " ++ Text.quoted n ++ " of '" ++ base ++ "': " ++ fault.message
  | duplicateChild n base => "duplicate child '" ++ n ++ "' under '" ++ base ++ "'"
  | inTarget root fault => "target " ++ root ++ ": " ++ fault.message

end Corruption
end SelectiveSync
