import SelectiveSync.Text.Quoted
import SelectiveSync.Transfer.Options

/-! # Commands

What can be asked for on the command line, with the choices that each command takes. -/
namespace SelectiveSync.Cli
set_option autoImplicit false

/-- The choices of every command that may start a transfer. -/
structure TransferChoices where
  dryRun : Option DryRun := none
  /-- Options handed on to the transfer program. -/
  rsync : List String := []
  deriving DecidableEq, Repr

inductive Shell where
  | bash
  | elvish
  | fish
  | powershell
  | zsh
  deriving DecidableEq, Repr

namespace Shell

def ofName? (s : String) : Option Shell :=
  match s with
  | "bash" => some bash
  | "elvish" => some elvish
  | "fish" => some fish
  | "powershell" => some powershell
  | "zsh" => some zsh
  | _ => none

end Shell

inductive Command where
  | add (source dest : String)
  | remove (dest : String) (yes : Bool)
  | mark (path : String) (transfer : TransferChoices)
  | summon (path : String) (transfer : TransferChoices)
  | exclude (path : String) (evict : Bool)
  | reset (path : String)
  | push (targets : List String) (invert diff : Bool) (transfer : TransferChoices)
  | revert (targets : List String) (all : Bool) (transfer : TransferChoices)
  | setSource (dest source : String)
  | status (json : Bool)
  | completions (shell : Shell)
  deriving DecidableEq, Repr

/-! ## Commands in the log -/

/-- A name with its fields between braces. -/
def fieldsText (name : String) (fields : List (String × String)) : String :=
  name ++ " \x7b " ++ ", ".intercalate (fields.map fun (k, v) => k ++ ": " ++ v) ++ " \x7d"

def pathsText (paths : List String) : String :=
  "[" ++ ", ".intercalate (paths.map Text.quotedPath) ++ "]"

namespace TransferChoices

def dryRunText : Option DryRun → String
  | none => "None"
  | some .shown => "Some(Local)"
  | some .tool => "Some(Tool)"

def text (t : TransferChoices) : String :=
  fieldsText "TransferArgs"
    [("dry_run", dryRunText t.dryRun), ("rsync", Text.quotedList t.rsync)]

end TransferChoices

namespace Command

/-- A command as the log tells it. -/
def text : Command → String
  | add source dest =>
    fieldsText "Add" [("source", Text.quoted source), ("dest", Text.quotedPath dest)]
  | remove dest yes =>
    fieldsText "Remove" [("dest", Text.quotedPath dest), ("yes", toString yes)]
  | mark path transfer =>
    fieldsText "Include" [("path", Text.quotedPath path), ("transfer", transfer.text)]
  | summon path transfer =>
    fieldsText "Summon" [("path", Text.quotedPath path), ("transfer", transfer.text)]
  | exclude path evict =>
    fieldsText "Exclude" [("path", Text.quotedPath path), ("evict", toString evict)]
  | reset path => fieldsText "Reset" [("path", Text.quotedPath path)]
  | push targets invert diff transfer =>
    fieldsText "Push" [("targets", pathsText targets), ("invert", toString invert),
      ("diff", toString diff), ("transfer", transfer.text)]
  | revert targets all transfer =>
    fieldsText "Revert" [("targets", pathsText targets), ("all", toString all),
      ("transfer", transfer.text)]
  | setSource dest source =>
    fieldsText "SetSource" [("dest", Text.quotedPath dest), ("source", Text.quoted source)]
  | status json => fieldsText "Status" [("json", toString json)]
  | completions _ => "Completions"

end Command
end SelectiveSync.Cli
