import SelectiveSync.Config.Settings
import SelectiveSync.Path.Written
import SelectiveSync.Target.Basic
import SelectiveSync.Text.Shell
import SelectiveSync.Transfer.Options

/-! # Plans of transfers

A plan is the command of one transfer before it is given: the program, its arguments and the lines
of its filter. It is put together without a look at the system, but for whether the local root is a
directory.

* `TransferPlan.of` makes a plan and `arguments` lists what the program is given.
* `filterText` is the content of the filter file that the arguments refer to. -/
namespace SelectiveSync
set_option autoImplicit false

structure TransferPlan where
  program : String
  options : List String
  /-- The lines of the filter, if the transfer needs one. -/
  rules : Option (List String)
  /-- The arguments between the filter and the two places. -/
  trailing : List String
  source : String
  destination : String
  dryRun : Option DryRun
  deriving DecidableEq, Repr

namespace TransferPlan

/-! ## Arguments -/

/-- What is missing at the destination is kept by a summon only. -/
def deletion : Direction → List String
  | .summon _ => []
  | _ => ["--delete"]

/-- The more is asked for, the more the program tells, but no progress beside very much else. -/
def verbosity (n : Nat) : List String :=
  (if 1 ≤ n then ["-v", "--itemize-changes"] else []) ++ if n ≤ 2 then ["--progress"] else []

/-- The local root as an argument: a directory stands for its contents. -/
def rootArgument (isDir : Bool) (root : String) : String :=
  if isDir && !Text.endsWith '/' root then root ++ "/" else root

/-- The filter of a target as lines for the program. -/
def rulesOf (t : Target) : Except Error (List String) :=
  t.filterRules.map (List.map Directive.anchored)

/-- Where a summon fetches a path from. -/
def remoteCopy (t : Target) (p : TreePath) : String :=
  Text.trimEnd '/' t.source ++ "/" ++ p.text ++ "/"

/-- Where a summon puts it. -/
def localCopy (t : Target) (p : TreePath) : String :=
  WrittenPath.append t.root p.text ++ "/"

/-! ## Plans -/

def of (settings : Settings) (t : Target) (direction : Direction) (o : TransferOptions)
    (rootIsDir : Bool) : Except Error TransferPlan := do
  let root := rootArgument rootIsDir t.root
  let plan : TransferPlan := {
    program := settings.program
    options := settings.baseOptions ++ settings.options ++ deletion direction
      ++ verbosity o.verbosity
    rules := none
    trailing := o.extra
    source := root
    destination := t.source
    dryRun := o.dryRun }
  match direction with
  | .push => return { plan with rules := some (← rulesOf t) }
  | .revert =>
    return { plan with rules := some (← rulesOf t), source := t.source, destination := root }
  | .summon p =>
    return { plan with
      trailing := o.extra ++ ["--ignore-existing"]
      source := remoteCopy t p
      destination := localCopy t p }

/-- What the program is given when its filter lies in the file `filter`. -/
def arguments (p : TransferPlan) (filter : Option String) : List String :=
  (if p.dryRun = some .tool then ["--dry-run"] else []) ++ p.options
    ++ (match filter with
      | some file => ["--filter", ". " ++ file]
      | none => [])
    ++ p.trailing ++ [p.source, p.destination]

/-- The content of the filter file: every line with a line end. -/
def filterText (rules : List String) : String :=
  String.join (rules.map (· ++ "\n"))

end TransferPlan

/-- What came of a plan: the command, the program first, and whether it was given. -/
structure TransferReport where
  command : List String
  executed : Bool
  deriving DecidableEq, Repr

namespace TransferReport

/-- The command as a line that a shell would read back. -/
def line (r : TransferReport) : String :=
  Text.commandLine r.command

end TransferReport
end SelectiveSync
