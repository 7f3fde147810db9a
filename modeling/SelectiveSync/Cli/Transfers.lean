import SelectiveSync.Cli.Command
import SelectiveSync.Cli.Session
import SelectiveSync.Transfer.Run

/-! # Commands that transfer

Commands that start the transfer program for one path or for whole targets.

* `summon` fetches a path and includes it once that succeeded.
* `push` and `revert` work through the selected targets in the registry's order up to the first that
  fails; `chosen` says which these are. -/
namespace SelectiveSync.Cli
set_option autoImplicit false

/-! ## One transfer -/

def transferOptions (s : Session) (t : TransferChoices) : TransferOptions :=
  ⟨s.verbosity, t.dryRun, t.rsync⟩

/-- Makes a transfer, or shows its command if it is only to be shown. -/
def transfer (s : Session) (t : Target) (direction : Direction) (o : TransferOptions) :
    CommandTask TransferReport := do
  let settings ← ofTask s.config.loadSettings
  let plan ← ofTask (TransferPlan.ofTarget settings t direction o)
  let report ← ofTask plan.run
  unless report.executed do
    Task.print (report.line ++ "\n")
    if 0 < s.verbosity then
      (plan.rules.getD []).forM fun rule => Task.print ("  " ++ rule ++ "\n")
  return report

/-- Fetches a path and includes it. That it may be included is checked first, and again when the
program has ended, since the registry is not locked in between. -/
def summon (s : Session) (path : String) (choices : TransferChoices) : CommandTask Unit := do
  let path ← resolve path
  let r ← s.registry
  let (subject, _) ← ofTask ((Edit.decide .included path).perform r)
  match r.locate path with
  | .error e => throw (.operation e)
  | .ok (_, none) => throw (.operation (.targetRoot path))
  | .ok (t, some p) =>
    tellNext ("Summoning " ++ subject ++ " from " ++ t.source)
    let o := transferOptions s choices
    if o.dryRun.isNone then ofFault (makeDirs path)
    let report ← transfer s t (.summon p) o
    if o.dryRun.isNone && report.executed then
      let _ ← s.edit (.decide .included path)
      tellDone ("Included " ++ subject ++ ".")

/-! ## Selections -/

/-- Which targets some roots name. Of several targets with the same root only the first is
named. -/
def chosen : List Target → List String → List Bool
  | [], _ => []
  | t :: rest, roots =>
    roots.any (WrittenPath.same t.root ·)
      :: chosen rest (roots.filter fun root => !WrittenPath.same t.root root)

/-- The roots that name no target. -/
def unmatched (r : Registry) (roots : List String) : List String :=
  roots.filter fun root => (r.get? root).isNone

/-- The targets whose place is marked with `wanted`. -/
def selected (wanted : Bool) (targets : List Target) (marks : List Bool) : List Target :=
  ((targets.zip marks).filter fun (_, mark) => mark == wanted).map (·.1)

/-- Which targets some paths name, all of them if there are no paths. -/
def select (r : Registry) (paths : List String) : CommandTask (List Bool) := do
  if paths.isEmpty then return r.targets.map fun _ => true
  let roots ← paths.mapM resolve
  match unmatched r roots with
  | [] => return chosen r.targets roots
  | missing => throw (.unmatched missing)

/-- Transfers targets one after the other, each announced if more is to be told. -/
def transferAll (s : Session) (announcement : String) (direction : Direction)
    (o : TransferOptions) (targets : List Target) : CommandTask Unit :=
  targets.forM fun t => do
    if 0 < o.verbosity then tellNext (announcement ++ " target " ++ t.root)
    let _ ← transfer s t direction o

/-- Makes sources like their targets. A request for the differences is a dry run by the program
itself that tells what it would do. -/
def push (s : Session) (paths : List String) (invert diff : Bool) (choices : TransferChoices) :
    CommandTask Unit := do
  let r ← s.registry
  let o := transferOptions s choices
  let o := if diff then { o with dryRun := some .tool, verbosity := 1 } else o
  match selected (!invert) r.targets (← select r paths) with
  | [] => throw .nothingSelected
  | targets => transferAll s "Pushing" .push o targets

/-- Makes targets like their sources. All of them only if that is asked for. -/
def revert (s : Session) (paths : List String) (all : Bool) (choices : TransferChoices) :
    CommandTask Unit := do
  if paths.isEmpty && !all then throw .nothingNamed
  let r ← s.registry
  let marks ← select r paths
  transferAll s "Reverting" .revert (transferOptions s choices) (selected true r.targets marks)

end SelectiveSync.Cli
