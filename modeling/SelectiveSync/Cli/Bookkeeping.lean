import SelectiveSync.Cli.Session
import SelectiveSync.Format.Json.Writer

/-! # Commands that keep books

Commands that change or show the registry and transfer nothing. Only `exclude` touches other files,
and only after the eviction was stored. -/
namespace SelectiveSync.Cli
set_option autoImplicit false

/-! ## Targets -/

/-- A directory root needs a source that stands for the contents of a directory. -/
def directorySource (source root : String) : CommandTask String := do
  if (← Task.isDir root) && !Text.endsWith '/' source then return source ++ "/" else return source

def add (s : Session) (source dest : String) : CommandTask Unit := do
  let root ← resolve dest
  let source ← directorySource source root
  unless ← Task.exists_ root do
    Task.warn ("warning: " ++ root ++ " does not exist yet\n")
  let _ ← s.edit (.add source root)
  tellDone ("Target " ++ source ++ " => " ++ root ++ " added.")

def remove (s : Session) (dest : String) (yes : Bool) : CommandTask Unit := do
  let root ← resolve dest
  if ((← s.registry).get? root).isNone then throw (.operation (.unknownTarget root))
  unless yes do
    confirm ("Forget all include/exclude decisions for " ++ root ++ "?") "Remove"
  let _ ← s.edit (.remove root)
  tellDone ("Target " ++ root ++ " removed. Local files were left untouched.")

def setSource (s : Session) (dest source : String) : CommandTask Unit := do
  let root ← resolve dest
  let source ← directorySource source root
  let _ ← s.edit (.setSource root source)
  tellDone ("Source of " ++ root ++ " is now " ++ source ++ ".")

/-! ## Decisions -/

/-- Includes a path. A dry run changes only what is in memory. -/
def mark (s : Session) (path : String) (dryRun : Bool) : CommandTask Unit := do
  let path ← resolve path
  if dryRun then
    let r ← s.registry
    let (p, _) ← ofTask ((Edit.decide .included path).perform r)
    tellNext ("Would include " ++ p ++ " (dry run, nothing saved).")
  else
    let p ← s.edit (.decide .included path)
    tellDone ("Included " ++ p ++ ".")

/-- Deletes whatever is at a path. -/
def deleteLocal (path : String) : CommandTask Unit := do
  Task.log ⟨.debug, "offsync::commands::mark", "deleting evicted local copy", [("path", path)]⟩
  match ← Task.ask (.kind path) with
  | some .directory => ofFault (Task.check id (← Task.ask (.removeTree path)))
  | some .file => ofFault (Task.check id (← Task.ask (.removeFile path)))
  | none => pure ()

def exclude (s : Session) (path : String) (evict : Bool) : CommandTask Unit := do
  let path ← resolve path
  let p ← s.edit (.decide .evicted path)
  tellDone ("Excluded " ++ p ++ ".")
  if evict then
    deleteLocal path
    tellDone ("Deleted local copy " ++ path ++ ".")

def reset (s : Session) (path : String) : CommandTask Unit := do
  let path ← resolve path
  let p ← s.edit (.decide .undecided path)
  tellDone (p ++ " no longer carries a mark.")

/-! ## Status -/

/-- The directives of a target as lines. -/
def ruleLines (t : Target) : CommandTask (List String) :=
  ofTask (Task.check id (t.directives.map (List.map Directive.text)))

def statusValue (t : Target) : CommandTask Value := do
  return .record [("source", .text t.source), ("root", .text t.root),
    ("rules", Value.texts (← ruleLines t))]

def statusLines (t : Target) : CommandTask Unit := do
  let shown := if (← Task.isDir t.root) && !Text.endsWith '/' t.root then t.root ++ "/" else t.root
  Task.print (t.source ++ " => " ++ shown ++ "\n")
  (← ruleLines t).forM fun rule => Task.print ("  " ++ rule ++ "\n")

def status (s : Session) (json : Bool) : CommandTask Unit := do
  let r ← s.registry
  if json then
    let values ← r.targets.mapM statusValue
    Task.print (((Json.pretty (.list values)).getD "") ++ "\n")
  else if r.targets.isEmpty then
    Task.print "No targets (use offsync add to create one)\n"
  else r.targets.forM statusLines

end SelectiveSync.Cli
