import SelectiveSync.Cli.Arguments
import SelectiveSync.Cli.Bookkeeping
import SelectiveSync.Cli.Completion
import SelectiveSync.Cli.Log
import SelectiveSync.Cli.Transfers

/-! # Runs of the program

One run from the words of the command line to the status that it ends with. -/
namespace SelectiveSync.Cli
set_option autoImplicit false

/-! ## About the program itself -/

def versionText : String := "offsync 0.1.0\n"

def hintText : String :=
  "offsync selective offline copies\n\nRun offsync --help for available commands.\n"

def usageText : String :=
  "error: these arguments make no sense\n\nFor more information, try '--help'.\n"

def helpText : String :=
  "Usage: offsync [OPTIONS] [COMMAND]\n\nCommands:\n"
    ++ String.join (Verb.all.map fun v => "  " ++ v.name ++ "\n")
    ++ "\nOptions:\n"
    ++ String.join ((.version :: commonOptions).map fun o =>
      "  " ++ ", ".intercalate (optionWords o) ++ "\n")

/-! ## Commands -/

def execute (s : Session) : Command → CommandTask Unit
  | .add source dest => add s source dest
  | .remove dest yes => remove s dest yes
  | .mark path choices => mark s path choices.dryRun.isSome
  | .summon path choices => summon s path choices
  | .exclude path evict => exclude s path evict
  | .reset path => reset s path
  | .push targets invert diff choices => push s targets invert diff choices
  | .revert targets all choices => revert s targets all choices
  | .setSource dest source => setSource s dest source
  | .status json => status s json
  | .completions shell => Task.print (completionScript shell)

/-- A command with the configuration directory it works on. -/
def executeIn (i : Invocation) (c : Command) : CommandTask Unit := do
  let config ← ofTask (ConfigDir.resolve i.configDir)
  Task.log ⟨.debug, "offsync", "running command", [("config_dir", config.path), ("cmd", c.text)]⟩
  execute ⟨config, i.verbosity⟩ c

/-- What was asked for. Completions need no configuration. -/
def perform (i : Invocation) : CommandTask Unit :=
  match i.command with
  | none => Task.print hintText
  | some (.completions shell) => Task.print (completionScript shell)
  | some c => executeIn i c

/-- The status of a task that was run, with a report if it failed. -/
def statusOf (t : CommandTask Unit) : Program Nat := do
  match ← t.run with
  | .ok () => return 0
  | .error failure =>
    Program.ask (.warn failure.report)
    return failure.status

/-- The status of a run in which nothing is done. -/
def halt : Halt → Program Nat
  | .usage => do
    Program.ask (.warn usageText)
    return 2
  | .help => do
    Program.ask (.print helpText)
    return 0
  | .version => do
    Program.ask (.print versionText)
    return 0

/-- Runs the program with the words after its name. -/
def run (words : List String) : Program Nat := do
  match Invocation.ofWords (← Program.ask (.variable_ configDirVariable)) words with
  | .error h => halt h
  | .ok i =>
    let filter := LogFilter.choose i.verbosity (← Program.ask (.variable_ "RUST_LOG"))
    (statusOf (perform i)).filterLog filter

end SelectiveSync.Cli
