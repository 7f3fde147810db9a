import SelectiveSync.Transfer.Options

/-! # Options and verbs

The options of the command line with their names and what they take, and the verbs with the options
that each of them allows. -/
namespace SelectiveSync.Cli
set_option autoImplicit false

inductive Opt where
  | verbose
  | configDir
  | help
  | version
  | yes
  | dryRun
  | rsync
  | evict
  | invert
  | diff
  | all
  | json
  deriving DecidableEq, Repr

/-- What an option takes: nothing, the next word unless that looks like an option, the next word
whatever it is, or only what is attached to it by an equals sign. -/
inductive Takes where
  | nothing
  | word
  | anyWord
  | attached (otherwise : String)
  deriving DecidableEq, Repr

namespace Opt

def short? : Opt → Option Char
  | verbose => some 'v'
  | help => some 'h'
  | version => some 'V'
  | yes => some 'y'
  | dryRun => some 'n'
  | _ => none

/-- The names after two hyphens. The first is the usual one. -/
def names : Opt → List String
  | verbose => ["verbose"]
  | configDir => ["config-dir"]
  | help => ["help"]
  | version => ["version"]
  | yes => ["yes"]
  | dryRun => ["dry-run"]
  | rsync => ["rsync"]
  | evict => ["evict", "delete"]
  | invert => ["not"]
  | diff => ["diff"]
  | all => ["all"]
  | json => ["json"]

def takes : Opt → Takes
  | configDir => .word
  | rsync => .anyWord
  | dryRun => .attached DryRun.default.text
  | _ => .nothing

/-- The option may be given more than once. -/
def repeats : Opt → Bool
  | verbose | rsync => true
  | _ => false

/-- The value is one that the option can have. -/
def accepts (o : Opt) (value : String) : Bool :=
  match o with
  | configDir => value ≠ ""
  | dryRun => (DryRun.parse value).toBool
  | _ => true

end Opt

inductive Verb where
  | add
  | remove
  | mark
  | summon
  | exclude
  | reset
  | push
  | revert
  | setSource
  | status
  | completions
  deriving DecidableEq, Repr

namespace Verb

def name : Verb → String
  | add => "add"
  | remove => "remove"
  | mark => "include"
  | summon => "summon"
  | exclude => "exclude"
  | reset => "reset"
  | push => "push"
  | revert => "revert"
  | setSource => "set-source"
  | status => "status"
  | completions => "completions"

def all : List Verb :=
  [add, remove, mark, summon, exclude, reset, push, revert, setSource, status, completions]

/-- The verb of a word. Status has a second name. -/
def ofName? (s : String) : Option Verb :=
  if s = "list" then some status else all.find? fun v => v.name = s

/-- The options of a verb, beside those that stand anywhere. -/
def options : Verb → List Opt
  | remove => [.yes]
  | mark | summon => [.dryRun, .rsync]
  | exclude => [.evict]
  | push => [.invert, .diff, .dryRun, .rsync]
  | revert => [.all, .dryRun, .rsync]
  | status => [.json]
  | _ => []

end Verb

/-- The options that stand before a verb or after it. -/
def commonOptions : List Opt :=
  [.verbose, .configDir, .help]

end SelectiveSync.Cli
