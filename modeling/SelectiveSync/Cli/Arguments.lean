import SelectiveSync.Cli.Command
import SelectiveSync.Cli.Option

/-! # The words of the command line

`Invocation.ofWords` reads what was asked for off the words after the program's name. The words
before the verb and those after it are each scanned for the options that are allowed there. -/
namespace SelectiveSync.Cli
set_option autoImplicit false

/-- Why nothing is run: the words make no sense, or ask only about the program itself. -/
inductive Halt where
  | usage
  | help
  | version
  deriving DecidableEq, Repr

/-! ## Scanning -/

/-- What was found among some words: options with their values, other words in order, and what
follows a verb if there is one. -/
structure Scan where
  given : List (Opt × String) := []
  words : List String := []
  verb : Option (Verb × List String) := none
  deriving DecidableEq, Repr

namespace Scan

def has (s : Scan) (o : Opt) : Bool :=
  s.given.any fun g => g.1 = o

def values (s : Scan) (o : Opt) : List String :=
  s.given.filterMap fun g => if g.1 = o then some g.2 else none

def value? (s : Scan) (o : Opt) : Option String :=
  (s.values o).head?

/-- One more option. -/
def give (s : Scan) (o : Opt) (value : String) : Except Halt Scan :=
  if o = .help then .error .help
  else if o = .version then .error .version
  else if (s.has o ∧ ¬ o.repeats) ∨ ¬ o.accepts value then .error .usage
  else .ok { s with given := s.given ++ [(o, value)] }

end Scan

/-- A word as it is written: an option by its name with what is attached to it, options by their
letters, the mark after which no more options come, or a word by itself. -/
inductive Written where
  | long (name : String) (value : Option String)
  | letters (cs : List Char)
  | endOfOptions
  | plain
  deriving DecidableEq, Repr

namespace Written

/-- A name up to the first equals sign, and what follows the sign. -/
def ofName (cs : List Char) : Written :=
  let name := cs.takeWhile (· ≠ '=')
  match cs.drop name.length with
  | [] => long (String.ofList name) none
  | _ :: value => long (String.ofList name) (some (String.ofList value))

def ofWord (w : String) : Written :=
  match w.toList with
  | ['-', '-'] => endOfOptions
  | '-' :: '-' :: cs => ofName cs
  | '-' :: c :: cs => letters (c :: cs)
  | _ => plain

end Written

/-- Letters are read one by one. An equals sign attaches the rest to the letter before it. -/
def scanLetters (allowed : List Opt) (s : Scan) : List Char → Except Halt Scan
  | [] => .ok s
  | c :: rest =>
    match allowed.find? fun o => o.short? = some c with
    | none => .error .usage
    | some o =>
      match o.takes, rest with
      | .attached _, '=' :: value => s.give o (String.ofList value)
      | .attached otherwise, rest => do scanLetters allowed (← s.give o otherwise) rest
      | .nothing, rest => do scanLetters allowed (← s.give o "") rest
      | _, _ => .error .usage

/-- Help may be asked for on one verb, or on all. -/
def helpOn : List String → Halt
  | [] => .help
  | [w] => if w = "help" ∨ (Verb.ofName? w).isSome then .help else .usage
  | _ => .usage

/-- Scans words up to a verb, if verbs are looked for, or else to their end. -/
def scan (allowed : List Opt) (verbs : Bool) (s : Scan) : List String → Except Halt Scan
  | [] => .ok s
  | w :: rest =>
    match Written.ofWord w with
    | .endOfOptions =>
      if verbs ∧ rest ≠ [] then .error .usage else .ok { s with words := s.words ++ rest }
    | .letters cs => do scan allowed verbs (← scanLetters allowed s cs) rest
    | .plain =>
      if verbs then
        match Verb.ofName? w with
        | some v => .ok { s with verb := some (v, rest) }
        | none => .error (if w = "help" then helpOn rest else .usage)
      else scan allowed verbs { s with words := s.words ++ [w] } rest
    | .long name attached =>
      match allowed.find? fun o => o.names.contains name with
      | none => .error .usage
      | some o =>
        match o.takes, attached, rest with
        | .nothing, none, rest => do scan allowed verbs (← s.give o "") rest
        | .nothing, some _, _ => .error .usage
        | .attached otherwise, attached, rest => do
          scan allowed verbs (← s.give o (attached.getD otherwise)) rest
        | _, some value, rest => do scan allowed verbs (← s.give o value) rest
        | _, none, [] => .error .usage
        | takes, none, value :: rest =>
          if takes = .word ∧ Written.ofWord value ≠ .plain then .error .usage
          else do scan allowed verbs (← s.give o value) rest

/-! ## Commands -/

/-- A path is not empty. -/
def path? (s : String) : Option String :=
  if s = "" then none else some s

namespace TransferChoices

def ofScan (s : Scan) : TransferChoices where
  dryRun := (s.value? .dryRun).bind fun text => (DryRun.parse text).toOption
  rsync := s.values .rsync

end TransferChoices

namespace Command

def ofScan? (v : Verb) (s : Scan) : Option Command :=
  let transfer := TransferChoices.ofScan s
  match v, s.words with
  | .add, [source, dest] => (path? dest).map (add source)
  | .remove, [dest] => (path? dest).map (remove · (s.has .yes))
  | .mark, [path] => (path? path).map (mark · transfer)
  | .summon, [path] => (path? path).map (summon · transfer)
  | .exclude, [path] => (path? path).map (exclude · (s.has .evict))
  | .reset, [path] => (path? path).map reset
  | .push, paths =>
    (paths.mapM path?).map fun targets => push targets (s.has .invert) (s.has .diff) transfer
  | .revert, paths => (paths.mapM path?).map fun targets => revert targets (s.has .all) transfer
  | .setSource, [dest, source] => (path? dest).map (setSource · source)
  | .status, [] => some (status (s.has .json))
  | .completions, [shell] => (Shell.ofName? shell).map completions
  | _, _ => none

end Command

/-! ## Invocations -/

structure Invocation where
  verbosity : Nat
  /-- The directory that was asked for in so many words. -/
  configDir : Option String
  command : Option Command
  deriving DecidableEq, Repr

namespace Invocation

/-- The variable for the configuration directory may be missing, but not empty where it counts. -/
def checkVariable (variable_ : Option String) (s : Scan) : Except Halt Unit :=
  if variable_ = some "" ∧ ¬ s.has .configDir then .error .usage else .ok ()

/-- What some words ask for. What stands after the verb goes before what stands ahead of it. -/
def ofWords (variable_ : Option String) (words : List String) : Except Halt Invocation := do
  let outer ← scan (.version :: commonOptions) true {} words
  match outer.verb with
  | none =>
    checkVariable variable_ outer
    return ⟨(outer.values .verbose).length, outer.value? .configDir, none⟩
  | some (v, rest) =>
    let inner ← scan (v.options ++ commonOptions) false {} rest
    match Command.ofScan? v inner with
    | none => throw .usage
    | some command =>
      checkVariable variable_ inner
      checkVariable variable_ outer
      let s := if inner.has .verbose then inner else outer
      return ⟨(s.values .verbose).length, (inner.value? .configDir).or (outer.value? .configDir),
        some command⟩

end Invocation
end SelectiveSync.Cli
