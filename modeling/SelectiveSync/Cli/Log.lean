import SelectiveSync.System.Program
import SelectiveSync.Text.Split

/-! # What is logged

A `LogFilter` gives a threshold to the parts of the program whose names begin in some way; the
longest such beginning decides. `LogFilter.parse?` reads one, `Program.filterLog` puts one into
effect and `Event.line` writes an event. -/
namespace SelectiveSync
set_option autoImplicit false

namespace Level

def rank : Level → Nat
  | trace => 0
  | debug => 1
  | info => 2
  | warn => 3
  | error => 4

def text : Level → String
  | trace => "TRACE"
  | debug => "DEBUG"
  | info => "INFO"
  | warn => "WARN"
  | error => "ERROR"

end Level

namespace Event

def line (e : Event) : String :=
  e.level.text ++ " " ++ e.part ++ ": " ++ e.message
    ++ String.join (e.fields.map fun (k, v) => " " ++ k ++ "=" ++ v)

end Event

/-- The least severe level that is shown, or none if nothing is. -/
abbrev Threshold := Option Level

namespace Threshold

def shows (t : Threshold) (l : Level) : Bool :=
  match t with
  | none => false
  | some least => least.rank ≤ l.rank

def ofText? (s : String) : Option Threshold :=
  match s.toLower with
  | "off" | "0" => some none
  | "error" | "1" => some (some .error)
  | "warn" | "2" => some (some .warn)
  | "info" | "3" => some (some .info)
  | "debug" | "4" => some (some .debug)
  | "trace" | "5" => some (some .trace)
  | _ => none

end Threshold

/-- Beginnings of names with the thresholds for them. The empty one stands for every part. -/
structure LogFilter where
  rules : List (String × Threshold)
  deriving Repr

namespace LogFilter

/-- One rule is better than another if its beginning is longer, or if it is as long and came
later. -/
def better (best : Option (String × Threshold)) (rule : String × Threshold) :
    Option (String × Threshold) :=
  match best with
  | none => some rule
  | some b => if b.1.length ≤ rule.1.length then some rule else some b

/-- The threshold for a part of the program. -/
def threshold (f : LogFilter) (part : String) : Threshold :=
  let fitting := f.rules.filter fun r => r.1.toList.isPrefixOf part.toList
  match fitting.foldl better none with
  | none => none
  | some r => r.2

def allows (f : LogFilter) (e : Event) : Bool :=
  (f.threshold e.part).shows e.level

/-! ## Reading -/

def isNameChar (c : Char) : Bool :=
  c.isAlphanum || c = '_' || c = ':' || c = '-'

/-- A level by itself, a name by itself, or a name with a level. -/
def parseRule? (s : String) : Option (String × Threshold) :=
  match Threshold.ofText? s, Text.pieces '=' s with
  | some t, _ => some ("", t)
  | none, [name] => if name.toList.all isNameChar then some (name, some .trace) else none
  | none, [name, level] =>
    if name ≠ "" ∧ name.toList.all isNameChar then
      (if level = "" then some (some .trace) else Threshold.ofText? level).map (name, ·)
    else none
  | none, _ => none

/-- Rules with a comma between each two. Without any, errors are shown. -/
def parse? (s : String) : Option LogFilter :=
  match ((Text.pieces ',' s).filter (· ≠ "")).mapM parseRule? with
  | none => none
  | some [] => some ⟨[("", some .error)]⟩
  | some rules => some ⟨rules⟩

/-- Warnings from everywhere. -/
def standard : LogFilter :=
  ⟨[("", some .warn)]⟩

/-- Warnings from everywhere, and more from the program's own parts. -/
def own (l : Level) : LogFilter :=
  ⟨("", some .warn) :: ["offsync_cli", "offsync_core", "offsync_fs"].map (·, some l)⟩

/-- The filter for a number of requests for more, or else what a variable says. -/
def choose (verbosity : Nat) (variable_ : Option String) : LogFilter :=
  match verbosity with
  | 0 => (variable_.bind parse?).getD standard
  | 1 => own .debug
  | _ => own .trace

end LogFilter

namespace Program

/-- The program without the events that a filter does not allow. -/
def filterLog {α : Type} (f : LogFilter) : Program α → Program α
  | done a => done a
  | call c next =>
    let rest := fun r => (next r).filterLog f
    match c, rest with
    | .log e, rest => if f.allows e then call (.log e) rest else rest ()
    | c, rest => call c rest

end Program
end SelectiveSync
