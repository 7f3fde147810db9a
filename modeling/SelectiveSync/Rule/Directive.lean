import SelectiveSync.Text.Split

/-! # Filter directives

One line of a transfer program's filter, in which the first line that matches decides.

* `Directive.text` writes a directive for people and `Directive.anchored` for the program, with the
  pattern tied to the root of the transfer and wildcards in names made literal.
* `Directive.ambient` closes every list: what nothing else matched is left out. -/
namespace SelectiveSync
set_option autoImplicit false

inductive Polarity where
  | included
  | excluded
  deriving DecidableEq, Repr

namespace Polarity

def sign : Polarity → String
  | included => "+"
  | excluded => "-"

end Polarity

/-- What a pattern matches: the directory at its path, everything directly inside it, or whatever
is at it. -/
inductive Scope where
  | directory
  | contents
  | exact
  deriving DecidableEq, Repr

namespace Scope

def ending : Scope → String
  | directory => "/"
  | contents => "/*"
  | exact => ""

end Scope

structure Directive where
  polarity : Polarity
  scope : Scope
  path : String
  deriving DecidableEq, Repr

namespace Directive

/-- Everything at the root of the transfer is left out. -/
def ambient : Directive :=
  ⟨.excluded, .contents, ""⟩

def pattern (d : Directive) : String :=
  d.path ++ d.scope.ending

def text (d : Directive) : String :=
  d.polarity.sign ++ " " ++ d.pattern

instance : ToString Directive := ⟨text⟩

def isWildcard (c : Char) : Bool :=
  c = '*' || c = '?' || c = '['

/-- Wildcards and backslashes preceded by a backslash. -/
def escaped (path : String) : String :=
  String.ofList (path.toList.flatMap fun c =>
    if c = '\\' || isWildcard c then ['\\', c] else [c])

/-- A pattern is read as one with wildcards if it holds any, and a backslash means something only
there. -/
def hasWildcards (d : Directive) : Bool :=
  d.scope = .contents || d.path.toList.any isWildcard

def anchored (d : Directive) : String :=
  if d.path = "" then d.text
  else
    d.polarity.sign ++ " /" ++ (if d.hasWildcards then escaped d.path else d.path)
      ++ d.scope.ending

end Directive
end SelectiveSync
