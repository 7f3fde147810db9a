import SelectiveSync.Text.Split

/-! # Normalized paths

A path reduced to where it starts and the names that lead on from there. Backslashes count as
slashes; `.` and empty parts mean nothing and `..` takes back the name before it, if there is one.
The reduction looks at the text alone, never at a file system.

* `NormalPath.ofText` reduces a text and `NormalPath.text` writes a path.
* `join`, `parent?`, `fileName?` and `extension?` work on the names.
* `relativeTo?` compares the written forms, so that `within` also holds between a path that starts
  at the root and the empty path. -/
namespace SelectiveSync
set_option autoImplicit false

/-- Where a path starts: nowhere in particular, at the root, or at a network share (`//`). -/
inductive Anchor where
  | relative
  | absolute
  | network
  deriving DecidableEq, Repr, Inhabited

namespace Anchor

def text : Anchor → String
  | relative => ""
  | absolute => "/"
  | network => "//"

/-- Two slashes at the start name a share; three or more mean the root. -/
def ofChars : List Char → Anchor
  | '/' :: '/' :: '/' :: _ => absolute
  | '/' :: '/' :: _ => network
  | '/' :: _ => absolute
  | _ => relative

end Anchor

structure NormalPath where
  anchor : Anchor
  names : List String
  deriving DecidableEq, Repr, Inhabited

namespace NormalPath

/-- One part of a path read after the names so far. -/
def push (names : List String) (part : String) : List String :=
  if part = "" ∨ part = "." then names
  else if part = ".." then names.dropLast
  else names ++ [part]

/-- The parts of a path read one after the other. -/
def resolve (names parts : List String) : List String :=
  parts.foldl push names

/-- The parts of a text, with backslashes counting as slashes. -/
def parts (s : String) : List String :=
  Text.pieces '/' (Text.swap '\\' '/' s)

def ofText (s : String) : NormalPath where
  anchor := Anchor.ofChars (Text.swap '\\' '/' s).toList
  names := resolve [] (parts s)

def text (p : NormalPath) : String :=
  p.anchor.text ++ Text.joined '/' p.names

instance : ToString NormalPath := ⟨text⟩

/-- The path continued by `segment`. A path without names is continued as text, so that a slash at
the start of the segment counts together with those already there. -/
def join (p : NormalPath) (segment : String) : NormalPath :=
  if segment = "" ∨ segment = "." then p
  else if p.names = [] then ofText (p.anchor.text ++ segment)
  else { p with names := resolve p.names (parts segment) }

/-- The enclosing path. What encloses a network share is the root. -/
def parent? (p : NormalPath) : Option NormalPath :=
  match p.names with
  | [] => none
  | [_] => if p.anchor = .relative then none else some ⟨.absolute, []⟩
  | _ => some { p with names := p.names.dropLast }

def fileName? (p : NormalPath) : Option String :=
  p.names.getLast?

/-- What follows the last dot of the file name, unless the name has no dot or only one at its
start. -/
def extension? (p : NormalPath) : Option String := do
  let name ← p.fileName?
  let (tail, head) := name.toList.reverse.span (· ≠ '.')
  if head.length ≤ 1 then none else some (String.ofList tail.reverse)

/-- The text by which every path strictly within `base` starts. -/
def stem (base : NormalPath) : String :=
  if Text.endsWith '/' base.text then base.text else base.text ++ "/"

/-- The way from `base` to the path: empty if they are equal, none if the path is not within. -/
def relativeTo? (p base : NormalPath) : Option String :=
  if p.text = base.text then some "" else Text.dropStart? base.stem p.text

/-- The path is `base` or lies beneath it. -/
def within (p base : NormalPath) : Bool :=
  (p.relativeTo? base).isSome

end NormalPath
end SelectiveSync
