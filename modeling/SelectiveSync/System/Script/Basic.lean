/-! # Scripts

Programs in the language of the shell, as far as one needs it to stand in for a transfer program:
words with quotes and variables, lists, conditions, loops, choices by pattern and redirections. -/
namespace SelectiveSync.Script
set_option autoImplicit false

/-- Which end of a value is cut off where it matches a pattern, and whether as much as possible. -/
structure Cut where
  atStart : Bool
  longest : Bool
  deriving DecidableEq, Repr

inductive Piece where
  | text (s : String) (quoted : Bool)
  | value (name : String) (quoted : Bool)
  /-- A value without what a pattern matches at one of its ends. -/
  | cutValue (name : String) (cut : Cut) (pattern : List Piece) (quoted : Bool)
  /-- A value, or something else where it is empty. -/
  | valueOr (name : String) (otherwise : List Piece) (quoted : Bool)
  deriving Inhabited

abbrev Word := List Piece

inductive Redirect where
  | input (file : Word)
  | output (fd : Nat) (append : Bool) (file : Word)
  /-- One output goes where another one goes. -/
  | same (fd other : Nat)

inductive Command where
  | skip
  | simple (assignments : List (String × Word)) (words : List Word)
  | andThen (first second : Command)
  /-- The second only if the first succeeds. -/
  | both (first second : Command)
  /-- The second only if the first fails. -/
  | either (first second : Command)
  | ifElse (condition yes no : Command)
  | while_ (condition body : Command)
  /-- Without words, the arguments of the script are taken. -/
  | forEach (name : String) (words : Option (List Word)) (body : Command)
  /-- One arm of a choice, and all arms after it. -/
  | choice (word : Word) (patterns : List Word) (body otherwise : Command)
  | not_ (c : Command)
  | redirected (c : Command) (redirects : List Redirect)

end SelectiveSync.Script
