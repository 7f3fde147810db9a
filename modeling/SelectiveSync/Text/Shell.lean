/-! # Words of a command line

Arguments written so that a POSIX shell reads them back: plain words stand as they are, all others
between single quotes, with each single quote in them written outside the quotes. -/
namespace SelectiveSync.Text
set_option autoImplicit false

/-- The character means nothing special to a shell. -/
def isPlain (c : Char) : Bool :=
  c.isAlphanum || "-_./:=@,+%".toList.contains c

/-- A single quote ends the quoted stretch, stands escaped, and begins a new one. -/
def singleQuotedChar (c : Char) : List Char :=
  if c = '\'' then ['\'', '\\', '\'', '\''] else [c]

/-- An argument as one word. -/
def shellWord (s : String) : String :=
  if s ≠ "" ∧ s.toList.all isPlain then s
  else String.ofList ('\'' :: s.toList.flatMap singleQuotedChar ++ ['\''])

/-- Arguments as a line, a space between each two. -/
def commandLine (args : List String) : String :=
  " ".intercalate (args.map shellWord)

end SelectiveSync.Text
