import SelectiveSync.Format.Decimal

/-! # Texts in YAML

Which characters of a YAML text mean something, how lines are folded, and how a text is written so
that it is read as a text again: plain where nothing in it could be taken for anything else, between
quotes, or as a block of lines. -/
namespace SelectiveSync.Yaml
set_option autoImplicit false

/-! ## Characters -/

def isGap (c : Char) : Bool :=
  c = ' ' || c = '\t'

def isBreak (c : Char) : Bool :=
  c = '\n' || c = '\r' || c = '\x85' || c = '\u2028' || c = '\u2029'

/-- The text ends here or goes on with a blank or a new line. -/
def atGap : List Char → Bool
  | [] => true
  | c :: _ => isGap c || isBreak c

/-- The line break at the front of a text as it counts, and what follows it. -/
def break? : List Char → Option (Char × List Char)
  | '\r' :: '\n' :: rest => some ('\n', rest)
  | c :: rest =>
    if c = '\n' ∨ c = '\r' ∨ c = '\x85' then some ('\n', rest)
    else if isBreak c then some (c, rest)
    else none
  | [] => none

/-- A character that may occur in a document at all. -/
def isAllowed (c : Char) : Bool :=
  let n := c.toNat
  c = '\t' || c = '\n' || c = '\r' || (0x20 ≤ n && n ≤ 0x7e) || n = 0x85 ||
    (0xa0 ≤ n && n ≠ 0xfffe && n ≠ 0xffff)

/-- What blanks and line breaks within a text stand for: blanks for themselves, one line break for
a blank, and several for all of them but the first. -/
def folded (blanks breaks : List Char) : List Char :=
  match breaks with
  | [] => blanks
  | ['\n'] => [' ']
  | '\n' :: more => more
  | breaks => breaks

/-! ## Words that are no texts -/

/-- Words that some readers take for a truth value. -/
def truthWords : List String :=
  ["y", "Y", "yes", "Yes", "YES", "n", "N", "no", "No", "NO", "true", "True", "TRUE", "false",
    "False", "FALSE", "on", "On", "ON", "off", "Off", "OFF"]

def nullWords : List String :=
  ["", "null", "Null", "NULL", "~"]

def isHex (c : Char) : Bool :=
  c.isDigit || ('a' ≤ c && c ≤ 'f') || ('A' ≤ c && c ≤ 'F')

def unsignedPart : List Char → List Char
  | '+' :: rest => rest
  | '-' :: rest => rest
  | s => s

/-- An integer with a base of its own. -/
def isBased (s : List Char) : Bool :=
  match unsignedPart s with
  | '0' :: 'x' :: d => d ≠ [] && d.length ≤ 32 && d.all isHex
  | '0' :: 'o' :: d => d ≠ [] && d.length ≤ 42 && d.all fun c => '0' ≤ c && c ≤ '7'
  | '0' :: 'b' :: d => d ≠ [] && d.length ≤ 128 && d.all fun c => c = '0' || c = '1'
  | _ => false

/-- A decimal number, perhaps with a point and an exponent, within the range of floats. -/
def isDecimal (s : List Char) : Bool :=
  let body := unsignedPart s
  let whole := body.takeWhile Char.isDigit
  let rest := body.drop whole.length
  let (places, rest) :=
    match rest with
    | '.' :: rest => (rest.takeWhile Char.isDigit, rest.dropWhile Char.isDigit)
    | rest => ([], rest)
  let exponent :=
    match rest with
    | [] => some ['0']
    | e :: rest =>
      let digits := unsignedPart rest
      if (e = 'e' ∨ e = 'E') ∧ digits ≠ [] ∧ digits.all Char.isDigit then some digits else none
  let isDown := (rest.drop 1).head? = some '-'
  match exponent with
  | some e =>
    (whole ≠ [] || places ≠ []) &&
      Decimal.isFinite (Decimal.natOf (whole ++ places)) places.length isDown (Decimal.natOf e)
  | none => false

/-- The text reads as something other than a text, if it stands alone without quotes. -/
def isWord (s : String) : Bool :=
  truthWords.contains s || nullWords.contains s || isBased s.toList || isDecimal s.toList ||
    [".inf", ".Inf", ".INF", "+.inf", "+.Inf", "+.INF", "-.inf", "-.Inf", "-.INF", ".nan", ".NaN",
      ".NAN"].contains s

/-! ## Ways to write a text -/

/-- A character that shows when it is written as it is. -/
def isShown (c : Char) : Bool :=
  let n := c.toNat
  c = '\n' || (0x20 ≤ n && n ≤ 0x7e) || (0xa0 ≤ n && n < 0xfffe && n ≠ 0xfeff)

/-- A character with which no plain text begins. -/
def isIndicator (c : Char) : Bool :=
  "#,[]{}&*!|>'\"%@`".toList.contains c

/-- Somewhere after the first character, a plain text would end or become a key. -/
def endsInside : Char → List Char → Bool
  | _, [] => false
  | before, c :: rest =>
    (c = ':' && atGap rest) || (c = '#' && (isGap before || isBreak before)) || endsInside c rest

/-- The text could not be read back if it stood without quotes outside brackets. -/
def needsQuotes (s : List Char) : Bool :=
  match s with
  | [] => false
  | c :: rest =>
    ['-', '-', '-'].isPrefixOf s || ['.', '.', '.'].isPrefixOf s || isIndicator c ||
      ((c = '?' || c = ':' || c = '-') && atGap rest) || endsInside c rest

/-- One kind of character directly follows another. -/
def follows (p q : Char → Bool) : List Char → Bool
  | a :: b :: rest => (p a && q b) || follows p q (b :: rest)
  | _ => false

inductive Style where
  | plain
  | single
  | double
  | literal
  deriving DecidableEq, Repr

/-- The way in which a text is written, as a key on the line of its value or elsewhere. -/
def style (isKey : Bool) (text : String) : Style :=
  let s := text.toList
  let isSpace (c : Char) := c = ' '
  let hidden := s.any (!isShown ·) || follows isSpace isBreak s
  let multiline := s.any isBreak
  let edge (c : Option Char) : Bool := c.any fun c => isSpace c || isBreak c
  if s.contains '\n' then
    if hidden || s.getLast? = some ' ' || isKey then .double else .literal
  else if hidden || follows isBreak isSpace s || (isKey && multiline) then .double
  else if isWord text || multiline || needsQuotes s || edge s.head? || edge s.getLast? then .single
  else .plain

def hexUpper (width n : Nat) : List Char :=
  let digits := (Nat.toDigits 16 n).map Char.toUpper
  List.replicate (width - digits.length) '0' ++ digits

/-- A character as it stands between double quotes. -/
def escaped (c : Char) : List Char :=
  match c with
  | '\x00' => ['\\', '0']
  | '\x07' => ['\\', 'a']
  | '\x08' => ['\\', 'b']
  | '\t' => ['\\', 't']
  | '\n' => ['\\', 'n']
  | '\x0b' => ['\\', 'v']
  | '\x0c' => ['\\', 'f']
  | '\r' => ['\\', 'r']
  | '\x1b' => ['\\', 'e']
  | '"' => ['\\', '"']
  | '\\' => ['\\', '\\']
  | '\x85' => ['\\', 'N']
  | '\u2028' => ['\\', 'L']
  | '\u2029' => ['\\', 'P']
  | c =>
    let n := c.toNat
    if isShown c then [c]
    else if n < 0x100 then '\\' :: 'x' :: hexUpper 2 n
    else if n < 0x10000 then '\\' :: 'u' :: hexUpper 4 n
    else '\\' :: 'U' :: hexUpper 8 n

/-- The head of a block of lines: whether its indentation has to be told, and what becomes of the
line breaks at its end. -/
def literalHead (s : List Char) : List Char :=
  let indentation := match s with
    | c :: _ => if c = ' ' || isBreak c then ['2'] else []
    | [] => []
  let ending := match s.reverse with
    | a :: b :: _ => if !isBreak a then ['-'] else if isBreak b then ['+'] else []
    | [a] => if isBreak a then ['+'] else ['-']
    | [] => ['-']
  '|' :: indentation ++ ending

/-- The lines of a block, each that is not empty at an indentation. -/
def literalLines (indent : Nat) (s : List Char) : List Char :=
  let body := if s.getLast? = some '\n' then s.dropLast else s
  (body.splitOn '\n').flatMap fun line =>
    '\n' :: if line = [] then [] else List.replicate indent ' ' ++ line

/-- A text in a way that reads it back, with the lines of a block at an indentation. -/
def written (isKey : Bool) (indent : Nat) (text : String) : String :=
  let s := text.toList
  match style isKey text with
  | .plain => text
  | .single =>
    String.ofList ('\'' :: (s.flatMap fun c => if c = '\'' then ['\'', '\''] else [c]) ++ ['\''])
  | .double => String.ofList ('"' :: s.flatMap escaped ++ ['"'])
  | .literal => String.ofList (literalHead s ++ literalLines indent s)

end SelectiveSync.Yaml
