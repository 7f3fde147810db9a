/-! # Texts in TOML

The four ways to write a text: between double or single quotes, on one line or over several.

* `quoted` chooses the first way that shows the text without escapes, or escapes it.
* `basic`, `multiBasic`, `literal` and `multiLiteral` read what stands between the quotes. -/
namespace SelectiveSync.Toml
set_option autoImplicit false

/-! ## Writing -/

/-- A control character other than tab and newline. -/
def isControl (c : Char) : Bool :=
  (c.toNat < 32 && c != '\t' && c != '\n') || c.toNat = 127

/-- Three of a character stand in a row. -/
def hasTriple (q : Char) : List Char → Bool
  | a :: b :: c :: rest => (a = q && b = q && c = q) || hasTriple q (b :: c :: rest)
  | _ => false

def hexFour (n : Nat) : List Char :=
  [n / 4096 % 16, n / 256 % 16, n / 16 % 16, n % 16].map fun d => (Nat.digitChar d).toUpper

/-- A character other than a double quote and a newline as it stands between double quotes. -/
def escaped (c : Char) : List Char :=
  match c with
  | '\x08' => ['\\', 'b']
  | '\t' => ['\\', 't']
  | '\x0c' => ['\\', 'f']
  | '\r' => ['\\', 'r']
  | '\\' => ['\\', '\\']
  | c => if isControl c then '\\' :: 'u' :: hexFour c.toNat else [c]

/-- The inside of a text on one line. -/
def basicBody (s : List Char) : List Char :=
  s.flatMap fun c => if c = '"' then ['\\', '"'] else if c = '\n' then ['\\', 'n'] else escaped c

/-- The inside of a text over several lines, after `quotes` double quotes in a row, of which the
third is escaped. -/
def multiBasicBody (quotes : Nat) : List Char → List Char
  | [] => []
  | c :: rest =>
    if c = '"' then
      if quotes = 2 then '\\' :: '"' :: multiBasicBody 0 rest
      else '"' :: multiBasicBody (quotes + 1) rest
    else if c = '\n' then '\n' :: multiBasicBody 0 rest
    else escaped c ++ multiBasicBody 0 rest

/-- The ways to write a text. -/
inductive Style where
  | basic
  | literal
  | multiBasic
  | multiLiteral
  deriving DecidableEq, Repr

/-- The first way in which a text needs no escapes, and otherwise one in which it may have them. -/
def style (s : List Char) : Style :=
  let control := s.any isControl
  let newline := s.contains '\n'
  if !control && !newline && !s.contains '\\' && !s.contains '"' then .basic
  else if !control && !newline && !s.contains '\'' then .literal
  else if !control && !s.contains '\\' && !hasTriple '"' s then .multiBasic
  else if !control && !hasTriple '\'' s then .multiLiteral
  else if newline then .multiBasic
  else .basic

/-- A text over several lines begins on a line of its own. -/
def opening (quotes : List Char) (s : List Char) : List Char :=
  if s.contains '\n' then quotes ++ ['\n'] else quotes

def written (s : List Char) : Style → List Char
  | .basic => '"' :: basicBody s ++ ['"']
  | .literal => '\'' :: s ++ ['\'']
  | .multiBasic => opening ['"', '"', '"'] s ++ multiBasicBody 0 s ++ ['"', '"', '"']
  | .multiLiteral => opening ['\'', '\'', '\''] s ++ s ++ ['\'', '\'', '\'']

def quoted (s : String) : String :=
  String.ofList (written s.toList (style s.toList))

/-- A character of a key that needs no quotes. -/
def isBare (c : Char) : Bool :=
  c.isAlphanum || c = '_' || c = '-'

/-- A key, which stands on one line whatever is in it. -/
def key (s : String) : String :=
  if s ≠ "" ∧ s.toList.all isBare then s
  else
    let l := s.toList
    let plain := !l.any isControl && !l.contains '\n'
    let way : Style :=
      if plain && (l.contains '\\' || l.contains '"') && !l.contains '\'' then .literal else .basic
    String.ofList (written l way)

/-! ## Reading -/

/-- A character that may stand in a text as it is. -/
def isShown (c : Char) : Bool :=
  c = '\t' || (c.toNat ≥ 32 && c.toNat ≠ 127)

def hexDigit? (c : Char) : Option Nat :=
  if c.isDigit then some (c.toNat - 48)
  else if 'a' ≤ c ∧ c ≤ 'f' then some (c.toNat - 87)
  else if 'A' ≤ c ∧ c ≤ 'F' then some (c.toNat - 55)
  else none

/-- The character of a number in hexadecimal digits. -/
def numbered? (digits : List Char) : Option Char := do
  let n ← digits.foldlM (fun n c => (hexDigit? c).map (n * 16 + ·)) 0
  if n.isValidChar then some (Char.ofNat n) else none

/-- What one letter after a backslash stands for. -/
def escape? (c : Char) : Option Char :=
  match c with
  | 'b' => some '\x08'
  | 't' => some '\t'
  | 'n' => some '\n'
  | 'f' => some '\x0c'
  | 'r' => some '\r'
  | '"' => some '"'
  | '\\' => some '\\'
  | _ => none

/-- A text between double quotes on one line, and what follows the closing quote. -/
def basic : List Char → Option (List Char × List Char)
  | [] => none
  | '"' :: rest => some ([], rest)
  | '\\' :: 'u' :: a :: b :: c :: d :: rest => do
    let x ← numbered? [a, b, c, d]
    let (t, rest) ← basic rest
    return (x :: t, rest)
  | '\\' :: 'U' :: a :: b :: c :: d :: e :: f :: g :: h :: rest => do
    let x ← numbered? [a, b, c, d, e, f, g, h]
    let (t, rest) ← basic rest
    return (x :: t, rest)
  | '\\' :: e :: rest => do
    let x ← escape? e
    let (t, rest) ← basic rest
    return (x :: t, rest)
  | c :: rest => do
    if isShown c ∧ c ≠ '\\' then
      let (t, rest) ← basic rest
      return (c :: t, rest)
    else none

/-- A text between single quotes on one line. -/
def literal : List Char → Option (List Char × List Char)
  | [] => none
  | c :: rest =>
    if c = '\'' then some ([], rest)
    else if isShown c then (literal rest).map fun (t, rest) => (c :: t, rest)
    else none

/-- The newline at the front of a text, if there is one. -/
def newline? : List Char → Option (List Char)
  | '\n' :: rest => some rest
  | '\r' :: '\n' :: rest => some rest
  | _ => none

/-- What follows the newline right after an opening of three quotes. -/
def afterOpening (s : List Char) : List Char :=
  (newline? s).getD s

def isGap (c : Char) : Bool :=
  c = ' ' || c = '\t'

/-- The three quotes that close a text, and up to two before them that belong to it. -/
def closing? (q : Char) (s : List Char) : Option (List Char × List Char) :=
  let run := (s.takeWhile (· = q)).length
  if run < 3 then none
  else some (List.replicate (min (run - 3) 2) q, s.drop (min run 5))

/-- A text over several lines between three double quotes. A backslash at the end of a line takes
the newline away and joins the text to what follows all blanks and newlines after it. -/
def multiBasic (joining : Bool) : List Char → Option (List Char × List Char)
  | [] => none
  | '\\' :: 'u' :: a :: b :: c :: d :: rest => do
    let x ← numbered? [a, b, c, d]
    let (t, rest) ← multiBasic false rest
    return (x :: t, rest)
  | '\\' :: 'U' :: a :: b :: c :: d :: e :: f :: g :: h :: rest => do
    let x ← numbered? [a, b, c, d, e, f, g, h]
    let (t, rest) ← multiBasic false rest
    return (x :: t, rest)
  | '\\' :: e :: rest => do
    if (newline? ((e :: rest).dropWhile isGap)).isSome then multiBasic true (e :: rest)
    else
      let x ← escape? e
      let (t, rest) ← multiBasic false rest
      return (x :: t, rest)
  | c :: rest => do
    if joining ∧ (isGap c ∨ c = '\n') then multiBasic true rest
    else if c = '\r' ∧ rest.head? = some '\n' then multiBasic joining rest
    else match closing? '"' (c :: rest) with
      | some closed => some closed
      | none =>
        if (isShown c ∧ c ≠ '\\') ∨ c = '\n' then
          let (t, rest) ← multiBasic false rest
          return (c :: t, rest)
        else none

/-- A text over several lines between three single quotes. -/
def multiLiteral : List Char → Option (List Char × List Char)
  | [] => none
  | c :: rest =>
    match closing? '\'' (c :: rest) with
    | some closed => some closed
    | none =>
      if c = '\r' ∧ rest.head? = some '\n' then multiLiteral rest
      else if isShown c ∨ c = '\n' then
        (multiLiteral rest).map fun (t, rest) => (c :: t, rest)
      else none

/-- A text with its quotes at the front of `s`. -/
def text? : List Char → Option (List Char × List Char)
  | '"' :: '"' :: '"' :: rest => multiBasic false (afterOpening rest)
  | '"' :: rest => basic rest
  | '\'' :: '\'' :: '\'' :: rest => multiLiteral (afterOpening rest)
  | '\'' :: rest => literal rest
  | _ => none

end SelectiveSync.Toml
