import SelectiveSync.Format.Decode

/-! # Reading JSON

`Json.read` reads a text that holds one JSON value. Texts and keys whose escapes do not give
characters are allowed where they do not matter, so they are read as values of no use. -/
namespace SelectiveSync.Json
set_option autoImplicit false

def isBlank (c : Char) : Bool :=
  c = ' ' || c = '\n' || c = '\t' || c = '\r'

def skip (s : List Char) : List Char :=
  s.dropWhile isBlank

/-! ## Texts -/

def hexDigit? (c : Char) : Option Nat :=
  if c.isDigit then some (c.toNat - 48)
  else if 'a' ≤ c ∧ c ≤ 'f' then some (c.toNat - 87)
  else if 'A' ≤ c ∧ c ≤ 'F' then some (c.toNat - 55)
  else none

def hex? (digits : List Char) : Option Nat :=
  digits.foldlM (fun n c => (hexDigit? c).map (n * 16 + ·)) 0

/-- What one letter after a backslash stands for. -/
def escape? (c : Char) : Option Char :=
  match c with
  | '"' => some '"'
  | '\\' => some '\\'
  | '/' => some '/'
  | 'b' => some '\x08'
  | 'f' => some '\x0c'
  | 'n' => some '\n'
  | 'r' => some '\r'
  | 't' => some '\t'
  | _ => none

/-- A text as it is written: characters and numbered units of 16 bits. -/
inductive Piece where
  | char (c : Char)
  | unit (n : Nat)
  deriving DecidableEq, Repr

/-- The pieces up to the closing quote and what follows it. -/
def pieces : List Char → Option (List Piece × List Char)
  | [] => none
  | '"' :: rest => some ([], rest)
  | '\\' :: 'u' :: a :: b :: c :: d :: rest => do
    let n ← hex? [a, b, c, d]
    let (more, rest) ← pieces rest
    return (.unit n :: more, rest)
  | '\\' :: e :: rest => do
    let c ← escape? e
    let (more, rest) ← pieces rest
    return (.char c :: more, rest)
  | c :: rest => do
    if c.toNat < 32 ∨ c = '\\' then none
    else
      let (more, rest) ← pieces rest
      return (.char c :: more, rest)

/-- The characters of the pieces. Beyond the first 65536, a character takes two units, the one
holding its upper and the other its lower ten bits. -/
def chars? : List Piece → Option (List Char)
  | [] => some []
  | .char c :: rest => (chars? rest).map (c :: ·)
  | .unit a :: .unit b :: rest =>
    if 0xd800 ≤ a ∧ a < 0xdc00 then
      if 0xdc00 ≤ b ∧ b < 0xe000 then
        (chars? rest).map (Char.ofNat (0x10000 + (a - 0xd800) * 1024 + (b - 0xdc00)) :: ·)
      else none
    else if 0xdc00 ≤ a ∧ a < 0xe000 then none
    else (chars? (.unit b :: rest)).map (Char.ofNat a :: ·)
  | .unit a :: rest =>
    if 0xd800 ≤ a ∧ a < 0xe000 then none else (chars? rest).map (Char.ofNat a :: ·)

/-- A text after its opening quote, where its pieces give one. -/
def string (s : List Char) : Option (Option String × List Char) := do
  let (ps, rest) ← pieces s
  return ((chars? ps).map String.ofList, rest)

/-! ## Numbers -/

/-- At least one digit. -/
def digits? (s : List Char) : Option (List Char) :=
  match s with
  | c :: rest => if c.isDigit then some (rest.dropWhile Char.isDigit) else none
  | [] => none

def fraction? : List Char → Option (List Char)
  | '.' :: rest => digits? rest
  | s => some s

def exponent? : List Char → Option (List Char)
  | e :: rest =>
    if e = 'e' ∨ e = 'E' then
      match rest with
      | '+' :: rest => digits? rest
      | '-' :: rest => digits? rest
      | rest => digits? rest
    else some (e :: rest)
  | [] => some []

/-- What follows a number without its sign. -/
def unsigned? (s : List Char) : Option (List Char) :=
  let whole :=
    match s with
    | '0' :: rest => some rest
    | s => digits? s
  whole.bind fraction? |>.bind exponent?

/-! ## Values -/

/-- A record, or a value of no use if one of its keys is. -/
def recordOf (fields : List (Option String × Value)) : Value :=
  match fields.mapM fun f => f.1.map (·, f.2) with
  | some fields => .record fields
  | none => .other

mutual

/-- A value at the front of a text, in at most `fuel` steps. -/
def value (fuel : Nat) (s : List Char) : Option (Value × List Char) :=
  match fuel with
  | 0 => none
  | fuel + 1 =>
    match skip s with
    | 'n' :: 'u' :: 'l' :: 'l' :: rest => some (.null, rest)
    | 't' :: 'r' :: 'u' :: 'e' :: rest => some (.bool true, rest)
    | 'f' :: 'a' :: 'l' :: 's' :: 'e' :: rest => some (.bool false, rest)
    | '"' :: rest => (string rest).map fun (t, rest) => ((t.map Value.text).getD .other, rest)
    | '[' :: rest =>
      match skip rest with
      | ']' :: rest => some (.list [], rest)
      | rest => (items fuel rest).map fun (l, rest) => (.list l, rest)
    | '\x7b' :: rest =>
      match skip rest with
      | '\x7d' :: rest => some (.record [], rest)
      | rest => (fields fuel rest).map fun (l, rest) => (recordOf l, rest)
    | '-' :: rest => (unsigned? rest).map (.other, ·)
    | c :: rest => if c.isDigit then (unsigned? (c :: rest)).map (.other, ·) else none
    | [] => none

/-- One item and those after it, up to the closing bracket. -/
def items (fuel : Nat) (s : List Char) : Option (List Value × List Char) :=
  match fuel with
  | 0 => none
  | fuel + 1 => do
    let (v, rest) ← value fuel s
    match skip rest with
    | ']' :: rest => return ([v], rest)
    | ',' :: rest =>
      let (more, rest) ← items fuel rest
      return (v :: more, rest)
    | _ => none

/-- One field and those after it, up to the closing brace. -/
def fields (fuel : Nat) (s : List Char) : Option (List (Option String × Value) × List Char) :=
  match fuel with
  | 0 => none
  | fuel + 1 => do
    match skip s with
    | '"' :: rest =>
      let (key, rest) ← string rest
      match skip rest with
      | ':' :: rest =>
        let (v, rest) ← value fuel rest
        match skip rest with
        | '\x7d' :: rest => return ([(key, v)], rest)
        | ',' :: rest =>
          let (more, rest) ← fields fuel rest
          return ((key, v) :: more, rest)
        | _ => none
      | _ => none
    | _ => none

end

/-- The one value of a text. -/
def read (s : String) : Option Value :=
  match value (s.length + 1) s.toList with
  | some (v, rest) => if skip rest = [] then some v else none
  | none => none

/-- A list may stand for a record if it has no more items than there are fields; behind the name of
an alternative that holds nothing stands `null`. -/
def dialect : Dialect where
  positional := .exact
  isNothing
    | .null => true
    | _ => false

end SelectiveSync.Json
