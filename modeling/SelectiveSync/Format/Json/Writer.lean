import SelectiveSync.Format.Value

/-! # Writing JSON

`Json.pretty` writes a value over several lines with two blanks for each level, `Json.compact` in
one line without blanks. Values with keys that are no texts are refused. -/
namespace SelectiveSync.Json
set_option autoImplicit false

/-- A code point below 256 in two hexadecimal digits. -/
def hexPair (n : Nat) : List Char :=
  [Nat.digitChar (n / 16), Nat.digitChar (n % 16)]

/-- A character as it stands in a text. -/
def escaped (c : Char) : List Char :=
  match c with
  | '"' => ['\\', '"']
  | '\\' => ['\\', '\\']
  | '\n' => ['\\', 'n']
  | '\r' => ['\\', 'r']
  | '\t' => ['\\', 't']
  | '\x08' => ['\\', 'b']
  | '\x0c' => ['\\', 'f']
  | c => if c.toNat < 32 then '\\' :: 'u' :: '0' :: '0' :: hexPair c.toNat else [c]

def quoted (s : String) : String :=
  String.ofList ('"' :: s.toList.flatMap escaped ++ ['"'])

/-- Members between brackets, each on a line of its own if there is an indentation. -/
def enclosed (opening closing : String) (indent : Option Nat) (members : List String) : String :=
  match members, indent with
  | [], _ => opening ++ closing
  | members, none => opening ++ ",".intercalate members ++ closing
  | members, some n =>
    let line := "\n" ++ "".pushn ' ' (n + 2)
    opening ++ line ++ (("," ++ line).intercalate members) ++ "\n" ++ "".pushn ' ' n ++ closing

mutual

/-- A value without tables and alternatives, written at an indentation. -/
def write (indent : Option Nat) : Value → String
  | .blank | .null | .other => "null"
  | .bool b => if b then "true" else "false"
  | .integer i => toString i
  | .text s => quoted s
  | .list items => enclosed "[" "]" indent (writeItems (indent.map (· + 2)) items)
  | .record fields => enclosed "\x7b" "\x7d" indent (writeFields (indent.map (· + 2)) fields)
  | .table _ | .variant .. => "null"

def writeItems (indent : Option Nat) : List Value → List String
  | [] => []
  | v :: rest => write indent v :: writeItems indent rest

def writeFields (indent : Option Nat) : List (String × Value) → List String
  | [] => []
  | (k, v) :: rest =>
    (quoted k ++ (if indent.isSome then ": " else ":") ++ write indent v)
      :: writeFields indent rest

end

def pretty (v : Value) : Option String :=
  v.keyed?.map (write (some 0))

def compact (v : Value) : Option String :=
  v.keyed?.map (write none)

end SelectiveSync.Json
