import SelectiveSync.Format.Value
import SelectiveSync.Format.Yaml.Text

/-! # Writing YAML

Records and lists are written as blocks, one entry a line: what a record holds is indented by two
blanks, the items of a list in a record are not. Alternatives within each other are refused. -/
namespace SelectiveSync.Yaml
set_option autoImplicit false

mutual

/-- Every part of the value can be written. -/
def isWritable : Value → Bool
  | .variant .. => false
  | .list items => areWritable items
  | .record fields => haveWritable fields
  | .table entries => pairsWritable entries
  | _ => true

def areWritable : List Value → Bool
  | [] => true
  | v :: rest => isWritable v && areWritable rest

def haveWritable : List (String × Value) → Bool
  | [] => true
  | (_, v) :: rest => isWritable v && haveWritable rest

def pairsWritable : List (Value × Value) → Bool
  | [] => true
  | (k, v) :: rest => isWritable k && isWritable v && pairsWritable rest

end

/-- Where a value begins: after the key of a record, after a dash or another sign of its own, or at
the top of a document. -/
inductive Start where
  | key
  | sign
  | top
  deriving DecidableEq, Repr

namespace Start

/-- Where the items of a list stand, inside an entry at `indent`. -/
def listIndent (indent : Nat) : Start → Nat
  | key => indent
  | sign => indent + 2
  | top => 0

/-- Where the fields of a record stand. -/
def recordIndent (indent : Nat) : Start → Nat
  | top => 0
  | _ => indent + 2

end Start

def newLine (indent : Nat) : String :=
  "\n" ++ "".pushn ' ' indent

/-- Entries of a block, each on a line of its own. -/
def block (start : Start) (indent : Nat) (entries : List String) : String :=
  (if start = .key then newLine indent else "") ++ (newLine indent).intercalate entries

/-- A scalar where a value begins. -/
def scalar (start : Start) (text : String) : String :=
  if start = .key then " " ++ text else text

/-- A text may be a key on the line of its value. -/
def isShortKey (k : String) : Bool :=
  k.utf8ByteSize ≤ 128 && !k.toList.any isBreak

/-- A value may be a key on the line of its value. -/
def isSimpleKey : Value → Bool
  | .list (_ :: _) | .record (_ :: _) | .table (_ :: _) => false
  | .text s => isShortKey s
  | _ => true

/-- A key as it stands on the line of its value. -/
def keyText : Value → String
  | .text s => written true 0 s
  | .bool b => if b then "true" else "false"
  | .integer i => toString i
  | .list _ => "[]"
  | .record _ | .table _ => "\x7b\x7d"
  | _ => "null"

mutual

/-- A value in an entry at an indentation. -/
def write (start : Start) (indent : Nat) : Value → String
  | .bool b => scalar start (if b then "true" else "false")
  | .integer i => scalar start (toString i)
  | .text s => scalar start (written false (indent + 2) s)
  | .list [] => scalar start "[]"
  | .list items =>
    block start (start.listIndent indent) (writeItems (start.listIndent indent) items)
  | .record [] => scalar start "\x7b\x7d"
  | .record fields =>
    block start (start.recordIndent indent) (writeFields (start.recordIndent indent) fields)
  | .table [] => scalar start "\x7b\x7d"
  | .table entries =>
    block start (start.recordIndent indent) (writeEntries (start.recordIndent indent) entries)
  | _ => scalar start "null"

def writeItems (indent : Nat) : List Value → List String
  | [] => []
  | v :: rest => ("- " ++ write .sign indent v) :: writeItems indent rest

def writeFields (indent : Nat) : List (String × Value) → List String
  | [] => []
  | (k, v) :: rest =>
    (if isShortKey k then written true 0 k ++ ":" ++ write .key indent v
    else
      "? " ++ written false (indent + 2) k ++ newLine indent ++ ": " ++ write .sign indent v)
      :: writeFields indent rest

def writeEntries (indent : Nat) : List (Value × Value) → List String
  | [] => []
  | (k, v) :: rest =>
    (if isSimpleKey k then keyText k ++ ":" ++ write .key indent v
    else "? " ++ write .sign indent k ++ newLine indent ++ ": " ++ write .sign indent v)
      :: writeEntries indent rest

end

/-- A value as a document, with a line break at its end. -/
def pretty (v : Value) : Option String :=
  if isWritable v then some (write .top 0 v ++ "\n") else none

end SelectiveSync.Yaml
