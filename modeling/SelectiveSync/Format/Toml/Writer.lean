import SelectiveSync.Format.Decimal
import SelectiveSync.Format.Toml.Text
import SelectiveSync.Format.Value

/-! # Writing TOML

A record becomes a document: its plain values come first, then each record in it under a header of
its own, and each list of records as a table for every element. `Toml.pretty` writes lists over
several lines, `Toml.plain` on one. Values without a form in TOML are refused. -/
namespace SelectiveSync.Toml
set_option autoImplicit false

mutual

/-- Every part of the value can be written. -/
def isWritable : Value → Bool
  | .bool _ | .text _ => true
  | .integer i => -(Decimal.integerLimit : Int) ≤ i && i < (Decimal.integerLimit : Int)
  | .list items => areWritable items
  | .record fields => haveWritable fields
  | _ => false

def areWritable : List Value → Bool
  | [] => true
  | v :: rest => isWritable v && areWritable rest

def haveWritable : List (String × Value) → Bool
  | [] => true
  | (_, v) :: rest => isWritable v && haveWritable rest

end

/-! ## Values on a line -/

/-- Items between brackets; two or more of them have a line each if `multiline` is set. -/
def enclosed (multiline : Bool) (items : List String) : String :=
  if multiline && items.length ≥ 2 then
    "[" ++ String.join (items.map fun i => "\n    " ++ i ++ ",") ++ "\n]"
  else "[" ++ ", ".intercalate items ++ "]"

mutual

def inlined (multiline : Bool) : Value → String
  | .bool b => if b then "true" else "false"
  | .integer i => toString i
  | .text s => quoted s
  | .list items => enclosed multiline (inlinedItems multiline items)
  | .record [] => "\x7b\x7d"
  | .record fields => "\x7b " ++ ", ".intercalate (inlinedFields multiline fields) ++ " \x7d"
  | _ => ""

def inlinedItems (multiline : Bool) : List Value → List String
  | [] => []
  | v :: rest => inlined multiline v :: inlinedItems multiline rest

def inlinedFields (multiline : Bool) : List (String × Value) → List String
  | [] => []
  | (k, v) :: rest => (key k ++ " = " ++ inlined multiline v) :: inlinedFields multiline rest

end

/-! ## Documents -/

def isRecord : Value → Bool
  | .record _ => true
  | _ => false

/-- The value has no header but a line of its own. -/
def isPlain : Value → Bool
  | .record _ => false
  | .list items => items.isEmpty || !items.all isRecord
  | _ => true

/-- The lines of the plain values of a record. -/
def plainLines (multiline : Bool) (fields : List (String × Value)) : List String :=
  (fields.filter fun f => isPlain f.2).map fun (k, v) => key k ++ " = " ++ inlined multiline v

def headerText (path : List String) : String :=
  ".".intercalate (path.map key)

/-- Lines that belong together, if there are any. -/
def block (lines : List String) : List (List String) :=
  if lines = [] then [] else [lines]

mutual

/-- The blocks of a value under a header: a record, or a list of them. A record that holds records
only needs no header itself. -/
def tables (multiline : Bool) (path : List String) : Value → List (List String)
  | .record fields =>
    let lines := plainLines multiline fields
    (if lines = [] ∧ fields ≠ [] then [] else [("[" ++ headerText path ++ "]") :: lines])
      ++ fieldTables multiline path fields
  | .list items => if isPlain (.list items) then [] else elements multiline path items
  | _ => []

def elements (multiline : Bool) (path : List String) : List Value → List (List String)
  | [] => []
  | .record fields :: rest =>
    (("[[" ++ headerText path ++ "]]") :: plainLines multiline fields)
      :: fieldTables multiline path fields ++ elements multiline path rest
  | _ :: rest => elements multiline path rest

def fieldTables (multiline : Bool) (path : List String) :
    List (String × Value) → List (List String)
  | [] => []
  | (k, v) :: rest => tables multiline (path ++ [k]) v ++ fieldTables multiline path rest

end

/-- Blocks with an empty line between each two. -/
def document (blocks : List (List String)) : String :=
  "\n".intercalate (blocks.map fun lines => String.join (lines.map (· ++ "\n")))

def write (multiline : Bool) (v : Value) : Option String :=
  match v.keyed? with
  | some (.record fields) =>
    if haveWritable fields then
      some (document (block (plainLines multiline fields) ++ fieldTables multiline [] fields))
    else none
  | _ => none

def pretty : Value → Option String :=
  write true

def plain : Value → Option String :=
  write false

end SelectiveSync.Toml
