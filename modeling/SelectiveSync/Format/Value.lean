/-! # Values of stored formats

What the stored formats have in common: texts, numbers, lists, and records of named fields. Readers
give values and writers take them; not every value can be written in every format. -/
namespace SelectiveSync
set_option autoImplicit false

inductive Value where
  /-- Nothing at all was written in the value's place. -/
  | blank
  | null
  | bool (b : Bool)
  | integer (i : Int)
  | text (s : String)
  | list (items : List Value)
  | record (fields : List (String × Value))
  /-- A table whose keys are values themselves. -/
  | table (entries : List (Value × Value))
  /-- One of several named alternatives with what it holds. -/
  | variant (name : String) (body : Value)
  /-- Something well-formed that no stored value can be made of. -/
  | other
  deriving Repr, Inhabited

namespace Value

/-- A value in key position as the text of the key, where a format has texts for keys only. -/
def keyText? : Value → Option String
  | text s => some s
  | integer i => some (toString i)
  | _ => none

mutual

/-- The value with all tables and alternatives as records, unless a key has no text. -/
def keyed? : Value → Option Value
  | list items => (keyedItems? items).map list
  | record fields => (keyedFields? fields).map record
  | table entries => (keyedEntries? entries).map record
  | variant name body => (keyed? body).map fun b => record [(name, b)]
  | v => some v

def keyedItems? : List Value → Option (List Value)
  | [] => some []
  | v :: rest => do return (← keyed? v) :: (← keyedItems? rest)

def keyedFields? : List (String × Value) → Option (List (String × Value))
  | [] => some []
  | (k, v) :: rest => do return (k, ← keyed? v) :: (← keyedFields? rest)

def keyedEntries? : List (Value × Value) → Option (List (String × Value))
  | [] => some []
  | (k, v) :: rest => do return (← keyText? k, ← keyed? v) :: (← keyedEntries? rest)

end

/-- A list of texts. -/
def texts (l : List String) : Value :=
  list (l.map text)

end Value
end SelectiveSync
