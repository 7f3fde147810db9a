import SelectiveSync.Format.Value

/-! # Values taken apart

How records, lists and texts are got out of a value that was read. The formats differ in what may
stand for what; a `Dialect` says how. -/
namespace SelectiveSync
set_option autoImplicit false

/-- How a list may stand for a record whose fields it gives in order: not at all, with no more
items than there are fields, or with any number of them. -/
inductive Positional where
  | never
  | exact
  | lenient
  deriving DecidableEq, Repr

structure Dialect where
  positional : Positional
  /-- The value may stand behind the name of an alternative that holds nothing. -/
  isNothing : Value → Bool

namespace Value

/-- A text. Where nothing is written, the text is empty. -/
def text? : Value → Option String
  | text s => some s
  | blank => some ""
  | _ => none

/-- The items of a list. Where nothing is written, there are none. -/
def list? : Value → Option (List Value)
  | list items => some items
  | blank => some []
  | _ => none

/-- The items of a list, each taken apart. -/
def listOf? {α : Type} (f : Value → Option α) (v : Value) : Option (List α) :=
  v.list?.bind (List.mapM f)

/-- No two fields have the same name. -/
def Distinct (fields : List (String × Value)) : Prop :=
  (fields.map (·.1)).Nodup

instance (fields : List (String × Value)) : Decidable (Distinct fields) :=
  inferInstanceAs (Decidable (List.Nodup _))

/-- The fields of a record among those named. Others do not count, but none of these may be given
twice. -/
def record? (d : Dialect) (names : List String) : Value → Option (List (String × Value))
  | record fields =>
    let known := fields.filter fun f => names.contains f.1
    if Distinct known then some known else none
  | list items =>
    match d.positional with
    | .never => none
    | .exact => if items.length ≤ names.length then some (names.zip items) else none
    | .lenient => some (names.zip items)
  | blank => some []
  | _ => none

/-- All entries of a record, the last of those with the same name. -/
def entries? : Value → Option (List (String × Value))
  | record fields => some fields
  | blank => some []
  | _ => none

/-- The name of an alternative that holds nothing. -/
def alternative? (d : Dialect) : Value → Option String
  | text s => some s
  | record [(name, body)] => if d.isNothing body then some name else none
  | _ => none

end Value

/-- A field that must be there. -/
def field? {α : Type} (fields : List (String × Value)) (name : String) (f : Value → Option α) :
    Option α :=
  (fields.lookup name).bind f

/-- A field that has a value of its own where it is missing. -/
def fieldOr? {α : Type} (fields : List (String × Value)) (name : String) (default : α)
    (f : Value → Option α) : Option α :=
  match fields.lookup name with
  | none => some default
  | some v => f v

end SelectiveSync
