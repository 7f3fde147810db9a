import SelectiveSync.Format.Value

/-! # Tables put together from parts

A table's entries may be spread over dotted keys and several headers. `insert` adds the value of a
key and `addSection` what stands under a header; both refuse to define anything twice. -/
namespace SelectiveSync.Toml
set_option autoImplicit false

/-- How a table came about: under a header of its own, on the way to another header's table, or on
the way to the value of a dotted key. -/
inductive Origin where
  | header
  | passing
  | dotted
  deriving DecidableEq, Repr

inductive Item where
  | value (v : Value)
  | table (origin : Origin) (entries : List (String × Item))
  | tables (elements : List (List (String × Item)))

abbrev Entries := List (String × Item)

/-- A dotted key with its value. -/
structure Pair where
  path : List String
  key : String
  value : Value

/-- The name of a table, or of a list of tables to which one is added. -/
structure Header where
  path : List String
  key : String
  isElement : Bool
  deriving DecidableEq, Repr

/-- A header with the pairs under it. -/
structure Section where
  header : Header
  pairs : List Pair

namespace Entries

/-- The entry of a key replaced, or added at the end. -/
def set (key : String) (item : Item) : Entries → Entries
  | [] => [(key, item)]
  | (k, i) :: rest => if k = key then (k, item) :: rest else (k, i) :: set key item rest

/-- The entries of the table at a path changed by `f`, and tables missing on the way added. Where a
list of tables is on the way, its last element is meant. Dotted keys must not enter a table that has
a header. -/
def within (isDotted : Bool) (f : Origin → Entries → Option Entries) :
    List String → Origin → Entries → Option Entries
  | [], origin, es => f origin es
  | k :: path, _, es =>
    match es.lookup k with
    | none =>
      let origin := if isDotted then .dotted else .passing
      (within isDotted f path origin []).map fun sub => set k (.table origin sub) es
    | some (.value _) => none
    | some (.table origin sub) =>
      if isDotted ∧ origin = .header then none
      else (within isDotted f path origin sub).map fun sub => set k (.table origin sub) es
    | some (.tables elements) =>
      (within isDotted f path .header (elements.getLast?.getD [])).map fun last =>
        set k (.tables (elements.dropLast ++ [last])) es

/-- The value of a pair added to a table that has a header. -/
def insert (es : Entries) (p : Pair) : Option Entries :=
  within true (fun origin sub =>
    if (origin = .dotted ↔ p.path = []) then none
    else if (sub.lookup p.key).isSome then none
    else some (sub ++ [(p.key, .value p.value)])) p.path .header es

def insertAll (es : Entries) (pairs : List Pair) : Option Entries :=
  pairs.foldlM insert es

/-- The table of a section put where its header says. A table that others already passed through is
taken over. -/
def addSection (es : Entries) (s : Section) : Option Entries :=
  within false (fun _ sub =>
    match s.header.isElement, sub.lookup s.header.key with
    | false, none => (insertAll [] s.pairs).map fun t => set s.header.key (.table .header t) sub
    | false, some (.table .passing old) =>
      (insertAll old s.pairs).map fun t => set s.header.key (.table .header t) sub
    | true, none => (insertAll [] s.pairs).map fun t => set s.header.key (.tables [t]) sub
    | true, some (.tables elements) =>
      (insertAll [] s.pairs).map fun t => set s.header.key (.tables (elements ++ [t])) sub
    | _, _ => none) s.header.path .header es

end Entries

mutual

def Item.toValue : Item → Value
  | .value v => v
  | .table _ entries => .record (Item.fields entries)
  | .tables elements => .list (Item.records elements)

def Item.fields : List (String × Item) → List (String × Value)
  | [] => []
  | (k, i) :: rest => (k, i.toValue) :: Item.fields rest

def Item.records : List (List (String × Item)) → List Value
  | [] => []
  | entries :: rest => .record (Item.fields entries) :: Item.records rest

end

end SelectiveSync.Toml
