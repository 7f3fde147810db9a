import SelectiveSync.Format.Decode
import SelectiveSync.Format.Toml.Scalar
import SelectiveSync.Format.Toml.Table

/-! # Reading TOML

`Toml.read` reads a whole document: first the pairs and headers it consists of, each on a line of
its own, and from them the table they define. -/
namespace SelectiveSync.Toml
set_option autoImplicit false

/-! ## Between values -/

def skipGaps (s : List Char) : List Char :=
  s.dropWhile isGap

/-- What follows blanks, newlines and comments; `inComment` says where the text begins. -/
def skipVoid (inComment : Bool) : List Char → List Char
  | [] => []
  | c :: rest =>
    if inComment ∧ isShown c then skipVoid true rest
    else if isGap c ∨ c = '\n' ∨ (c = '\r' ∧ rest.head? = some '\n') then skipVoid false rest
    else if c = '#' then skipVoid true rest
    else c :: rest

/-- What follows the end of a line, which may hold a comment. -/
def lineEnd? (s : List Char) : Option (List Char) :=
  let rest :=
    match skipGaps s with
    | '#' :: comment => comment.dropWhile isShown
    | rest => rest
  if rest = [] then some [] else newline? rest

/-! ## Keys -/

def simpleKey? : List Char → Option (String × List Char)
  | '"' :: rest => (basic rest).map fun (k, rest) => (String.ofList k, rest)
  | '\'' :: rest => (literal rest).map fun (k, rest) => (String.ofList k, rest)
  | s =>
    let k := s.takeWhile isBare
    if k = [] then none else some (String.ofList k, s.drop k.length)

/-- The parts of a key with dots between them, and what follows. -/
def key? (fuel : Nat) (s : List Char) : Option (List String × List Char) :=
  match fuel with
  | 0 => none
  | fuel + 1 => do
    let (k, rest) ← simpleKey? (skipGaps s)
    match skipGaps rest with
    | '.' :: rest =>
      let (more, rest) ← key? fuel rest
      return (k :: more, rest)
    | rest => return ([k], rest)

/-- Values may be nested to this depth, and keys have as many parts. -/
def depthLimit : Nat := 79

/-- The parts of a key without the last, the last, and what follows. -/
def keyPath? (s : List Char) : Option (List String × String × List Char) := do
  let (parts, rest) ← key? depthLimit s
  return (parts.dropLast, ← parts.getLast?, rest)

/-! ## Values -/

mutual

/-- A value in at most `fuel` steps, with at most `depth` lists and tables around each other. -/
def value (depth fuel : Nat) (s : List Char) : Option (Value × List Char) :=
  match fuel with
  | 0 => none
  | fuel + 1 =>
    match s with
    | '[' :: rest =>
      match depth with
      | 0 => none
      | depth + 1 => (items depth fuel rest).map fun (l, rest) => (.list l, rest)
    | '\x7b' :: rest =>
      match depth with
      | 0 => none
      | depth + 1 => do
        match skipGaps rest with
        | '\x7d' :: rest => return (.record [], rest)
        | rest =>
          let (pairs, rest) ← pairs depth fuel rest
          let entries ← Entries.insertAll [] pairs
          return (.record (Item.fields entries), rest)
    | c :: rest =>
      if c = '"' ∨ c = '\'' then
        (text? (c :: rest)).map fun (t, rest) => (.text (String.ofList t), rest)
      else word? (c :: rest)
    | [] => none

/-- The items up to the closing bracket, before which may be a comma. -/
def items (depth fuel : Nat) (s : List Char) : Option (List Value × List Char) :=
  match fuel with
  | 0 => none
  | fuel + 1 =>
    match skipVoid false s with
    | ']' :: rest => some ([], rest)
    | rest => do
      let (v, rest) ← value depth fuel rest
      match skipVoid false rest with
      | ']' :: rest => return ([v], rest)
      | ',' :: rest =>
        let (more, rest) ← items depth fuel rest
        return (v :: more, rest)
      | _ => none

/-- One pair and those after it, up to the closing brace. -/
def pairs (depth fuel : Nat) (s : List Char) : Option (List Pair × List Char) :=
  match fuel with
  | 0 => none
  | fuel + 1 => do
    let (path, key, rest) ← keyPath? s
    match rest with
    | '=' :: rest =>
      let (v, rest) ← value depth fuel (skipGaps rest)
      match skipGaps rest with
      | '\x7d' :: rest => return ([⟨path, key, v⟩], rest)
      | ',' :: rest =>
        let (more, rest) ← pairs depth fuel rest
        return (⟨path, key, v⟩ :: more, rest)
      | _ => none
    | _ => none

end

/-! ## Documents -/

/-- What a line holds. -/
inductive Line where
  | pair (p : Pair)
  | header (h : Header)

def header? (isElement : Bool) (closing s : List Char) : Option (Line × List Char) := do
  let (path, key, rest) ← keyPath? s
  if closing.isPrefixOf rest then
    return (.header ⟨path, key, isElement⟩, rest.drop closing.length)
  else none

/-- One pair or header, with what follows it on its line. -/
def line? (s : List Char) : Option (Line × List Char) :=
  match s with
  | '[' :: '[' :: rest => header? true [']', ']'] rest
  | '[' :: rest => header? false [']'] rest
  | s => do
    let (path, key, rest) ← keyPath? s
    match rest with
    | '=' :: rest =>
      let (v, rest) ← value depthLimit (rest.length + 1) (skipGaps rest)
      return (.pair ⟨path, key, v⟩, rest)
    | _ => none

/-- All lines of a document in at most `fuel` steps. -/
def lines? (fuel : Nat) (s : List Char) : Option (List Line) :=
  match fuel with
  | 0 => none
  | fuel + 1 =>
    match skipVoid false s with
    | [] => some []
    | s => do
      let (line, rest) ← line? s
      return line :: (← lines? fuel (← lineEnd? rest))

/-- The pairs before the first header, and the sections. -/
def sections : List Line → List Pair × List Section
  | [] => ([], [])
  | .pair p :: rest => (p :: (sections rest).1, (sections rest).2)
  | .header h :: rest => ([], ⟨h, (sections rest).1⟩ :: (sections rest).2)

/-- The table that the lines define. -/
def ofLines (lines : List Line) : Option Value := do
  let root ← Entries.insertAll [] (sections lines).1
  let entries ← (sections lines).2.foldlM Entries.addSection root
  return .record (Item.fields entries)

/-- The text without a byte order mark at its front. -/
def withoutMark : List Char → List Char
  | '\ufeff' :: rest => rest
  | s => s

def read (s : String) : Option Value :=
  (lines? (s.length + 1) (withoutMark s.toList)).bind ofLines

/-- A list may stand for a record, and behind the name of an alternative that holds nothing stands
an empty list or table. -/
def dialect : Dialect where
  positional := .lenient
  isNothing
    | .list [] => true
    | .record [] => true
    | _ => false

end SelectiveSync.Toml
