import SelectiveSync.Format.Decode
import SelectiveSync.Format.Yaml.Token

/-! # Reading YAML

`Yaml.read` reads a text that holds one document, or nothing at all. Every scalar is a text; one
that is left out is blank. Aliases stand for what their anchors mark, and tags do not count. -/
namespace SelectiveSync.Yaml
set_option autoImplicit false

/-- What anchors mark, the latest first. -/
abbrev Anchors := List (String × Value)

/-- A row of entries as a record, or as a value of no use if a key of it is no text. -/
def recordOf (entries : List (Value × Value)) : Value :=
  match entries.mapM fun (k, v) => k.text?.map (·, v) with
  | some fields => .record fields
  | none => .other

/-- The anchor and the tags before a node, and what follows them. -/
def properties (handles : List String) : List Token → Option (Option String × Bool × List Token)
  | .anchor a :: .tag h :: rest =>
    if h = "" ∨ handles.contains h then some (some a, true, rest) else none
  | .tag h :: .anchor a :: rest =>
    if h = "" ∨ handles.contains h then some (some a, true, rest) else none
  | .anchor a :: rest => some (some a, true, rest)
  | .tag h :: rest => if h = "" ∨ handles.contains h then some (none, true, rest) else none
  | ts => some (none, false, ts)

/-- What may stand in a node's place. -/
structure Allowed where
  /-- Nodes marked by indentation. -/
  blocks : Bool
  /-- Lists whose items are not indented. -/
  flatLists : Bool

/-- After a node: the anchors known then and the tokens that follow. -/
abbrev After := Anchors × List Token

mutual

/-- A node in at most `fuel` steps. -/
def node (handles : List String) (fuel : Nat) (may : Allowed) (known : Anchors)
    (ts : List Token) : Option (Value × After) :=
  match fuel with
  | 0 => none
  | fuel + 1 =>
    match ts with
    | .alias_ a :: rest => (known.lookup a).map (·, known, rest)
    | ts => do
      let (anchor, hasProperties, rest) ← properties handles ts
      let known := match anchor with
        | some a => (a, Value.other) :: known
        | none => known
      let (v, known, rest) ←
        match rest with
        | .entry :: _ =>
          if may.flatLists then
            (items handles fuel true known rest).map fun (l, r) => (Value.list l, r)
          else if hasProperties then some (Value.blank, known, rest)
          else none
        | .scalar s :: rest => some (Value.text s, known, rest)
        | .listOpen :: rest =>
          (bracketItems handles fuel true known rest).map fun (l, r) => (Value.list l, r)
        | .recordOpen :: rest =>
          (bracketFields handles fuel true known rest).map fun (l, r) => (recordOf l, r)
        | .sequenceStart :: after =>
          if may.blocks then
            (items handles fuel false known after).map fun (l, r) => (Value.list l, r)
          else if hasProperties then some (Value.blank, known, rest)
          else none
        | .mappingStart :: after =>
          if may.blocks then
            (fields handles fuel known after).map fun (l, r) => (recordOf l, r)
          else if hasProperties then some (Value.blank, known, rest)
          else none
        | rest => if hasProperties then some (Value.blank, known, rest) else none
      let known := match anchor with
        | some a => (a, v) :: known
        | none => known
      return (v, known, rest)

/-- The items of a list in a block. A flat list ends with the first token that is no entry. -/
def items (handles : List String) (fuel : Nat) (isFlat : Bool) (known : Anchors)
    (ts : List Token) : Option (List Value × After) :=
  match fuel with
  | 0 => none
  | fuel + 1 =>
    match ts with
    | .entry :: rest => do
      let isBlank := match rest with
        | .entry :: _ | .blockEnd :: _ => true
        | .key :: _ | .value :: _ => isFlat
        | _ => false
      let (v, known, rest) ←
        if isBlank then some (Value.blank, known, rest)
        else node handles fuel ⟨true, false⟩ known rest
      let (more, known, rest) ← items handles fuel isFlat known rest
      return (v :: more, known, rest)
    | .blockEnd :: rest => if isFlat then some ([], known, ts) else some ([], known, rest)
    | _ => if isFlat then some ([], known, ts) else none

/-- A node of a record in a block, or a blank where none is written. -/
def part (handles : List String) (fuel : Nat) (known : Anchors) (ts : List Token) :
    Option (Value × After) :=
  match fuel with
  | 0 => none
  | fuel + 1 =>
    match ts with
    | .key :: _ | .value :: _ | .blockEnd :: _ => some (.blank, known, ts)
    | ts => node handles fuel ⟨true, true⟩ known ts

/-- The fields of a record in a block. -/
def fields (handles : List String) (fuel : Nat) (known : Anchors) (ts : List Token) :
    Option (List (Value × Value) × After) :=
  match fuel with
  | 0 => none
  | fuel + 1 =>
    match ts with
    | .key :: rest => do
      let (k, known, rest) ← part handles fuel known rest
      let (v, known, rest) ←
        match rest with
        | .value :: rest => part handles fuel known rest
        | rest => some (Value.blank, known, rest)
      let (more, known, rest) ← fields handles fuel known rest
      return ((k, v) :: more, known, rest)
    | .blockEnd :: rest => some ([], known, rest)
    | _ => none

/-- The items of a list in brackets. A key among them begins a record of one field. -/
def bracketItems (handles : List String) (fuel : Nat) (isFirst : Bool) (known : Anchors)
    (ts : List Token) : Option (List Value × After) :=
  match fuel with
  | 0 => none
  | fuel + 1 =>
    match ts with
    | .listClose :: rest => some ([], known, rest)
    | ts => do
      let ts ←
        match isFirst, ts with
        | true, ts => some ts
        | false, .comma :: rest => some rest
        | false, _ => none
      match ts with
      | .listClose :: rest => return ([], known, rest)
      | .key :: rest =>
        let (k, known, rest) ← bracketPart handles fuel .listClose known rest
        let (v, known, rest) ←
          match rest with
          | .value :: rest => bracketPart handles fuel .listClose known rest
          | rest => some (Value.blank, known, rest)
        let (more, known, rest) ← bracketItems handles fuel false known rest
        return (recordOf [(k, v)] :: more, known, rest)
      | ts =>
        let (v, known, rest) ← node handles fuel ⟨false, false⟩ known ts
        let (more, known, rest) ← bracketItems handles fuel false known rest
        return (v :: more, known, rest)

/-- A key or value within brackets, or a blank where none is written. -/
def bracketPart (handles : List String) (fuel : Nat) (close : Token) (known : Anchors)
    (ts : List Token) : Option (Value × After) :=
  match fuel with
  | 0 => none
  | fuel + 1 =>
    match ts with
    | t :: _ =>
      if t = .value ∨ t = .comma ∨ t = close then some (.blank, known, ts)
      else node handles fuel ⟨false, false⟩ known ts
    | [] => none

/-- The fields of a record in brackets. -/
def bracketFields (handles : List String) (fuel : Nat) (isFirst : Bool) (known : Anchors)
    (ts : List Token) : Option (List (Value × Value) × After) :=
  match fuel with
  | 0 => none
  | fuel + 1 =>
    match ts with
    | .recordClose :: rest => some ([], known, rest)
    | ts => do
      let ts ←
        match isFirst, ts with
        | true, ts => some ts
        | false, .comma :: rest => some rest
        | false, _ => none
      match ts with
      | .recordClose :: rest => return ([], known, rest)
      | .key :: rest =>
        let (k, known, rest) ← bracketPart handles fuel .recordClose known rest
        let (v, known, rest) ←
          match rest with
          | .value :: rest => bracketPart handles fuel .recordClose known rest
          | rest => some (Value.blank, known, rest)
        let (more, known, rest) ← bracketFields handles fuel false known rest
        return ((k, v) :: more, known, rest)
      | ts =>
        let (k, known, rest) ← node handles fuel ⟨false, false⟩ known ts
        let (more, known, rest) ← bracketFields handles fuel false known rest
        return ((k, .blank) :: more, known, rest)

end

/-! ## Documents -/

/-- The short forms for tags declared before a document, and the tokens after the declarations. The
version is declared at most once and is one that can be read. -/
def declarations (hasVersion : Bool) (handles : List String) :
    List Token → Option (List String × List Token)
  | .version major minor :: rest =>
    if hasVersion ∨ major ≠ 1 ∨ (minor ≠ 1 ∧ minor ≠ 2) then none
    else declarations true handles rest
  | .shorthand h :: rest =>
    if handles.contains h then none else declarations hasVersion (h :: handles) rest
  | ts => some (handles, ts)

/-- The handles that need no declaration. -/
def commonHandles : List String := ["!", "!!"]

/-- The one document of a row of tokens. -/
def document (ts : List Token) : Option Value := do
  if ts = [] then return .blank
  let (declared, rest) ← declarations false [] ts
  let handles := declared ++ commonHandles
  let isDeclared := rest.length < ts.length
  let rest ←
    match rest with
    | .documentStart :: rest =>
      match rest with
      | [] | .documentStart :: _ | .documentEnd :: _ | .version .. :: _ | .shorthand _ :: _ =>
        return ← ended (.blank, rest)
      | rest => some rest
    | rest => if isDeclared then none else some rest
  let (v, _, rest) ← node handles (8 * ts.length + 8) ⟨true, false⟩ [] rest
  ended (v, rest)
where
  /-- Nothing but the end of the document follows. -/
  ended : Value × List Token → Option Value
    | (v, rest) => if rest.all (· = .documentEnd) then some v else none

def read (s : String) : Option Value :=
  (tokens? s).bind document

/-- Lists never stand for records, and names of alternatives stand alone. -/
def dialect : Dialect where
  positional := .never
  isNothing _ := false

end SelectiveSync.Yaml
