import SelectiveSync.Format.Yaml.Text

/-! # Tokens of YAML

A document as a row of tokens. Blocks are marked by indentation alone, so the tokens that open and
close them are made up where the indentation changes; and what turns out to be a key only at the
colon after it gets its token afterwards. -/
namespace SelectiveSync.Yaml
set_option autoImplicit false

inductive Token where
  /-- A declaration of the version of the language. -/
  | version (major minor : Nat)
  /-- A declaration of a short form for tags. -/
  | shorthand (handle : String)
  | documentStart
  | documentEnd
  | sequenceStart
  | mappingStart
  | blockEnd
  | listOpen
  | listClose
  | recordOpen
  | recordClose
  | entry
  | comma
  | key
  | value
  | alias_ (name : String)
  | anchor (name : String)
  | tag (handle : String)
  | scalar (text : String)
  deriving DecidableEq, Repr, Inhabited

/-- A place in a text. -/
structure Place where
  rest : List Char
  line : Nat := 0
  column : Nat := 0
  /-- The number of characters before. -/
  offset : Nat := 0

namespace Place

/-- Past `n` characters of a line. -/
def skip (p : Place) (n : Nat) : Place :=
  { p with rest := p.rest.drop n, column := p.column + n, offset := p.offset + n }

/-- Past a line break, if there is one here. -/
def skipBreak (p : Place) : Place :=
  match break? p.rest with
  | some (_, rest) => ⟨rest, p.line + 1, 0, p.offset + 1⟩
  | none => p

/-- A line that begins or ends a document, and not a text. -/
def atMarker (p : Place) : Bool :=
  p.column = 0 && (['-', '-', '-'].isPrefixOf p.rest || ['.', '.', '.'].isPrefixOf p.rest)
    && atGap (p.rest.drop 3)

def skipWhile (p : Place) (f : Char → Bool) : Place :=
  p.skip (p.rest.takeWhile f).length

/-- Past the rest of the line, as far as it is a comment. -/
def skipComment (p : Place) : Place :=
  if p.rest.head? = some '#' then p.skipWhile (!isBreak ·) else p

/-- The line ends here. -/
def atBreak (p : Place) : Bool :=
  p.rest.head?.all isBreak

end Place

/-! ## Texts over several lines -/

/-- The blanks and line breaks at a place: the blanks on the first line, the breaks, and the place
after them. A tab left of column `least` after a break is out of place. -/
def gap (least : Nat) (fuel : Nat) (p : Place) (blanks breaks : List Char) :
    Option (List Char × List Char × Place) :=
  match fuel with
  | 0 => none
  | fuel + 1 =>
    match p.rest with
    | c :: _ =>
      if isGap c then
        if breaks = [] then gap least fuel (p.skip 1) (blanks ++ [c]) breaks
        else if c = '\t' ∧ p.column < least then none
        else gap least fuel (p.skip 1) blanks breaks
      else match break? p.rest with
        | some (b, _) => gap least fuel p.skipBreak [] (breaks ++ [b])
        | none => some (blanks, breaks, p)
    | [] => some (blanks, breaks, p)

/-- The stretch of a plain text up to a gap or a sign that ends it. Inside brackets, some signs end
a text and a colon must not stand before them. -/
def plainWord (inBrackets : Bool) : List Char → Option (List Char)
  | [] => some []
  | c :: rest =>
    let sign (d : Char) := d = ',' || d = '[' || d = ']' || d = '\x7b' || d = '\x7d'
    if isGap c || isBreak c then some []
    else if inBrackets && c = ':' && rest.head?.any (fun d => sign d || d = '?') then none
    else if (c = ':' && atGap rest) || (inBrackets && sign c) then some []
    else (plainWord inBrackets rest).map (c :: ·)

/-- A plain text in a block indented to `least`: the text, the place after it, and whether it ended
with a line. -/
def plain (inBrackets : Bool) (least : Nat) (fuel : Nat) (p : Place) (text between : List Char)
    (afterBreak : Bool) : Option (List Char × Place × Bool) :=
  match fuel with
  | 0 => none
  | fuel + 1 => do
    if p.atMarker || p.rest.head? = some '#' then return (text, p, afterBreak)
    let word ← plainWord inBrackets p.rest
    let after := p.skip word.length
    let ended := if word = [] then afterBreak else false
    let text := if word = [] then text else text ++ between ++ word
    if ¬ atGap after.rest ∨ after.rest = [] then return (text, after, ended)
    let (blanks, breaks, next) ← gap least (after.rest.length + 1) after [] []
    let ended := ended || breaks ≠ []
    if ¬ inBrackets ∧ next.column < least then return (text, next, ended)
    plain inBrackets least fuel next text (folded blanks breaks) ended

def hexValue (digits : List Char) : Nat :=
  digits.foldl (fun n c =>
    n * 16 + (if c.isDigit then c.toNat - 48 else if c < 'a' then c.toNat - 55 else c.toNat - 87)) 0

/-- The character of an escape after its backslash, and the length of the escape. -/
def escape? (s : List Char) : Option (Char × Nat) :=
  let numbered (n : Nat) (rest : List Char) : Option (Char × Nat) :=
    let digits := rest.take n
    if digits.length = n ∧ digits.all isHex ∧ (hexValue digits).isValidChar then
      some (Char.ofNat (hexValue digits), n + 1)
    else none
  match s with
  | '0' :: _ => some ('\x00', 1)
  | 'a' :: _ => some ('\x07', 1)
  | 'b' :: _ => some ('\x08', 1)
  | 't' :: _ | '\t' :: _ => some ('\t', 1)
  | 'n' :: _ => some ('\n', 1)
  | 'v' :: _ => some ('\x0b', 1)
  | 'f' :: _ => some ('\x0c', 1)
  | 'r' :: _ => some ('\r', 1)
  | 'e' :: _ => some ('\x1b', 1)
  | ' ' :: _ => some (' ', 1)
  | '"' :: _ => some ('"', 1)
  | '/' :: _ => some ('/', 1)
  | '\\' :: _ => some ('\\', 1)
  | 'N' :: _ => some ('\x85', 1)
  | '_' :: _ => some ('\xa0', 1)
  | 'L' :: _ => some ('\u2028', 1)
  | 'P' :: _ => some ('\u2029', 1)
  | 'x' :: rest => numbered 2 rest
  | 'u' :: rest => numbered 4 rest
  | 'U' :: rest => numbered 8 rest
  | _ => none

/-- A text up to its closing quote. -/
def quotedText (isSingle : Bool) (fuel : Nat) (p : Place) (text : List Char) :
    Option (List Char × Place) :=
  match fuel with
  | 0 => none
  | fuel + 1 =>
    if p.atMarker then none
    else match p.rest with
      | [] => none
      | c :: rest =>
        if isSingle && c = '\'' && rest.head? = some '\'' then
          quotedText isSingle fuel (p.skip 2) (text ++ ['\''])
        else if c = (if isSingle then '\'' else '"') then some (text, p.skip 1)
        else if isGap c || isBreak c then
          match gap 0 (p.rest.length + 1) p [] [] with
          | some (blanks, breaks, next) =>
            quotedText isSingle fuel next (text ++ folded blanks breaks)
          | none => none
        else if ¬ isSingle ∧ c = '\\' then
          if rest.head?.any isBreak then
            match gap 0 (p.rest.length + 1) (p.skip 1).skipBreak [] ['\n'] with
            | some (_, breaks, next) => quotedText isSingle fuel next (text ++ breaks.drop 1)
            | none => none
          else match escape? rest with
            | some (d, n) => quotedText isSingle fuel (p.skip (n + 1)) (text ++ [d])
            | none => none
        else quotedText isSingle fuel (p.skip 1) (text ++ [c])

/-! ## Blocks of lines -/

/-- The line breaks before a line with something in it, whose indentation is `indent` or, if that is
zero, yet to be found: the breaks, the largest indentation met, and the place. -/
def emptyLines (indent : Nat) (fuel : Nat) (p : Place) (breaks : List Char) (most : Nat) :
    Option (List Char × Nat × Place) :=
  match fuel with
  | 0 => none
  | fuel + 1 =>
    let blanks := (p.rest.takeWhile (· = ' ')).length
    let p := p.skip (if indent = 0 then blanks else min blanks (indent - p.column))
    let most := max most p.column
    if (indent = 0 ∨ p.column < indent) ∧ p.rest.head? = some '\t' then none
    else match break? p.rest with
      | some (b, _) => emptyLines indent fuel p.skipBreak (breaks ++ [b]) most
      | none => some (breaks, most, p)

/-- What happens to the line breaks at the end of a block. -/
inductive Chomp where
  | strip
  | clip
  | keep
  deriving DecidableEq, Repr

/-- The lines of a block, `last` being the break before the next of them and `empty` those of empty
lines after it. -/
def blockLines (isLiteral : Bool) (indent : Nat) (chomp : Chomp) (fuel : Nat) (p : Place)
    (text last empty : List Char) (afterBlank : Bool) : Option (List Char × Place) :=
  match fuel with
  | 0 => none
  | fuel + 1 =>
    if p.column = indent ∧ p.rest ≠ [] then
      let blank := p.rest.head?.any isGap
      let joined :=
        if ¬ isLiteral ∧ last = ['\n'] ∧ ¬ afterBlank ∧ ¬ blank then
          if empty = [] then [' '] else empty
        else last ++ empty
      let line := p.rest.takeWhile (!isBreak ·)
      let after := p.skip line.length
      let last := match break? after.rest with
        | some (b, _) => [b]
        | none => []
      match emptyLines indent (p.rest.length + 1) after.skipBreak [] 0 with
      | some (empty, _, next) =>
        blockLines isLiteral indent chomp fuel next (text ++ joined ++ line) last empty blank
      | none => none
    else
      let ending := if chomp = .strip then [] else last
      some (text ++ ending ++ (if chomp = .keep then empty else []), p)

/-- The signs after the first of a block: its indentation, if told, and what happens at its end. -/
def blockHead (s : List Char) : Option (Option Nat × Chomp × Nat) :=
  let chomp? (c : Char) : Option Chomp :=
    if c = '+' then some .keep else if c = '-' then some .strip else none
  let width? (c : Char) : Option Nat := if c.isDigit then some (c.toNat - 48) else none
  let result := match s with
    | a :: b :: _ =>
      match chomp? a, width? b, width? a, chomp? b with
      | some ch, some w, _, _ => (some w, ch, 2)
      | some ch, none, _, _ => (none, ch, 1)
      | none, _, some w, some ch => (some w, ch, 2)
      | none, _, some w, none => (some w, .clip, 1)
      | none, _, none, _ => (none, .clip, 0)
    | [a] =>
      match chomp? a, width? a with
      | some ch, _ => (none, ch, 1)
      | none, some w => (some w, .clip, 1)
      | none, none => (none, .clip, 0)
    | [] => (none, .clip, 0)
  if result.1 = some 0 then none else some result

/-- A block of lines after its first sign, in a block indented to `outer - 1`. -/
def blockText (isLiteral : Bool) (outer : Nat) (p : Place) : Option (List Char × Place) := do
  let (width, chomp, n) ← blockHead p.rest
  let p := ((p.skip n).skipWhile isGap).skipComment
  if ¬ p.atBreak then none
  let p := p.skipBreak
  let fuel := p.rest.length + 2
  let told := match width with
    | some w => (outer - 1) + w
    | none => 0
  let (empty, most, next) ← emptyLines told fuel p [] 0
  let indent := if told = 0 then max (max most outer) 1 else told
  blockLines isLiteral indent chomp fuel next [] [] empty false

/-! ## The scanner -/

/-- A token that may turn out to be a key: where its token would stand, where it begins, and whether
it has to be one. -/
structure Candidate where
  token : Nat
  line : Nat
  column : Nat
  offset : Nat
  isRequired : Bool

structure Scanner where
  place : Place
  /-- The column of each open block, innermost first. -/
  columns : List Nat := []
  keyAllowed : Bool := true
  /-- The candidate at each level of brackets, innermost first. -/
  candidates : List (Option Candidate) := [none]
  tokens : Array Token := #[]

namespace Scanner

def inBrackets (s : Scanner) : Bool :=
  s.candidates.length > 1

/-- One more than the column of the innermost block. -/
def least (s : Scanner) : Nat :=
  match s.columns with
  | [] => 0
  | c :: _ => c + 1

def push (s : Scanner) (t : Token) : Scanner :=
  { s with tokens := s.tokens.push t }

def insertAt (s : Scanner) (i : Nat) (t : Token) : Scanner :=
  { s with tokens := (s.tokens.extract 0 i).push t ++ s.tokens.extract i s.tokens.size }

def skip (s : Scanner) (n : Nat) : Scanner :=
  { s with place := s.place.skip n }

def allow (s : Scanner) (keyAllowed : Bool) : Scanner :=
  { s with keyAllowed }

/-- Closes the blocks further to the right than a column. -/
def closeBlocks (limit : Nat) (s : Scanner) : List Nat → Scanner
  | [] => { s with columns := [] }
  | c :: rest =>
    if limit < c + 1 then closeBlocks limit (s.push .blockEnd) rest
    else { s with columns := c :: rest }

/-- Closes all blocks that begin to the right of where the text goes on, which is one less than
`limit`. -/
def unroll (s : Scanner) (limit : Nat) : Scanner :=
  if s.inBrackets then s else s.closeBlocks limit s.columns

/-- Opens a block at a column if it is further to the right than all open ones. -/
def roll (s : Scanner) (column : Nat) (i : Nat) (t : Token) : Scanner :=
  if s.inBrackets ∨ column < s.least then s
  else { s.insertAt i t with columns := column :: s.columns }

/-- Gives up the innermost candidate, unless it has to be a key. -/
def drop (s : Scanner) : Option Scanner :=
  match s.candidates with
  | some c :: rest => if c.isRequired then none else some { s with candidates := none :: rest }
  | _ => some s

/-- Makes what follows a candidate, if a key may stand here. -/
def candidate (s : Scanner) : Option Scanner :=
  if s.keyAllowed then do
    let isRequired := !s.inBrackets && s.columns.head? = some s.place.column
    let s ← s.drop
    let c : Candidate :=
      ⟨s.tokens.size, s.place.line, s.place.column, s.place.offset, isRequired⟩
    return { s with candidates := some c :: s.candidates.tail }
  else some s

/-- Gives up candidates that are too far back to be keys. -/
def dropStale (s : Scanner) : Option Scanner := do
  let candidates ← s.candidates.mapM fun
    | none => some none
    | some c =>
      if c.line < s.place.line ∨ c.offset + 1024 < s.place.offset then
        if c.isRequired then none else some none
      else some (some c)
  return { s with candidates }

/-- Goes past blanks, comments and line breaks. -/
def toToken (fuel : Nat) (s : Scanner) : Scanner :=
  match fuel with
  | 0 => s
  | fuel + 1 =>
    let gapChar (c : Char) : Bool := c = ' ' || (c = '\t' && (s.inBrackets || !s.keyAllowed))
    let place := (s.place.skipWhile gapChar).skipComment
    match break? place.rest with
    | some _ =>
      toToken fuel { s with place := place.skipBreak, keyAllowed := s.keyAllowed || !s.inBrackets }
    | none => { s with place }

/-- One token that stands for itself, of `n` characters. -/
def sign (s : Scanner) (t : Token) (n : Nat) : Scanner :=
  (s.push t).skip n

def marker (s : Scanner) (t : Token) : Option Scanner := do
  let s ← (s.unroll 0).drop
  return (s.allow false).sign t 3

def isWordChar (c : Char) : Bool :=
  c.isAlphanum || c = '_' || c = '-'

/-- A line about the document that follows it. -/
def directive (s : Scanner) : Option Scanner := do
  let s ← (s.unroll 0).drop
  let s := s.allow false
  let p := s.place.skip 1
  let name := p.rest.takeWhile isWordChar
  let p := p.skip name.length
  if ¬ atGap p.rest then none
  let p := p.skipWhile isGap
  let (t, p) ←
    if name = ['Y', 'A', 'M', 'L'] then
      let major := p.rest.takeWhile Char.isDigit
      let p := p.skip major.length
      let minor := (p.rest.drop 1).takeWhile Char.isDigit
      if major ≠ [] ∧ minor ≠ [] ∧ p.rest.head? = some '.' ∧ major.length < 10 ∧ minor.length < 10
      then
        let p := p.skip (minor.length + 1)
        some (Token.version (Decimal.natOf major) (Decimal.natOf minor), p)
      else none
    else if name = ['T', 'A', 'G'] then
      let handle := p.rest.takeWhile (fun c => !isGap c && !isBreak c)
      let p := (p.skip handle.length).skipWhile isGap
      let target := p.rest.takeWhile (fun c => !isGap c && !isBreak c)
      let inner := (handle.drop 1).dropLast
      if handle.head? = some '!' ∧ handle.getLast? = some '!' ∧ inner.all isWordChar ∧ target ≠ []
      then some (Token.shorthand (String.ofList handle), p.skip target.length)
      else none
    else none
  let p := (p.skipWhile isGap).skipComment
  if p.atBreak then return { s.push t with place := p.skipBreak } else none

def openBracket (s : Scanner) (t : Token) : Option Scanner := do
  let s ← s.candidate
  return ({ s with candidates := none :: s.candidates }.allow true).sign t 1

def closeBracket (s : Scanner) (t : Token) : Option Scanner := do
  let s ← s.drop
  let candidates := match s.candidates with
    | _ :: c :: rest => c :: rest
    | l => l
  return ({ s with candidates }.allow false).sign t 1

def entry (s : Scanner) : Option Scanner := do
  if ¬ s.inBrackets ∧ ¬ s.keyAllowed then none
  let s ← (s.roll s.place.column s.tokens.size .sequenceStart).drop
  return (s.allow true).sign .entry 1

def key (s : Scanner) : Option Scanner := do
  if ¬ s.inBrackets ∧ ¬ s.keyAllowed then none
  let s ← (s.roll s.place.column s.tokens.size .mappingStart).drop
  return (s.allow !s.inBrackets).sign .key 1

def value (s : Scanner) : Option Scanner :=
  match s.candidates with
  | some c :: rest =>
    let s := (s.insertAt c.token .key).roll c.column c.token .mappingStart
    some (({ s with candidates := none :: rest }.allow false).sign .value 1)
  | _ =>
    if ¬ s.inBrackets ∧ ¬ s.keyAllowed then none
    else
      let s := s.roll s.place.column s.tokens.size .mappingStart
      some ((s.allow !s.inBrackets).sign .value 1)

/-- The name of an anchor after its sign. -/
def anchor (s : Scanner) (t : String → Token) : Option Scanner := do
  let s ← s.candidate
  let name := (s.place.rest.drop 1).takeWhile isWordChar
  let after := s.place.rest.drop (name.length + 1)
  if name ≠ [] ∧ (atGap after ∨ after.head?.any fun c => "?:,]\x7d%@`".toList.contains c) then
    return (s.allow false).sign (t (String.ofList name)) (name.length + 1)
  else none

def tag (s : Scanner) : Option Scanner := do
  let s ← s.candidate
  let ends (c : Char) : Bool :=
    isGap c || isBreak c
      || (s.inBrackets && (c = ',' || c = '[' || c = ']' || c = '\x7b' || c = '\x7d'))
  let (handle, n) ←
    match s.place.rest with
    | '!' :: '<' :: rest =>
      let uri := rest.takeWhile fun c => !(isGap c || isBreak c || c = '>')
      if uri ≠ [] ∧ rest[uri.length]? = some '>' then some ("", uri.length + 3) else none
    | _ :: rest =>
      let body := rest.takeWhile (!ends ·)
      let inner := body.takeWhile isWordChar
      if body[inner.length]? = some '!' then
        if inner.length + 1 < body.length then
          some ("!" ++ String.ofList inner ++ "!", body.length + 1)
        else none
      else some ("!", body.length + 1)
    | [] => none
  let after := s.place.rest.drop n
  if atGap after ∨ (s.inBrackets ∧ after.head? = some ',') then
    return (s.allow false).sign (.tag handle) n
  else none

def block (s : Scanner) (isLiteral : Bool) : Option Scanner := do
  let s ← s.drop
  let (text, place) ← blockText isLiteral s.least (s.place.skip 1)
  return { (s.push (.scalar (String.ofList text))).allow true with place }

def quoted (s : Scanner) (isSingle : Bool) : Option Scanner := do
  let s ← s.candidate
  let (text, place) ← quotedText isSingle (s.place.rest.length + 1) (s.place.skip 1) []
  return { (s.push (.scalar (String.ofList text))).allow false with place }

def plainText (s : Scanner) : Option Scanner := do
  let s ← s.candidate
  let (text, place, ended) ←
    plain s.inBrackets s.least (s.place.rest.length + 1) s.place [] [] false
  return { (s.push (.scalar (String.ofList text))).allow ended with place }

/-- A plain text may begin here. -/
def startsPlain (s : Scanner) (c : Char) (rest : List Char) : Bool :=
  !(isGap c || isIndicator c || c = '-' || c = '?' || c = ':') ||
    (c = '-' && !rest.head?.any isGap) ||
    (!s.inBrackets && (c = '?' || c = ':') && !atGap rest)

/-- The next token. -/
def step (s : Scanner) : Option Scanner :=
  match s.place.rest with
  | [] => none
  | c :: rest =>
    let gapAfter := atGap rest
    if s.place.column = 0 ∧ c = '%' then s.directive
    else if s.place.atMarker then s.marker (if c = '-' then .documentStart else .documentEnd)
    else if c = '[' then s.openBracket .listOpen
    else if c = '\x7b' then s.openBracket .recordOpen
    else if c = ']' then s.closeBracket .listClose
    else if c = '\x7d' then s.closeBracket .recordClose
    else if c = ',' then do return ((← s.drop).allow true).sign .comma 1
    else if c = '-' ∧ gapAfter then s.entry
    else if c = '?' ∧ (s.inBrackets ∨ gapAfter) then s.key
    else if c = ':' ∧ (s.inBrackets ∨ gapAfter) then s.value
    else if c = '*' then s.anchor .alias_
    else if c = '&' then s.anchor .anchor
    else if c = '!' then s.tag
    else if c = '|' ∧ ¬ s.inBrackets then s.block true
    else if c = '>' ∧ ¬ s.inBrackets then s.block false
    else if c = '\'' then s.quoted true
    else if c = '"' then s.quoted false
    else if s.startsPlain c rest then s.plainText
    else none

/-- All tokens in at most `fuel` steps. -/
def scan (fuel : Nat) (s : Scanner) : Option (Array Token) :=
  match fuel with
  | 0 => none
  | fuel + 1 => do
    let s := s.toToken (s.place.rest.length + 1)
    let s ← s.dropStale
    if s.place.rest = [] then
      let s ← (s.unroll 0).drop
      return s.tokens
    scan fuel (← (s.unroll (s.place.column + 1)).step)

end Scanner

/-- The tokens of a text, all of whose characters may occur in a document. -/
def tokens? (s : String) : Option (List Token) :=
  let chars := match s.toList with
    | '\ufeff' :: rest => rest
    | chars => chars
  if chars.all isAllowed then
    ((Scanner.mk ⟨chars, 0, 0, 0⟩ [] true [none] #[]).scan (chars.length + 2)).map Array.toList
  else none

end SelectiveSync.Yaml
