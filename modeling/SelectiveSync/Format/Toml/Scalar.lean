import SelectiveSync.Format.Decimal
import SelectiveSync.Format.Value
import SelectiveSync.Format.Toml.Text

/-! # Numbers, truth values and moments in TOML

Whatever is written without quotes is a word of letters, digits and a few signs. `scalar?` says what
a word means, if anything. -/
namespace SelectiveSync.Toml
set_option autoImplicit false

/-- A character of an unquoted word. -/
def isWordChar (c : Char) : Bool :=
  c.isAlphanum || c = '+' || c = '-' || c = '_' || c = '.' || c = ':'

/-! ## Numbers -/

/-- The digits of a run in which underscores stand between digits only. -/
def run? (isDigit : Char → Bool) : List Char → Option (List Char)
  | [] => none
  | [c] => if isDigit c then some [c] else none
  | c :: '_' :: rest => if isDigit c then (run? isDigit rest).map (c :: ·) else none
  | c :: rest => if isDigit c then (run? isDigit rest).map (c :: ·) else none

def valueOf (base : Nat) (digits : List Char) : Nat :=
  digits.foldl (fun n c => n * base + (hexDigit? c).getD 0) 0

/-- A sign at the front: whether it is a minus, and the rest. -/
def signed : List Char → Bool × List Char
  | '-' :: rest => (true, rest)
  | '+' :: rest => (false, rest)
  | s => (false, s)

/-- The digits of a decimal number, which has no zero before others. -/
def decimal? : List Char → Option (List Char)
  | '0' :: _ :: _ => none
  | s => run? Char.isDigit s

/-- The number fits into 64 bits. -/
def ranged? (negative : Bool) (n : Nat) : Option Int :=
  if negative then if n ≤ Decimal.integerLimit then some (-n) else none
  else if n < Decimal.integerLimit then some n else none

def integer? : List Char → Option Int
  | '0' :: 'x' :: rest =>
    (run? (fun c => (hexDigit? c).isSome) rest).bind (ranged? false ∘ valueOf 16)
  | '0' :: 'o' :: rest => (run? (fun c => '0' ≤ c && c ≤ '7') rest).bind (ranged? false ∘ valueOf 8)
  | '0' :: 'b' :: rest => (run? (fun c => c = '0' || c = '1') rest).bind (ranged? false ∘ valueOf 2)
  | s =>
    let (negative, rest) := signed s
    (decimal? rest).bind (ranged? negative ∘ valueOf 10)

/-- Without its sign: the digits before the point, those after it, and the exponent. -/
def float? (s : List Char) : Bool :=
  let (negative, body) := signed s
  if body = ['i', 'n', 'f'] ∨ body = ['n', 'a', 'n'] then true
  else
    let isE (c : Char) := c = 'e' || c = 'E'
    let mantissa := body.takeWhile (!isE ·)
    let exponent := body.drop mantissa.length
    let whole := mantissa.takeWhile (· ≠ '.')
    let places := mantissa.drop whole.length
    let wholeDigits := decimal? whole
    let placeDigits := match places with
      | [] => some []
      | _ :: digits => run? Char.isDigit digits
    let exponentDigits := match exponent with
      | [] => some (false, ['0'])
      | _ :: rest =>
        let (down, digits) := signed rest
        (run? Char.isDigit digits).map (down, ·)
    match wholeDigits, placeDigits, exponentDigits with
    | some w, some p, some (down, e) =>
      !(places = [] && exponent = []) &&
        (negative || Decimal.isFinite (valueOf 10 (w ++ p)) p.length down (valueOf 10 e))
    | _, _, _ => false

/-! ## Moments -/

/-- A number of two digits up to a limit, and what follows. -/
def pair? (limit : Nat) : List Char → Option (List Char × List Char)
  | a :: b :: rest =>
    if a.isDigit ∧ b.isDigit ∧ valueOf 10 [a, b] ≤ limit then some ([a, b], rest) else none
  | _ => none

def expect? (c : Char) : List Char → Option (List Char)
  | d :: rest => if c = d then some rest else none
  | [] => none

def isLeap (year : Nat) : Bool :=
  year % 4 = 0 && (year % 100 ≠ 0 || year % 400 = 0)

def daysIn (year month : Nat) : Nat :=
  if month = 2 then if isLeap year then 29 else 28
  else if month = 4 ∨ month = 6 ∨ month = 9 ∨ month = 11 then 30
  else 31

/-- A date as it is written, and what follows it. -/
def date? (s : List Char) : Option (List Char × List Char) := do
  let (century, rest) ← pair? 99 s
  let (year, rest) ← pair? 99 rest
  let (month, rest) ← pair? 12 (← expect? '-' rest)
  let (day, rest) ← pair? 31 (← expect? '-' rest)
  let (y, m, d) := (valueOf 10 (century ++ year), valueOf 10 month, valueOf 10 day)
  if 1 ≤ m ∧ 1 ≤ d ∧ d ≤ daysIn y m then
    return (century ++ year ++ '-' :: month ++ '-' :: day, rest)
  else none

/-- The part of a second: at most nine digits count, and zeros at their end do not. -/
def secondPart (digits : List Char) : List Char :=
  match ((digits.take 9).reverse.dropWhile (· = '0')).reverse with
  | [] => []
  | shown => '.' :: shown

/-- A time of day in its shortest form, and what follows it. -/
def time? (s : List Char) : Option (List Char × List Char) := do
  let (hour, rest) ← pair? 23 s
  let (minute, rest) ← pair? 59 (← expect? ':' rest)
  let (second, rest) ← pair? 60 (← expect? ':' rest)
  let whole := hour ++ ':' :: minute ++ ':' :: second
  match rest with
  | '.' :: rest =>
    let digits := rest.takeWhile Char.isDigit
    if digits = [] then none else return (whole ++ secondPart digits, rest.drop digits.length)
  | rest => return (whole, rest)

/-- A whole offset from universal time, or none at all. -/
def offset? : List Char → Option (List Char)
  | [] => some []
  | ['Z'] | ['z'] => some ['Z']
  | sign :: rest => do
    if sign ≠ '+' ∧ sign ≠ '-' then none
    else
      let (hour, rest) ← pair? 23 rest
      let (minute, rest) ← pair? 59 (← expect? ':' rest)
      let shown := if valueOf 10 (hour ++ minute) = 0 then '+' else sign
      if rest = [] then return shown :: hour ++ ':' :: minute else none

/-- A time of day with an offset. -/
def timed? (s : List Char) : Option (List Char) := do
  let (time, rest) ← time? s
  return time ++ (← offset? rest)

/-- A date, a time of day, or both. -/
def moment? (s : List Char) : Option (List Char) :=
  match date? s with
  | some (date, []) => some date
  | some (date, c :: rest) =>
    if c = 'T' ∨ c = 't' then (timed? rest).map (date ++ 'T' :: ·) else none
  | none =>
    match time? s with
    | some (time, []) => some time
    | _ => none

/-! ## Words -/

/-- The name under which a moment shows as a record of one field. -/
def momentField : String := "$__toml_private_datetime"

def momentValue (s : List Char) : Value :=
  .record [(momentField, .text (String.ofList s))]

def scalar? (word : List Char) : Option Value :=
  if word = ['t', 'r', 'u', 'e'] then some (.bool true)
  else if word = ['f', 'a', 'l', 's', 'e'] then some (.bool false)
  else match moment? word with
    | some m => some (momentValue m)
    | none =>
      match integer? word with
      | some i => some (.integer i)
      | none => if float? word then some .other else none

/-- The value of a word at the front of a text, and what follows. Between a date and a time of day
may be a blank. -/
def word? (s : List Char) : Option (Value × List Char) :=
  let word := s.takeWhile isWordChar
  let rest := s.drop word.length
  let joined :=
    match rest with
    | ' ' :: more => do
      let (date, after) ← date? word
      let second := more.takeWhile isWordChar
      if after = [] then return (date ++ 'T' :: (← timed? second), more.drop second.length)
      else none
    | _ => none
  match joined with
  | some (m, rest) => some (momentValue m, rest)
  | none => (scalar? word).map (·, rest)

end SelectiveSync.Toml
