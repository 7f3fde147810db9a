import SelectiveSync.System.Script.Basic

/-! # Reading scripts

`tokens` cuts a text into words and operators and `parse` puts commands together. What is not
understood makes the whole script none. -/
namespace SelectiveSync.Script
set_option autoImplicit false

inductive Token where
  | word (w : Word)
  | op (s : String)
  deriving Inhabited

/-! ## Words -/

def isNameChar (c : Char) : Bool :=
  c.isAlphanum || c = '_'

def cuts : List (String × Cut) :=
  [("##", ⟨true, true⟩), ("#", ⟨true, false⟩), ("%%", ⟨false, true⟩), ("%", ⟨false, false⟩)]

/-- What ends a word outside quotes, inside them, and inside braces. -/
inductive Around where
  | nothing
  | quotes
  | braces
  deriving DecidableEq

namespace Around

def ends (a : Around) (c : Char) : Bool :=
  match a with
  | nothing => " \t\n;&|()<>".toList.contains c
  | quotes => c = '"'
  | braces => c = '\x7d'

/-- A backslash makes the character after it stand for itself. -/
def escapes (a : Around) (c : Char) : Bool :=
  a ≠ quotes || "$\"\\".toList.contains c

end Around

/-- The name of a variable at the front of a text: one sign or digit, or a whole name. -/
def nameOf : List Char → List Char
  | [] => []
  | c :: rest =>
    if c.isDigit || "@*#?$".toList.contains c then [c] else (c :: rest).takeWhile isNameChar

/-- The pieces of a word and what follows it. -/
def pieces (fuel : Nat) (a : Around) (cs : List Char) : Option (Word × List Char) :=
  match fuel, cs with
  | 0, _ => none
  | _, [] => if a = .nothing then some ([], []) else none
  | fuel + 1, c :: rest =>
    let quoted := a == .quotes
    let more (p : Word) (rest : List Char) : Option (Word × List Char) :=
      (pieces fuel a rest).map fun (w, rest) => (p ++ w, rest)
    if a.ends c then some ([], c :: rest)
    else match c, rest with
      | '$', '\x7b' :: rest => do
        let name := nameOf rest
        let after := rest.drop name.length
        if after.head? = some '\x7d' then
          more [.value (String.ofList name) quoted] (after.drop 1)
        else if [':', '-'].isPrefixOf after then do
          let (otherwise, rest) ← pieces fuel .braces (after.drop 2)
          more [.valueOr (String.ofList name) otherwise quoted] (rest.drop 1)
        else
          let (sign, cut) ← cuts.find? fun (sign, _) => sign.toList.isPrefixOf after
          let (pattern, rest) ← pieces fuel .braces (after.drop sign.length)
          more [.cutValue (String.ofList name) cut pattern quoted] (rest.drop 1)
      | '$', rest =>
        match nameOf rest with
        | [] => more [.text "$" quoted] rest
        | name => more [.value (String.ofList name) quoted] (rest.drop name.length)
      | '\\', '\n' :: rest => more [] rest
      | '\\', d :: rest =>
        more [.text (if a.escapes d then String.singleton d else String.ofList ['\\', d]) true] rest
      | '"', rest =>
        if quoted then none
        else do
          let (w, rest) ← pieces fuel .quotes rest
          more (if w.isEmpty then [.text "" true] else w) (rest.drop 1)
      | '\'', rest =>
        if quoted then more [.text "'" true] rest
        else
          let inner := rest.takeWhile (· ≠ '\'')
          more [.text (String.ofList inner) true] (rest.drop (inner.length + 1))
      | c, rest => more [.text (String.singleton c) quoted] rest

/-! ## Tokens -/

def operators : List String :=
  ["2>>", "2>&1", ">&2", "1>&2", "2>", ";;", "&&", "||", ">>", ";", "|", "(", ")", "<", ">", "\n"]

def tokens (fuel : Nat) (cs : List Char) : Option (List Token) :=
  match fuel, cs with
  | 0, _ => none
  | _, [] => some []
  | fuel + 1, c :: rest =>
    if c = ' ' ∨ c = '\t' then tokens fuel rest
    else if c = '#' then tokens fuel (rest.dropWhile (· ≠ '\n'))
    else match operators.find? fun o => o.toList.isPrefixOf (c :: rest) with
      | some o => (tokens fuel ((c :: rest).drop o.length)).map (.op o :: ·)
      | none => do
        let (w, after) ← pieces (rest.length + 2) .nothing (c :: rest)
        if after.length ≤ rest.length then (tokens fuel after).map (.word w :: ·) else none

/-- The text of a word that holds nothing special. -/
def plain? : Word → Option String
  | [] => some ""
  | .text s false :: rest => (plain? rest).map (s ++ ·)
  | _ => none

/-- The list starts with a word of the language. -/
def startsWith (keyword : String) : List Token → Bool
  | .word w :: _ => plain? w == some keyword
  | _ => false

/-- A name with the value assigned to it. -/
def assignment? (name : String) : Word → Option (String × Word)
  | .text "=" false :: rest => if name = "" then none else some (name, rest)
  | .text s false :: rest =>
    if s.toList.all isNameChar then assignment? (name ++ s) rest else none
  | _ => none

/-! ## Commands -/

def skipBreaks : List Token → List Token
  | .op o :: rest => if o = "\n" ∨ o = ";" then skipBreaks rest else .op o :: rest
  | l => l

def keyword (k : String) (l : List Token) : Option (List Token) :=
  if startsWith k (skipBreaks l) then some ((skipBreaks l).drop 1) else none

def redirect? (op : String) (file : Word) : Option Redirect :=
  match op with
  | "<" => some (.input file)
  | ">" => some (.output 1 false file)
  | ">>" => some (.output 1 true file)
  | "2>" => some (.output 2 false file)
  | "2>>" => some (.output 2 true file)
  | _ => none

def sameOutput? (op : String) : Option Redirect :=
  match op with
  | "2>&1" => some (.same 2 1)
  | ">&2" | "1>&2" => some (.same 1 2)
  | _ => none

/-- A redirection at the front of some tokens. -/
def redirectAt? : List Token → Option (Redirect × List Token)
  | .op o :: rest =>
    match sameOutput? o, rest with
    | some r, rest => some (r, rest)
    | none, .word w :: rest => (redirect? o w).map (·, rest)
    | none, _ => none
  | _ => none

def redirects (fuel : Nat) (l : List Token) : List Redirect × List Token :=
  match fuel, redirectAt? l with
  | fuel + 1, some (r, rest) =>
    let (rs, rest) := redirects fuel rest
    (r :: rs, rest)
  | _, _ => ([], l)

def withRedirects (c : Command) (rs : List Redirect) : Command :=
  if rs.isEmpty then c else .redirected c rs

/-- The words up to the next operator. -/
def wordsAt : List Token → List Word × List Token
  | .word w :: rest =>
    let (ws, rest) := wordsAt rest
    (w :: ws, rest)
  | l => ([], l)

/-- The words and redirections of a simple command. -/
def simpleParts (fuel : Nat) (l : List Token) : List Word × List Redirect × List Token :=
  match fuel with
  | 0 => ([], [], l)
  | fuel + 1 =>
    match wordsAt l, redirectAt? (wordsAt l).2 with
    | (ws, _), some (r, rest) =>
      let (ws', rs, rest) := simpleParts fuel rest
      (ws ++ ws', r :: rs, rest)
    | (ws, rest), none => (ws, [], rest)

/-- The assignments at the front of some words. -/
def assignments : List Word → List (String × Word) × List Word
  | [] => ([], [])
  | w :: ws =>
    match assignment? "" w with
    | some a =>
      let (as, rest) := assignments ws
      (a :: as, rest)
    | none => ([], w :: ws)

/-- The patterns of one arm of a choice. -/
def patternsAt : List Token → Option (List Word × List Token)
  | .word w :: .op o :: rest =>
    if o = "|" then (patternsAt rest).map fun (ws, rest) => (w :: ws, rest)
    else if o = ")" then some ([w], rest)
    else none
  | _ => none

mutual

/-- Commands up to a word or operator that closes them. -/
def listAt (fuel : Nat) (l : List Token) : Option (Command × List Token) :=
  match fuel, skipBreaks l with
  | 0, _ => none
  | _, [] => some (.skip, [])
  | fuel + 1, l =>
    if ["do", "done", "then", "elif", "else", "fi", "esac", "\x7d"].any (startsWith · l) then
      some (.skip, l)
    else match l with
      | .op ";;" :: _ => some (.skip, l)
      | l => do
        let (c, l) ← chainAt fuel l
        let (rest, l) ← listAt fuel l
        return (.andThen c rest, l)

/-- Commands tied by "and" and "or". -/
def chainAt (fuel : Nat) (l : List Token) : Option (Command × List Token) :=
  match fuel with
  | 0 => none
  | fuel + 1 => do
    let (c, l) ← commandAt fuel l
    chainFrom fuel c l

def chainFrom (fuel : Nat) (c : Command) (l : List Token) : Option (Command × List Token) :=
  match fuel, l with
  | fuel + 1, .op "&&" :: l => do
    let (d, l) ← commandAt fuel (skipBreaks l)
    chainFrom fuel (.both c d) l
  | fuel + 1, .op "||" :: l => do
    let (d, l) ← commandAt fuel (skipBreaks l)
    chainFrom fuel (.either c d) l
  | _, l => some (c, l)

def commandAt (fuel : Nat) (l : List Token) : Option (Command × List Token) :=
  match fuel with
  | 0 => none
  | fuel + 1 =>
    if startsWith "!" l then (commandAt fuel (l.drop 1)).map fun (c, l) => (.not_ c, l)
    else do
      let (c, l) ← bareAt fuel l
      let (rs, l) := redirects fuel l
      return (withRedirects c rs, l)

/-- A command without the redirections after it. -/
def bareAt (fuel : Nat) (l : List Token) : Option (Command × List Token) :=
  match fuel with
  | 0 => none
  | fuel + 1 =>
    if startsWith "for" l then
      match l.drop 1 with
      | .word name :: rest => do
        let name ← plain? name
        let (words, rest) := match keyword "in" rest with
          | some rest => (some (wordsAt rest).1, (wordsAt rest).2)
          | none => (none, rest)
        let (body, rest) ← listAt fuel (← keyword "do" rest)
        return (.forEach name words body, ← keyword "done" rest)
      | _ => none
    else if startsWith "while" l then do
      let (condition, rest) ← listAt fuel (l.drop 1)
      let (body, rest) ← listAt fuel (← keyword "do" rest)
      return (.while_ condition body, ← keyword "done" rest)
    else if startsWith "until" l then do
      let (condition, rest) ← listAt fuel (l.drop 1)
      let (body, rest) ← listAt fuel (← keyword "do" rest)
      return (.while_ (.not_ condition) body, ← keyword "done" rest)
    else if startsWith "if" l then branchesAt fuel (l.drop 1)
    else if startsWith "case" l then
      match l.drop 1 with
      | .word w :: rest => do armsAt fuel w (← keyword "in" rest)
      | _ => none
    else if startsWith "\x7b" l then do
      let (body, rest) ← listAt fuel (l.drop 1)
      return (body, ← keyword "\x7d" rest)
    else
      let (words, rs, rest) := simpleParts l.length l
      if words.isEmpty && rs.isEmpty then none
      else
        let (as, words) := assignments words
        some (withRedirects (.simple as words) rs, rest)

/-- The rest of a condition. -/
def branchesAt (fuel : Nat) (l : List Token) : Option (Command × List Token) :=
  match fuel with
  | 0 => none
  | fuel + 1 => do
    let (condition, l) ← listAt fuel l
    let (yes, l) ← listAt fuel (← keyword "then" l)
    if startsWith "elif" l then
      let (no, l) ← branchesAt fuel (l.drop 1)
      return (.ifElse condition yes no, l)
    else if startsWith "else" l then
      let (no, l) ← listAt fuel (l.drop 1)
      return (.ifElse condition yes no, ← keyword "fi" l)
    else return (.ifElse condition yes .skip, ← keyword "fi" l)

/-- The arms of a choice. -/
def armsAt (fuel : Nat) (w : Word) (l : List Token) : Option (Command × List Token) :=
  match fuel, skipBreaks l with
  | 0, _ => none
  | fuel + 1, l =>
    if startsWith "esac" l then some (.skip, l.drop 1)
    else do
      let (patterns, l) ← patternsAt (match l with
        | .op "(" :: l => l
        | l => l)
      let (body, l) ← listAt fuel l
      let (otherwise, l) ← armsAt fuel w (match l with
        | .op ";;" :: l => l
        | l => l)
      return (.choice w patterns body otherwise, l)

end

def parse (s : String) : Option Command := do
  let l ← tokens (s.length + 1) s.toList
  match ← listAt (8 * l.length + 8) l with
  | (c, []) => some c
  | _ => none

end SelectiveSync.Script
