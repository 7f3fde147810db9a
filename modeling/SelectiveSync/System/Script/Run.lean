import SelectiveSync.System.Script.Reader
import SelectiveSync.System.World

/-! # Running scripts

A script runs in a world, with its arguments, variables and the places where its input comes from
and its output goes. `Script.executables` lets the program files of a world be scripts.

A script that takes too many steps is ended by a signal. A limit on the size of files holds for the
programs that a script starts, which are taken to have been told to go on at it. -/
namespace SelectiveSync.Script
set_option autoImplicit false

/-! ## Words -/

/-- A part of what a word stands for: a character, an edge of something quoted, which makes a field
even if nothing is in it, or a gap between two fields. -/
inductive Atom where
  | char (c : Char) (quoted : Bool)
  | edge
  | gap
  deriving DecidableEq

def isBlank (c : Char) : Bool :=
  c = ' ' || c = '\t' || c = '\n'

/-- A text found in a word. What is not quoted falls apart at its blanks. -/
def atoms (quoted splits : Bool) (s : String) : List Atom :=
  (if quoted then [.edge] else []) ++ s.toList.map fun c =>
    if splits && !quoted && isBlank c then .gap else .char c quoted

/-- The characters of a word, without cutting it into fields. -/
def chars (l : List Atom) : List (Char × Bool) :=
  l.filterMap fun
    | .char c q => some (c, q)
    | .gap => some (' ', true)
    | .edge => none

def joined (l : List Atom) : String :=
  String.ofList ((chars l).map (·.1))

/-- The character is one of a set, in which a hyphen between two characters means those between. -/
def inSet (c : Char) : List Char → Bool
  | a :: '-' :: b :: rest => (a ≤ c && c ≤ b) || inSet c rest
  | a :: rest => a = c || inSet c rest
  | [] => false

/-- A pattern matches a text as a whole. Quoted characters stand for themselves. -/
def matchesPattern : List (Char × Bool) → List Char → Bool
  | [], s => s.isEmpty
  | (p, q) :: ps, [] => p = '*' && !q && matchesPattern ps []
  | (p, q) :: ps, c :: s =>
    if p = '*' ∧ ¬ q then matchesPattern ps (c :: s) || matchesPattern ((p, q) :: ps) s
    else if p = '?' ∧ ¬ q then matchesPattern ps s
    else if p = '[' ∧ ¬ q then
      let set := (ps.takeWhile (· ≠ (']', false))).map (·.1)
      if set.length = ps.length then c = '[' && matchesPattern ps s
      else
        let negated := set.head? = some '!'
        (inSet c (if negated then set.drop 1 else set) != negated)
          && matchesPattern (ps.drop (set.length + 1)) s
    else p = c && matchesPattern ps s
termination_by ps s => ps.length + s.length
decreasing_by all_goals (simp only [List.length_cons, List.length_drop, List.length_nil]; omega)

/-- The files whose names match a pattern, in the directory that is written before it. -/
def matchingFiles (w : World) (word : List (Char × Bool)) : List String :=
  let named := (word.reverse.takeWhile (·.1 ≠ '/')).reverse
  let before := String.ofList ((word.take (word.length - named.length)).map (·.1))
  let hidden := named.head?.map (·.1) == some '.'
  match w.files.entry w.cwd (if before = "" then "." else before) with
  | .ok (l, .directory) =>
    let names := ((w.files.list l).map (·.1)).filter fun name =>
      (hidden || !Text.startsWith '.' name) && matchesPattern named name.toList
    (names.mergeSort fun a b => a ≤ b).map (before ++ ·)
  | _ => []

/-- The fields that a word stands for: what lies between its gaps, if there is anything, and for a
pattern the files that match it, if there are any. -/
def fields (w : World) (l : List Atom) : List String :=
  (l.splitOn .gap).flatMap fun part =>
    if part.isEmpty then []
    else
      let word := chars part
      let files := if word.any fun (c, quoted) => !quoted && "*?[".toList.contains c then
        matchingFiles w word else []
      if files.isEmpty then [joined part] else files

def cutOff (cut : Cut) (pattern : List (Char × Bool)) (s : List Char) : List Char :=
  let sizes := List.range (s.length + 1)
  let tried := if cut.longest == cut.atStart then sizes.reverse else sizes
  if cut.atStart then
    match tried.find? fun n => matchesPattern pattern (s.take n) with
    | some n => s.drop n
    | none => s
  else
    match tried.find? fun n => matchesPattern pattern (s.drop n) with
    | some n => s.take n
    | none => s

/-! ## State -/

inductive Sink where
  | out
  | err
  | file (l : Location)

structure Shell where
  world : World
  name : String
  args : List String
  bindings : List (String × String) := []
  status : Nat := 0
  input : List Char := []
  out : Sink := .out
  err : Sink := .err
  /-- The number of the process that started the script. -/
  parent : Nat := 1
  /-- The size beyond which no program that the script starts can make a file grow. -/
  sizeLimit : Option Nat := none

namespace Shell

/-- The number of the process in which the script runs. -/
def process : Nat := 2

def value (sh : Shell) (name : String) : String :=
  match name with
  | "@" | "*" => " ".intercalate sh.args
  | "#" => toString sh.args.length
  | "?" => toString sh.status
  | "$" => toString process
  | "PPID" => toString sh.parent
  | "0" => sh.name
  | "PWD" => sh.world.cwd.text
  | n =>
    match n.toNat? with
    | some k => (sh.args[k - 1]?).getD ""
    | none => ((sh.bindings.lookup n).or (sh.world.environment.lookup n)).getD ""

mutual

def expandPiece (sh : Shell) : Piece → List Atom
  | .text s q => atoms q false s
  | .value "@" true => [Atom.gap].intercalate (sh.args.map (atoms true false))
  | .value name q => atoms q true (sh.value name)
  | .cutValue name cut pattern q =>
    atoms q true (String.ofList
      (cutOff cut (chars (expand sh pattern)) (sh.value name).toList))
  | .valueOr name otherwise q =>
    atoms q true (if sh.value name = "" then joined (expand sh otherwise) else sh.value name)

/-- What a word stands for. -/
def expand (sh : Shell) : List Piece → List Atom
  | [] => []
  | p :: rest => expandPiece sh p ++ expand sh rest

end

def text (sh : Shell) (w : Word) : String :=
  joined (sh.expand w)

/-- Writes to the end of an output. -/
def emit (sh : Shell) (sink : Sink) (s : String) : Shell :=
  let w := sh.world
  match sink with
  | .out => { sh with world := { w with out := w.out ++ s } }
  | .err => { sh with world := { w with err := w.err ++ s } }
  | .file l =>
    if l = ["dev", "null"] then sh
    else match w.files.get? l with
    | some (.file bytes x) =>
      { sh with world := { w with files := w.files.insert l (.file (bytes ++ s.toUTF8) x) } }
    | _ => sh

def complain (sh : Shell) (message : String) : Shell :=
  sh.emit sh.err (sh.name ++ ": 1: " ++ message ++ "\n")

/-- The shell with a redirection in effect, or with a complaint that it cannot be. -/
def redirect (sh : Shell) (r : Redirect) : Except Shell Shell :=
  let w := sh.world
  match r with
  | .same fd other =>
    let sink := if other = 2 then sh.err else sh.out
    .ok (if fd = 2 then { sh with err := sink } else { sh with out := sink })
  | .input file =>
    match w.files.read w.cwd (sh.text file) with
    | .ok bytes => .ok { sh with input := ((String.fromUTF8? bytes).getD "").toList }
    | .error _ => .error (sh.complain ("cannot open " ++ sh.text file ++ ": No such file"))
  | .output fd append file =>
    match w.files.openWith w.cwd (fun b => if append then b else .empty) (sh.text file) with
    | .ok (l, files) =>
      let sh := { sh with world := { w with files } }
      .ok (if fd = 2 then { sh with err := .file l } else { sh with out := .file l })
    | .error _ =>
      .error (sh.complain ("cannot create " ++ sh.text file ++ ": Directory nonexistent"))

end Shell

/-! ## Built-in commands -/

def isOctal (c : Char) : Bool :=
  '0' ≤ c && c ≤ '7'

/-- The character that an escape stands for, and what follows the escape. -/
def escape : List Char → List Char × List Char
  | [] => (['\\'], [])
  | c :: rest =>
    let digits := ((c :: rest).take 3).takeWhile isOctal
    match "abfnrtv\\\"".toList.zip "\x07\x08\x0c\n\r\t\x0b\\\"".toList |>.lookup c with
    | some d => ([d], rest)
    | none =>
      if digits.isEmpty then (['\\', c], rest)
      else
        ([Char.ofNat (digits.foldl (fun n d => 8 * n + (d.toNat - '0'.toNat)) 0)],
          (c :: rest).drop digits.length)

/-- One pass over a format: what it gives, and the arguments that are left. -/
def format (fuel : Nat) (f : List Char) (args : List String) : List Char × List String :=
  match fuel, f with
  | 0, _ => ([], args)
  | _, [] => ([], args)
  | fuel + 1, '%' :: '%' :: rest =>
    let (s, args) := format fuel rest args
    ('%' :: s, args)
  | fuel + 1, '%' :: rest =>
    let rest := rest.dropWhile fun c => !c.isAlpha
    let arg := (args.head?).getD ""
    let text := if rest.head? = some 'd' then toString ((arg.toInt?).getD 0) else arg
    let (s, args) := format fuel (rest.drop 1) (args.drop 1)
    (text.toList ++ s, args)
  | fuel + 1, '\\' :: rest =>
    let (c, rest) := escape rest
    let (s, args) := format fuel rest args
    (c ++ s, args)
  | fuel + 1, c :: rest =>
    let (s, args) := format fuel rest args
    (c :: s, args)

/-- The format is used again as long as it takes arguments. -/
def formatAll (fuel : Nat) (f : List Char) (args : List String) : List Char :=
  match fuel with
  | 0 => []
  | fuel + 1 =>
    let (s, rest) := format (f.length + 1) f args
    if rest.isEmpty || rest.length = args.length then s else s ++ formatAll fuel f rest

def compareNumbers (op : String) (a b : Int) : Bool :=
  match op with
  | "-eq" => a == b
  | "-ne" => a != b
  | "-lt" => a < b
  | "-le" => a ≤ b
  | "-gt" => a > b
  | "-ge" => a ≥ b
  | _ => false

/-- A condition on texts, numbers or files. -/
def test (w : World) : List String → Bool
  | [] => false
  | [s] => s ≠ ""
  | ["!", s] => s = ""
  | ["-n", s] => s ≠ ""
  | ["-z", s] => s = ""
  | [op, path] =>
    match op, w.files.entry w.cwd path with
    | "-d", .ok (_, .directory) => true
    | "-f", .ok (_, .file ..) => true
    | "-s", .ok (_, .file bytes _) => bytes.size ≠ 0
    | "-x", .ok (_, .file _ x) => x
    | "-e", .ok _ | "-r", .ok _ | "-w", .ok _ => true
    | _, _ => false
  | [a, op, b] =>
    match op with
    | "=" => a = b
    | "!=" => a ≠ b
    | op =>
      match a.toInt?, b.toInt? with
      | some x, some y => compareNumbers op x y
      | _, _ => a = "!" && !(if op = "-n" then b ≠ "" else if op = "-z" then b = ""
          else (w.files.entry w.cwd b).toBool)
  | _ => false

/-- The words of a line as the values of names, the last of which takes what is left. -/
def assigned (splits : Bool) : List String → List Char → List (String × String)
  | [], _ => []
  | [n], line => [(n, String.ofList
      (if splits then (line.reverse.dropWhile isBlank).reverse.dropWhile isBlank else line))]
  | n :: more, line =>
    let line := if splits then line.dropWhile isBlank else line
    let word := if splits then line.takeWhile fun c => !isBlank c else line
    (n, String.ofList word) :: assigned splits more (line.drop word.length)

/-- Reads a line of input. -/
def readLine (sh : Shell) (splits : Bool) (args : List String) : Shell :=
  let line := sh.input.takeWhile (· ≠ '\n')
  let rest := sh.input.drop line.length
  let line := if args.contains "-r" then line else line.filter (· ≠ '\\')
  let names := args.filter (· ≠ "-r")
  { sh with
    bindings := assigned splits names line ++ sh.bindings
    input := rest.drop 1
    status := if rest.isEmpty then 1 else 0 }

/-- How a command ends: the script goes on after it, after the loop around it or with the loop's
next round, or it is over. -/
inductive Flow where
  | next
  | leaveLoop
  | nextRound
  | exit (status : Nat)
  | killed
  deriving DecidableEq

/-- The commands that need no program. -/
def builtIn? (sh : Shell) (assignments : List (String × String)) (name : String)
    (args : List String) : Option (Flow × Shell) :=
  let done (sh : Shell) (status : Nat) : Option (Flow × Shell) :=
    some (.next, { sh with status })
  let number : Option Nat := args.head?.bind String.toNat?
  match name with
  | ":" | "true" => done sh 0
  | "false" => done sh 1
  | "exit" => some (.exit (number.getD sh.status % 256), sh)
  | "kill" => some (.killed, sh)
  | "break" => some (.leaveLoop, { sh with status := 0 })
  | "continue" => some (.nextRound, { sh with status := 0 })
  | "cd" =>
    match sh.world.files.entry sh.world.cwd (args.headD "") with
    | .ok (l, .directory) => done { sh with world := { sh.world with cwd := l } } 0
    | _ => done (sh.complain ("cd: can't cd to " ++ args.headD "")) 2
  | "pwd" => done (sh.emit sh.out (sh.world.cwd.text ++ "\n")) 0
  | "trap" => done sh 0
  | "ulimit" =>
    match args with
    | ["-f", blocks] =>
      done { sh with sizeLimit := blocks.toNat?.map (512 * ·) } 0
    | _ => done sh 2
  | "shift" => done { sh with args := sh.args.drop (number.getD 1) } 0
  | "echo" =>
    match args with
    | "-n" :: args => done (sh.emit sh.out (" ".intercalate args)) 0
    | args => done (sh.emit sh.out (" ".intercalate args ++ "\n")) 0
  | "printf" =>
    match args with
    | [] => done sh 2
    | f :: args =>
      done (sh.emit sh.out (String.ofList (formatAll (args.length + 1) f.toList args))) 0
  | "read" => some (.next, readLine sh (assignments.lookup "IFS" != some "") args)
  | "test" => done sh (if test sh.world args then 0 else 1)
  | "[" => done sh (if test sh.world args.dropLast then 0 else 1)
  | _ => none

/-! ## Commands -/

/-- The script in a program file, if the file says that the shell reads it. -/
def ofBytes (bytes : ByteArray) : Except Fault (Option Command) :=
  match ((String.fromUTF8? bytes).getD "").toList with
  | '#' :: '!' :: rest =>
    let first := String.ofList (rest.takeWhile (· ≠ '\n'))
    match (Text.pieces ' ' first).find? (· ≠ "") with
    | none => .error .notExecutable
    | some interpreter =>
      if ["/bin/sh", "/bin/bash", "/bin/dash", "/usr/bin/sh"].contains interpreter then
        .ok (parse (String.ofList (rest.drop first.length)))
      else .error .noEntry
  | _ => .error .notExecutable

/-- What scripts find around them. -/
structure Surroundings where
  /-- The number of the process that starts scripts. -/
  parent : Nat := 1
  /-- The program at a location, if that is none that the shell reads, for a limit on the size of
  files. -/
  program : Option Nat → Location → Option
    (String → List String → World → Except Fault (Option Nat) × World) := fun _ _ => none

mutual

def run (around : Surroundings) (fuel : Nat) (c : Command) (sh : Shell) : Flow × Shell :=
  match fuel with
  | 0 => (.killed, sh)
  | fuel + 1 =>
    match c with
    | .skip => (.next, sh)
    | .andThen a b =>
      match run around fuel a sh with
      | (.next, sh) => run around fuel b sh
      | other => other
    | .both a b =>
      match run around fuel a sh with
      | (.next, sh) => if sh.status = 0 then run around fuel b sh else (.next, sh)
      | other => other
    | .either a b =>
      match run around fuel a sh with
      | (.next, sh) => if sh.status = 0 then (.next, sh) else run around fuel b sh
      | other => other
    | .not_ a =>
      match run around fuel a sh with
      | (.next, sh) => (.next, { sh with status := if sh.status = 0 then 1 else 0 })
      | other => other
    | .ifElse condition yes no =>
      match run around fuel condition sh with
      | (.next, sh) =>
        if sh.status = 0 then run around fuel yes sh else run around fuel no { sh with status := 0 }
      | other => other
    | .while_ condition body =>
      match run around fuel condition sh with
      | (.next, sh) =>
        if sh.status = 0 then
          match run around fuel body sh with
          | (.next, sh) | (.nextRound, sh) => run around fuel (.while_ condition body) sh
          | (.leaveLoop, sh) => (.next, sh)
          | other => other
        else (.next, { sh with status := 0 })
      | other => other
    | .forEach name words body =>
      let items := match words with
        | some words => words.flatMap fun w => fields sh.world (sh.expand w)
        | none => sh.args
      let rounds : Flow × Shell := items.foldl (fun state item =>
        match state with
        | (.next, sh) | (.nextRound, sh) =>
          run around fuel body { sh with bindings := (name, item) :: sh.bindings }
        | other => other) (.next, { sh with status := 0 })
      match rounds with
      | (.leaveLoop, sh) | (.nextRound, sh) => (.next, sh)
      | other => other
    | .choice w patterns body otherwise =>
      if patterns.any fun p => matchesPattern (chars (sh.expand p)) (sh.text w).toList then
        run around fuel body { sh with status := 0 }
      else run around fuel otherwise { sh with status := 0 }
    | .redirected c redirects =>
      match redirects.foldlM Shell.redirect sh with
      | .error complaining =>
        (.next, { complaining with status := 2, out := sh.out, err := sh.err })
      | .ok redirected =>
        let (flow, after) := run around fuel c redirected
        let reads := redirects.any fun r => r matches .input _
        (flow, { after with
          out := sh.out, err := sh.err, input := if reads then sh.input else after.input })
    | .simple assignments words =>
      let values := assignments.map fun (n, w) => (n, sh.text w)
      match words.flatMap fun w => fields sh.world (sh.expand w) with
      | [] => (.next, { sh with bindings := values ++ sh.bindings, status := 0 })
      | name :: args =>
        match builtIn? sh values name args with
        | some result => result
        | none =>
          match sh.world.executable name with
          | .error _ => (.next, { sh.complain (name ++ ": not found") with status := 127 })
          | .ok (l, path) =>
            let before := sh.world
            let (ended, w) :=
              runFile around sh.sizeLimit fuel l path args { before with out := "", err := "" }
            let sh := { sh with world := { w with out := before.out, err := before.err } }
            let sh := (sh.emit sh.out w.out).emit sh.err w.err
            (.next, { sh with
              status := match ended with
                | .ok (some status) => status
                | .ok none => 137
                | .error _ => 126 })

/-- Runs the program at a location: how it ends, and the world after it. -/
def runFile (around : Surroundings) (sizeLimit : Option Nat) (fuel : Nat) (l : Location)
    (path : String) (args : List String) (w : World) : Except Fault (Option Nat) × World :=
  match fuel with
  | 0 => (.ok none, w)
  | fuel + 1 =>
    match around.program sizeLimit l, w.files.get? l with
    | some program, _ => program path args w
    | none, some (.file bytes _) =>
      match ofBytes bytes with
      | .error fault => (.error fault, w)
      | .ok none => (.ok (some 2), w)
      | .ok (some c) =>
        let (flow, sh) := run around fuel c
          { world := w, name := path, args, parent := around.parent, sizeLimit }
        let ended := match flow with
          | .exit status => some status
          | .killed => none
          | _ => some sh.status
        (.ok ended, { sh.world with cwd := w.cwd })
    | none, _ => (.error .denied, w)

end

/-- The most steps one inside the other that a script may take. -/
def stepLimit : Nat := 100000

/-- The program files of a world, scripts and others. -/
def executables (around : Surroundings) : Executables :=
  runFile around none stepLimit

end SelectiveSync.Script
