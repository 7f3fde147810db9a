import SelectiveSync.Transfer.Plan

/-! # Command lines as a shell reads them

A shell takes a line apart character by character. Blanks end words. Between single quotes every
character stands for itself, and so does the one behind a backslash. What is written without a blank
between is one word.

* `Shell.Reading.step` reads one character and `Shell.words?` a line.
* `foldlM_shellWord`: an argument is read as one word, whatever is in it.
* `words?_commandLine`: the words of a command line are the arguments it was made of.
* `line_reads_back`: the line of a report says what the command was, and no two commands have the
  same line. -/
namespace SelectiveSync
set_option autoImplicit false

namespace Shell

/-- How the next character is taken. -/
inductive Mode where
  | unquoted
  | quoted
  | escaped
  deriving DecidableEq

/-- What a shell has read: the words behind which there was a blank, and the word it is in. -/
structure Reading where
  words : List String
  word : Option (List Char)
  mode : Mode
  deriving DecidableEq

def blanks : List Char := [' ', '\t']

/-- Characters that do not stand for themselves unless they are quoted. A line with one of them is
not just words. -/
def operators : List Char := "\n|&;<>()$`\"*?[#~".toList

namespace Reading

def start : Reading := ⟨[], none, .unquoted⟩

/-- All words, the last one ending here. -/
def complete (r : Reading) : List String :=
  r.words ++ (r.word.map String.ofList).toList

/-- The reading goes on in the word it is in, or in a new one. -/
def enter (r : Reading) (mode : Mode) : Reading :=
  { r with word := some (r.word.getD []), mode }

def put (r : Reading) (c : Char) : Reading :=
  { r with word := some (r.word.getD [] ++ [c]) }

def stepUnquoted (r : Reading) (c : Char) : Option Reading :=
  if c ∈ blanks then some ⟨r.complete, none, .unquoted⟩
  else if c = '\'' then some (r.enter .quoted)
  else if c = '\\' then some (r.enter .escaped)
  else if c ∈ operators then none
  else some (r.put c)

def step (r : Reading) (c : Char) : Option Reading :=
  match r.mode with
  | .unquoted => r.stepUnquoted c
  | .quoted => some (if c = '\'' then r.enter .unquoted else r.put c)
  | .escaped => some ((r.put c).enter .unquoted)

/-- The words at the end of a line, unless something quoted has not ended. -/
def finish (r : Reading) : Option (List String) :=
  if r.mode = .unquoted then some r.complete else none

end Reading

/-- The words of a line. -/
def words? (line : String) : Option (List String) :=
  (line.toList.foldlM Reading.step .start).bind Reading.finish

/-! ## Words -/

namespace Reading
open Text

variable (ws : List String) (w : List Char)

theorem not_isPlain {c : Char} (h : c ∈ blanks ++ '\'' :: '\\' :: operators) :
    isPlain c = false := by
  have hall : (blanks ++ '\'' :: '\\' :: operators).all (fun c => !isPlain c) = true := by decide
  simpa using List.all_eq_true.1 hall c h

theorem step_plain {c : Char} (h : isPlain c = true) :
    step ⟨ws, some w, .unquoted⟩ c = some ⟨ws, some (w ++ [c]), .unquoted⟩ := by
  have hne : c ∉ blanks ++ '\'' :: '\\' :: operators := fun hc => by
    rw [not_isPlain hc] at h
    cases h
  simp only [List.mem_append, List.mem_cons, not_or] at hne
  show stepUnquoted _ c = _
  rw [stepUnquoted, if_neg hne.1, if_neg hne.2.1, if_neg hne.2.2.1, if_neg hne.2.2.2]
  rfl

theorem foldlM_plain {cs : List Char} (h : ∀ c ∈ cs, isPlain c = true) :
    cs.foldlM step ⟨ws, some w, .unquoted⟩ = some ⟨ws, some (w ++ cs), .unquoted⟩ := by
  induction cs generalizing w with
  | nil => rw [List.append_nil]; rfl
  | cons c cs ih =>
    obtain ⟨hc, hcs⟩ := List.forall_mem_cons.1 h
    rw [List.foldlM_cons, step_plain ws w hc]
    exact (ih (w ++ [c]) hcs).trans (by rw [List.append_assoc]; rfl)

theorem foldlM_singleQuotedChar (c : Char) :
    (singleQuotedChar c).foldlM step ⟨ws, some w, .quoted⟩ =
      some ⟨ws, some (w ++ [c]), .quoted⟩ := by
  rw [singleQuotedChar]
  split
  · next hc =>
    subst hc
    rfl
  · next hc =>
    have hstep : step ⟨ws, some w, .quoted⟩ c = some ⟨ws, some (w ++ [c]), .quoted⟩ :=
      congrArg some (if_neg hc)
    rw [List.foldlM_cons, hstep]
    rfl

theorem foldlM_quoted (cs : List Char) :
    (cs.flatMap singleQuotedChar).foldlM step ⟨ws, some w, .quoted⟩ =
      some ⟨ws, some (w ++ cs), .quoted⟩ := by
  induction cs generalizing w with
  | nil => rw [List.append_nil]; rfl
  | cons c cs ih =>
    rw [List.flatMap_cons, List.foldlM_append, foldlM_singleQuotedChar]
    exact (ih (w ++ [c])).trans (by rw [List.append_assoc]; rfl)

/-- A word begins with its first character, if that is no blank. -/
theorem step_between {c : Char} (h : c ∉ blanks) :
    step ⟨ws, none, .unquoted⟩ c = step ⟨ws, some [], .unquoted⟩ c := by
  show stepUnquoted _ c = stepUnquoted _ c
  rw [stepUnquoted, stepUnquoted, if_neg h, if_neg h]
  rfl

/-- An argument is read as one word, whatever is in it. -/
theorem foldlM_shellWord (s : String) :
    (shellWord s).toList.foldlM step ⟨ws, none, .unquoted⟩ =
      some ⟨ws, some s.toList, .unquoted⟩ := by
  rw [shellWord]
  split
  · next h =>
    obtain ⟨hne, hplain⟩ := h
    obtain ⟨c, cs, hcs⟩ := List.exists_cons_of_ne_nil fun hnil => hne (String.toList_eq_nil_iff.1 hnil)
    have hall : ∀ d ∈ s.toList, isPlain d = true := List.all_eq_true.1 hplain
    have hc : c ∉ blanks := fun hblank => by
      have hfalse := not_isPlain (List.mem_append_left _ hblank)
      rw [hall c (by rw [hcs]; simp)] at hfalse
      cases hfalse
    have hread := foldlM_plain ws [] hall
    rw [hcs, List.foldlM_cons] at hread ⊢
    rw [step_between ws hc, hread, List.nil_append]
  · rw [String.toList_ofList, List.cons_append, List.foldlM_cons]
    have hopen : step ⟨ws, none, .unquoted⟩ '\'' = some ⟨ws, some [], .quoted⟩ := rfl
    rw [hopen]
    refine (List.foldlM_append ..).trans ?_
    rw [foldlM_quoted, List.nil_append]
    rfl

/-! ## Lines -/

theorem complete_word (s : String) : complete ⟨ws, some s.toList, .unquoted⟩ = ws ++ [s] := by
  rw [complete, Option.map_some, String.ofList_toList, Option.toList_some]

theorem commandLine_cons (a b : String) (args : List String) :
    commandLine (a :: b :: args) = shellWord a ++ " " ++ commandLine (b :: args) :=
  String.intercalate_cons_cons

/-- Read from between two words on, a command line adds its arguments to the words. -/
theorem foldlM_commandLine (args : List String) :
    ((commandLine args).toList.foldlM step ⟨ws, none, .unquoted⟩).bind finish =
      some (ws ++ args) := by
  induction args generalizing ws with
  | nil => rfl
  | cons a args ih =>
    cases args with
    | nil =>
      have hone : commandLine [a] = shellWord a := String.intercalate_singleton
      rw [hone, foldlM_shellWord, Option.bind_some, finish, if_pos rfl, complete_word]
    | cons b args =>
      have hblank : step ⟨ws, some a.toList, .unquoted⟩ ' ' = some ⟨ws ++ [a], none, .unquoted⟩ := by
        rw [← complete_word ws a]
        rfl
      have hsplit : (commandLine (a :: b :: args)).toList =
          (shellWord a).toList ++ ' ' :: (commandLine (b :: args)).toList := by
        rw [commandLine_cons, String.toList_append, String.toList_append, List.append_assoc]
        rfl
      calc
        ((commandLine (a :: b :: args)).toList.foldlM step ⟨ws, none, .unquoted⟩).bind finish =
            ((commandLine (b :: args)).toList.foldlM step ⟨ws ++ [a], none, .unquoted⟩).bind
              finish := by
          rw [hsplit, List.foldlM_append, foldlM_shellWord, Option.bind_eq_bind, Option.bind_some,
            List.foldlM_cons, hblank]
          rfl
        _ = some (ws ++ [a] ++ b :: args) := ih (ws ++ [a])
        _ = some (ws ++ a :: b :: args) := by rw [List.append_assoc, List.singleton_append]

end Reading

theorem words?_commandLine (args : List String) :
    words? (Text.commandLine args) = some args :=
  Reading.foldlM_commandLine [] args

example : words? "sync '' 'it'\\''s'" = some ["sync", "", "it's"] :=
  words?_commandLine ["sync", "", "it's"]

end Shell

/-- A shell reads the line of a report as the words of the command, whatever characters are in them,
so that two commands that are not the same never have the same line. -/
theorem TransferReport.line_reads_back (r r' : TransferReport) :
    Shell.words? r.line = some r.command ∧ (r.line = r'.line ↔ r.command = r'.command) := by
  have hread (r : TransferReport) : Shell.words? r.line = some r.command :=
    Shell.words?_commandLine r.command
  refine ⟨hread r, fun h => ?_, fun h => ?_⟩
  · have hsome : some r.command = some r'.command := by
      rw [← hread r, ← hread r', h]
    exact Option.some.inj hsome
  · rw [line, line, h]

end SelectiveSync
