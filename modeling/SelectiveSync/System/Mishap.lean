import SelectiveSync.System.World

/-! # Calls that fail

A call may fail though nothing stands in its way among the files: the disk is full, or it is broken.
`Mishaps` say what goes wrong in the course of a run, and `World.runAmid` runs a program amid it. -/
namespace SelectiveSync
set_option autoImplicit false

/-- What goes wrong with a call: why, and how many of the bytes that it should write are written. -/
structure Mishap where
  fault : Fault
  written : Nat := 0
  deriving DecidableEq, Repr

/-- What goes wrong with each call of a run, if anything does, given how many calls were made before
it and the world in which it is made. -/
abbrev Mishaps := Nat → Call → World → Option Mishap

/-- The call opens a file for writing, writes to it, saves it or renames it. -/
def Call.mayFail : Call → Bool
  | .touch _ | .create _ | .append .. | .sync _ | .rename .. => true
  | _ => false

namespace Mishaps

/-- What goes wrong with a call of those that may fail. -/
def of (mishaps : Mishaps) (n : Nat) (c : Call) (w : World) : Option Mishap :=
  if c.mayFail then mishaps n c w else none

/-- Nothing goes wrong. -/
def none_ : Mishaps := fun _ _ _ => none

/-- No file may grow beyond a size. -/
def sizeLimit (limit : Nat) : Mishaps := fun _ c w =>
  match c with
  | .append path bytes =>
    match w.files.read w.cwd path with
    | .ok old =>
      if bytes.size ≠ 0 ∧ limit < old.size + bytes.size then some ⟨.tooLarge, limit - old.size⟩
      else none
    | .error _ => none
  | _ => none

end Mishaps

namespace World

/-- The answer to a call with which something may go wrong, and the world after it. A call that
fails does nothing, but that some of what was to be written may be. -/
def answerAmid (programs : Executables) (self : Nat) (mishap : Option Mishap) (c : Call)
    (w : World) : c.Reply × World :=
  match mishap, c with
  | some m, .touch _ | some m, .create _ | some m, .sync _ | some m, .rename .. =>
    (.error m.fault, w)
  | some m, .append path bytes =>
    (.error m.fault, (w.answer programs self (.append path (bytes.extract 0 m.written))).2)
  | _, c => w.answer programs self c

/-- Runs a program of process `self` to its end, where `n` calls were made before. -/
def runAmid {α : Type} (programs : Executables) (self : Nat) (mishaps : Mishaps) :
    Nat → Program α → World → α × World
  | _, .done a, w => (a, w)
  | n, .call c next, w =>
    let (r, w) := w.answerAmid programs self (mishaps.of n c w) c
    runAmid programs self mishaps (n + 1) (next r) w

end World
end SelectiveSync
