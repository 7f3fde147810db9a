import SelectiveSync.Format.Codec
import SelectiveSync.Storage.File

/-! # Values in files

A value is stored in the format that its file's name tells. -/
namespace SelectiveSync.Storage
set_option autoImplicit false

/-- The format of a file, or the extension that stands for none. -/
def formatOf (path : NormalPath) : Except FileError Format :=
  let extension := path.extension?.getD ""
  match Format.ofExtension? extension with
  | some f => .ok f
  | none => .error (.unsupported extension)

/-- What a text means in the format of its file. -/
def decode {α : Type} (ofValue? : Dialect → Value → Option α) (path : NormalPath)
    (content : String) : Except FileError α := do
  let f ← formatOf path
  match (f.read content).bind (ofValue? f.dialect) with
  | some a => .ok a
  | none => .error (.unreadable f path.text)

/-- A value as the text of its file. -/
def encode (path : NormalPath) (v : Value) : Except FileError String := do
  let f ← formatOf path
  match f.write v with
  | some s => .ok s
  | none => .error (.unwritable f path.text)

def load {α : Type} (ofValue? : Dialect → Value → Option α) (path : NormalPath) : FileTask α := do
  let content ← readLocked path
  Task.check id (decode ofValue? path content)

/-- What is stored in a file, if there is one. -/
def loadOptional {α : Type} (ofValue? : Dialect → Value → Option α) (path : NormalPath) :
    FileTask (Option α) := do
  if ← Task.exists_ path.text then return some (← load ofValue? path) else return none

def save (path : NormalPath) (v : Value) : FileTask Unit := do
  let content ← Task.check id (encode path v)
  writeAtomic path content.toUTF8

end SelectiveSync.Storage
