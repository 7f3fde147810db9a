import SelectiveSync.Text.Split

/-! # Paths inside a target

A `TreePath` is a non-empty list of names that leads from the root of a target to a file or
directory beneath it.

* `nameFault?` says what is wrong with a name, `TreePath.parse` reads a path and `TreePath.text`
  writes one.
* `parent?` and `upTo` give the enclosing paths, `IsAncestorOf` compares two paths. -/
namespace SelectiveSync
set_option autoImplicit false

/-! ## Names -/

inductive NameFault where
  | empty
  | slash
  | nul
  | dots
  deriving DecidableEq, Repr

namespace NameFault

def message : NameFault → String
  | empty => "empty path segment"
  | slash => "segment contains '/'"
  | nul => "segment contains NUL"
  | dots => "'.' and '..' segments are not allowed"

end NameFault

def nameFault? (name : String) : Option NameFault :=
  if name = "" then some .empty
  else if '/' ∈ name.toList then some .slash
  else if '\x00' ∈ name.toList then some .nul
  else if name = "." ∨ name = ".." then some .dots
  else none

/-- The name can stand in a path. -/
def IsName (name : String) : Prop :=
  nameFault? name = none

instance (name : String) : Decidable (IsName name) :=
  inferInstanceAs (Decidable (nameFault? name = none))

theorem isName_iff (name : String) :
    IsName name ↔
      name ≠ "" ∧ '/' ∉ name.toList ∧ '\x00' ∉ name.toList ∧ name ≠ "." ∧ name ≠ ".." := by
  grind [IsName, nameFault?]

/-! ## Paths -/

structure TreePath where
  segments : List String
  ne_nil : segments ≠ []
  names : ∀ s ∈ segments, IsName s
  deriving DecidableEq

inductive PathFault where
  | empty
  | absolute
  | segment (fault : NameFault)
  deriving DecidableEq, Repr

namespace PathFault

def message : PathFault → String
  | empty => "path is empty"
  | absolute => "path must be relative to the target root"
  | segment fault => fault.message

end PathFault

namespace TreePath

def text (p : TreePath) : String :=
  Text.joined '/' p.segments

instance : ToString TreePath := ⟨text⟩

/-- Every segment is a name, or else the fault of the first that is not. -/
def checkNames : (segments : List String) →
    Except NameFault { l : List String // l = segments ∧ ∀ s ∈ l, IsName s }
  | [] => .ok ⟨[], rfl, by simp⟩
  | s :: rest =>
    match h : nameFault? s with
    | some fault => .error fault
    | none => (checkNames rest).map fun ⟨l, hl, hn⟩ =>
        ⟨s :: l, by rw [hl], by
          intro t ht
          rcases List.mem_cons.1 ht with rfl | ht
          · exact h
          · exact hn t ht⟩

/-- The text without the one slash it may end in. -/
def withoutTrailingSlash (s : String) : String :=
  if Text.endsWith '/' s then String.ofList s.toList.dropLast else s

/-- Reads a path relative to a target's root. One slash at the end means nothing. -/
def parse (s : String) : Except PathFault TreePath :=
  if s = "" then .error .empty
  else if Text.startsWith '/' s then .error .absolute
  else match checkNames (Text.pieces '/' (withoutTrailingSlash s)) with
    | .error fault => .error (.segment fault)
    | .ok ⟨l, hl, hn⟩ => .ok ⟨l, by rw [hl]; exact Text.pieces_ne_nil _ _, hn⟩

def name (p : TreePath) : String :=
  p.segments.getLast p.ne_nil

def depth (p : TreePath) : Nat :=
  p.segments.length

/-- The path made of the first `i + 1` segments. -/
def upTo (p : TreePath) (i : Nat) : TreePath where
  segments := p.segments.take (i + 1)
  ne_nil := by
    have := p.ne_nil
    cases h : p.segments with
    | nil => exact absurd h this
    | cons a l => simp
  names := fun s hs => p.names s (List.mem_of_mem_take hs)

/-- The enclosing path, unless the path is at the top. -/
def parent? (p : TreePath) : Option TreePath :=
  if h : p.segments.dropLast = [] then none
  else some ⟨p.segments.dropLast, h, fun s hs => p.names s (List.dropLast_subset _ hs)⟩

/-- The enclosing paths, nearest first. -/
def parents (p : TreePath) : List TreePath :=
  ((List.range (p.depth - 1)).map p.upTo).reverse

/-- The path `q` lies strictly beneath `p`. -/
def IsAncestorOf (p q : TreePath) : Prop :=
  p.segments.length < q.segments.length ∧ p.segments <+: q.segments

instance (p q : TreePath) : Decidable (p.IsAncestorOf q) :=
  inferInstanceAs (Decidable (_ ∧ _))

/-- Paths compare segment by segment, and segments by their characters. -/
def order (p q : TreePath) : Ordering :=
  compare p.segments q.segments

@[ext]
theorem ext {p q : TreePath} (h : p.segments = q.segments) : p = q := by
  cases p; cases q; simp_all

end TreePath
end SelectiveSync
