import SelectiveSync.Tree.Path

/-! # Decisions on a tree of names

A `Forest` is a row of sibling nodes in the order of their declaration, each with a name, a decision
and a forest below it. Nodes without a decision are placeholders on the way to others.

* `find?` and `get?` look nodes up, `verdict` says which decision on the way down a path settles it.
* `edit` changes one node and adds those missing on the way, `clear` takes a decision away together
  with every node that is then of no use.
* `marks`, `nodes` and `included` list what a forest holds, from the top down. -/
namespace SelectiveSync
set_option autoImplicit false

/-- What was decided about a file or directory. -/
inductive Decision where
  | undecided
  | included
  | evicted
  deriving DecidableEq, Repr, Inhabited

namespace Decision

def text : Decision → String
  | undecided => "default"
  | included => "included"
  | evicted => "evicted"

end Decision

/-- A row of siblings: the first of them, what is below it, and the siblings beside it. -/
inductive Forest where
  | empty
  | node (name : String) (decision : Decision) (below beside : Forest)
  deriving DecidableEq, Repr, Inhabited

structure Node where
  name : String
  decision : Decision := .undecided
  below : Forest := .empty
  deriving DecidableEq, Repr, Inhabited

/-- Which decision settles a path: one on its first `i + 1` segments, or none. -/
inductive Verdict where
  | included (i : Nat)
  | evicted (i : Nat)
  | ambient
  deriving DecidableEq, Repr

namespace Verdict

/-- The verdict seen from a node with decision `d`, given the verdict seen from below it. The
outermost inclusion wins over everything, and otherwise the innermost eviction. -/
def under (d : Decision) (below : Verdict) : Verdict :=
  match d, below with
  | .included, _ => included 0
  | _, included i => included (i + 1)
  | _, evicted i => evicted (i + 1)
  | .evicted, ambient => evicted 0
  | .undecided, ambient => ambient

end Verdict

namespace Forest

/-! ## Looking up -/

def find? (name : String) : Forest → Option Node
  | empty => none
  | node n d below beside => if n = name then some ⟨n, d, below⟩ else find? name beside

def get? : List String → Forest → Option Node
  | [], _ => none
  | [s], f => f.find? s
  | s :: t :: rest, f => (f.find? s).bind fun n => get? (t :: rest) n.below

def verdict : List String → Forest → Verdict
  | [], _ => .ambient
  | s :: rest, f =>
    match f.find? s with
    | none => .ambient
    | some n => (verdict rest n.below).under n.decision

/-! ## Changing -/

/-- The sibling of a name changed; a missing one is added last, undecided and with nothing below,
and then changed. -/
def update (name : String) (g : Decision → Forest → Decision × Forest) : Forest → Forest
  | empty => node name (g .undecided .empty).1 (g .undecided .empty).2 .empty
  | node n d below beside =>
    if n = name then node n (g d below).1 (g d below).2 beside
    else node n d below (update name g beside)

/-- The node at the end of a path changed, with all nodes missing on the way added. -/
def edit (g : Decision → Forest → Decision × Forest) : List String → Forest → Forest
  | [], f => f
  | [s], f => f.update s g
  | s :: t :: rest, f => f.update s fun d below => (d, edit g (t :: rest) below)

/-- A decision made at a path, which voids the decisions beneath it. -/
def settle (d : Decision) : List String → Forest → Forest :=
  edit fun _ _ => (d, .empty)

/-- A decision made at a path, beside those beneath it. -/
def mark (d : Decision) : List String → Forest → Forest :=
  edit fun _ below => (d, below)

/-- A node put before its siblings, unless it is of no use: undecided and with nothing below. -/
def useful (name : String) (d : Decision) (below beside : Forest) : Forest :=
  if d = .undecided ∧ below = .empty then beside else node name d below beside

/-- The decision at a path taken away, together with the nodes on the way that nothing needs any
more. -/
def clear : List String → Forest → Forest
  | _, empty => empty
  | [], f => f
  | s :: rest, node n d below beside =>
    if n = s then
      match rest with
      | [] => useful n .undecided below beside
      | t :: more => useful n d (clear (t :: more) below) beside
    else node n d below (clear (s :: rest) beside)

/-! ## Listing -/

/-- All nodes with the path that leads to each, a node before those below it. -/
def nodes (base : List String) : Forest → List (List String × Decision)
  | empty => []
  | node n d below beside =>
    (base ++ [n], d) :: nodes (base ++ [n]) below ++ nodes base beside

def marks (f : Forest) : List (List String × Decision) :=
  (f.nodes []).filter fun m => m.2 ≠ .undecided

/-- The outermost included nodes. -/
def included (base : List String) : Forest → List (List String)
  | empty => []
  | node n d below beside =>
    (if d = .included then [base ++ [n]] else included (base ++ [n]) below) ++ included base beside

def size : Forest → Nat
  | empty => 0
  | node _ _ below beside => 1 + below.size + beside.size

def names : Forest → List String
  | empty => []
  | node n _ _ beside => n :: names beside

def ofNodes : List Node → Forest
  | [] => .empty
  | n :: rest => .node n.name n.decision n.below (ofNodes rest)

end Forest
end SelectiveSync
