import SelectiveSync.Proofs.Tree.Listing
import SelectiveSync.Rule.Synthesis
import SelectiveSync.System.Program

/-! # What a list of directives lets through

The first directive that matches an entry decides about it, and an entry is transferred if all
directories on the way to it and the entry itself are let through.

* `Directive.Matches`, `first`, `Passes` and `Transfers` say this of any list.
* `mark_of_mem_rules`: every directive is about a path on the way to a mark.
* `isPrefix_of_matches`: a directive matches nothing outside the path that it is about.
* `passes_closed_at` and `passes_closed_beneath`: the directives for an entered directory, read at one
  of its siblings and beneath one of them. -/
namespace SelectiveSync
set_option autoImplicit false

namespace Directive

/-- The directive is about the entry of this kind that `path` leads to. -/
def Matches (d : Directive) (kind : Kind) (path : List String) : Prop :=
  match d.scope with
  | .directory => kind = .directory ∧ d.path = Text.joined '/' path
  | .contents => d.path = Text.joined '/' path.dropLast
  | .exact => d.path = Text.joined '/' path

instance (d : Directive) (kind : Kind) (path : List String) : Decidable (d.Matches kind path) := by
  unfold Matches
  split <;> infer_instance

/-- What the first directive that matches an entry says, if any does. -/
def first (rules : List Directive) (kind : Kind) (path : List String) : Option Polarity :=
  (rules.find? fun d => d.Matches kind path).map Directive.polarity

/-- The first directive that matches an entry includes it, or none matches it. -/
def Passes (rules : List Directive) (kind : Kind) (path : List String) : Prop :=
  first rules kind path ≠ some .excluded

instance (rules : List Directive) (kind : Kind) (path : List String) :
    Decidable (Passes rules kind path) :=
  inferInstanceAs (Decidable (_ ≠ _))

/-- All directories on the way to the entry and the entry itself are let through. -/
def Transfers (rules : List Directive) (kind : Kind) (p : TreePath) : Prop :=
  (∀ q ∈ p.parents, Passes rules .directory q.segments) ∧ Passes rules kind p.segments

instance (rules : List Directive) (kind : Kind) (p : TreePath) :
    Decidable (Transfers rules kind p) :=
  inferInstanceAs (Decidable (_ ∧ _))

/-! ## Lists put together -/

theorem first_append (a b : List Directive) (kind : Kind) (path : List String) :
    first (a ++ b) kind path = (first a kind path).or (first b kind path) := by
  rw [first, List.find?_append, Option.map_or]
  rfl

theorem first_eq_none {rules : List Directive} {kind : Kind} {path : List String}
    (h : ∀ d ∈ rules, ¬ d.Matches kind path) : first rules kind path = none := by
  rw [first, Option.map_eq_none_iff, List.find?_eq_none]
  simpa using h

theorem first_singleton (d : Directive) (kind : Kind) (path : List String) :
    first [d] kind path = if d.Matches kind path then some d.polarity else none := by
  rw [first, List.find?_singleton]
  by_cases h : d.Matches kind path <;> simp [h]

end Directive

namespace Forest
open Directive

/-! ## Where directives match -/

theorem pathUnder_joined {base : List String} (hbase : ∀ s ∈ base, IsName s) (n : String) :
    pathUnder (Text.joined '/' base) n = Text.joined '/' (base ++ [n]) := by
  have hempty : Text.joined '/' base = "" ↔ base = [] :=
    joined_inj (m := []) hbase (by simp)
  rw [pathUnder]
  by_cases hb : base = []
  · rw [if_pos (hempty.2 hb), hb, List.nil_append, Text.joined, String.intercalate_singleton]
  · rw [if_neg fun h => hb (hempty.1 h), joined_append_singleton hb]

/-- The directives for an entered directory: those for what is in it, and nothing else in it. -/
def closed (base : List String) (f : Forest) : List Directive :=
  f.rules (Text.joined '/' base) ++ [⟨.excluded, .contents, Text.joined '/' base⟩]

/-- The directives for one node and what is below it. -/
def block (path : List String) (d : Decision) (below : Forest) : List Directive :=
  if d = .included then [⟨.included, .directory, Text.joined '/' path⟩]
  else if below.reaches then
    below.closed path ++ [⟨.included, .directory, Text.joined '/' path⟩]
  else if d = .evicted then [⟨.excluded, .exact, Text.joined '/' path⟩]
  else []

theorem rules_node {base : List String} (hbase : ∀ s ∈ base, IsName s) (n : String) (d : Decision)
    (below beside : Forest) :
    (node n d below beside).rules (Text.joined '/' base) =
      block (base ++ [n]) d below ++ beside.rules (Text.joined '/' base) := by
  simp only [rules, block, closed, pathUnder_joined hbase, List.append_assoc]
  rfl

theorem mem_block {path : List String} {d : Decision} {below : Forest} {e : Directive}
    (he : e ∈ block path d below) :
    e.path = Text.joined '/' path ∨ e ∈ below.rules (Text.joined '/' path) := by
  rw [block] at he
  split at he
  · rw [List.mem_singleton.1 he]
    exact Or.inl rfl
  · split at he
    · rw [closed, List.append_assoc, List.mem_append] at he
      rcases he with he | he
      · exact Or.inr he
      · rcases List.mem_cons.1 he with rfl | he
        · exact Or.inl rfl
        · rw [List.mem_singleton.1 he]
          exact Or.inl rfl
    · split at he
      · rw [List.mem_singleton.1 he]
        exact Or.inl rfl
      · cases he

/-- Every node lies on the way to a mark. -/
theorem exists_mark_through {n : String} {d : Decision} {below beside : Forest}
    (h : (node n d below beside).WellFormed) :
    ∃ m ∈ (node n d below beside).marks, [n] <+: m.1 := by
  by_cases hd : d = .undecided
  · have hmarks : below.marks ≠ [] := fun hm =>
      h.fits.undecided hd ((marks_eq_nil h.fits.below).1 hm)
    obtain ⟨m, hm⟩ := List.exists_mem_of_ne_nil _ hmarks
    exact ⟨beneath n m, by simp [marks_node, List.mem_map_of_mem hm], by simp [beneath]⟩
  · exact ⟨([n], d), by simp [marks_node, hd], List.prefix_rfl⟩

/-- Every directive is about a path on the way to a mark. -/
theorem mark_of_mem_rules {f : Forest} (h : f.WellFormed) {base : List String}
    (hbase : ∀ s ∈ base, IsName s) {e : Directive} (he : e ∈ f.rules (Text.joined '/' base)) :
    ∃ m ∈ f.marks, ∃ r, r ≠ [] ∧ r <+: m.1 ∧ e.path = Text.joined '/' (base ++ r) := by
  induction f generalizing base with
  | empty => cases he
  | node n d below beside ihb ihs =>
    rw [rules_node hbase, List.mem_append] at he
    rcases he with he | he
    · rcases mem_block he with hown | he
      · obtain ⟨m, hm, hpre⟩ := exists_mark_through h
        exact ⟨m, hm, [n], by simp, hpre, hown⟩
      · have hpath : ∀ s ∈ base ++ [n], IsName s := isName_append hbase (by simpa using h.isName)
        obtain ⟨m, hm, r, -, hpre, heq⟩ := ihb h.fits.below hpath he
        refine ⟨beneath n m, by simp [marks_node, List.mem_map_of_mem hm], n :: r, by simp, ?_,
          by simpa using heq⟩
        exact List.cons_prefix_cons.2 ⟨rfl, hpre⟩
    · obtain ⟨m, hm, hrest⟩ := ihs h.beside hbase he
      exact ⟨m, by simp [marks_node, hm], hrest⟩

/-- All directives for a row of siblings are about paths that lead through one of them. -/
theorem path_of_mem_rules {f : Forest} (h : f.WellFormed) {base : List String}
    (hbase : ∀ s ∈ base, IsName s) {e : Directive} (he : e ∈ f.rules (Text.joined '/' base)) :
    ∃ s ∈ f.names, ∃ r, (∀ u ∈ s :: r, IsName u) ∧ e.path = Text.joined '/' (base ++ s :: r) := by
  obtain ⟨m, hm, r, hr0, hpre, heq⟩ := mark_of_mem_rules h hbase he
  obtain ⟨s, q, hsq, hs⟩ := exists_of_mem_marks h hm
  cases r with
  | nil => exact absurd rfl hr0
  | cons t r =>
    have ht : t = s := by
      rw [hsq] at hpre
      exact (List.cons_prefix_cons.1 hpre).1
    exact ⟨t, ht ▸ hs, r, fun u hu => (names_of_mem_marks h hm).2 u (hpre.subset hu), heq⟩

/-- Matching compares names, not texts. -/
theorem matches_iff {l path : List String} (hl : ∀ s ∈ l, IsName s) (hpath : ∀ s ∈ path, IsName s)
    (polarity : Polarity) (scope : Scope) (kind : Kind) :
    Directive.Matches ⟨polarity, scope, Text.joined '/' l⟩ kind path ↔
      match scope with
      | .directory => kind = .directory ∧ l = path
      | .contents => l = path.dropLast
      | .exact => l = path := by
  have hdrop : ∀ s ∈ path.dropLast, IsName s := fun s hs => hpath s (List.dropLast_subset path hs)
  cases scope with
  | directory => simp only [Matches, joined_inj hl hpath]
  | contents => simp only [Matches, joined_inj hl hdrop]
  | exact => simp only [Matches, joined_inj hl hpath]

/-- A directive about a path matches nothing outside that path. -/
theorem isPrefix_of_matches {e : Directive} {l path : List String} {kind : Kind}
    (hl : ∀ s ∈ l, IsName s) (hpath : ∀ s ∈ path, IsName s) (he : e.path = Text.joined '/' l)
    (hm : e.Matches kind path) : l <+: path := by
  obtain ⟨polarity, scope, text⟩ := e
  have he : text = Text.joined '/' l := he
  rw [he, matches_iff hl hpath] at hm
  cases scope with
  | directory => rw [hm.2]
  | contents =>
    rw [show l = path.dropLast from hm]
    exact List.dropLast_prefix path
  | exact => rw [show l = path from hm]

theorem first_rules_of_not_mem {f : Forest} (h : f.WellFormed) {base q : List String} {s : String}
    (hbase : ∀ s ∈ base, IsName s) (hq : ∀ u ∈ s :: q, IsName u) (hs : s ∉ f.names) (kind : Kind) :
    first (f.rules (Text.joined '/' base)) kind (base ++ s :: q) = none := by
  refine first_eq_none fun e he hm => ?_
  obtain ⟨u, hu, r, hr, hpath⟩ := path_of_mem_rules h hbase he
  have hpre := isPrefix_of_matches (isName_append hbase hr) (isName_append hbase hq) hpath hm
  rw [List.prefix_append_right_inj, List.cons_prefix_cons] at hpre
  exact hs (hpre.1 ▸ hu)

/-! ## An entered directory -/

theorem first_block_of_ne {f : Forest} {n s : String} {d : Decision} {base q : List String}
    (h : (node n d f .empty).WellFormed) (hbase : ∀ u ∈ base, IsName u)
    (hq : ∀ u ∈ s :: q, IsName u) (hn : n ≠ s) (kind : Kind) :
    first (block (base ++ [n]) d f) kind (base ++ s :: q) = none := by
  have hrow := first_rules_of_not_mem h hbase hq (by simp [names, Ne.symm hn]) kind
  rw [rules_node hbase, first_append] at hrow
  exact (Option.or_eq_none_iff.1 hrow).1

theorem first_rules {f : Forest} (h : f.WellFormed) {base q : List String} {s : String}
    (hbase : ∀ u ∈ base, IsName u) (hq : ∀ u ∈ s :: q, IsName u) (kind : Kind) :
    first (f.rules (Text.joined '/' base)) kind (base ++ s :: q) =
      first (block (base ++ [s]) (f.decisionAt [s]) (f.belowAt [s])) kind (base ++ s :: q) := by
  induction f with
  | empty => simp [rules, block, reaches]
  | node n d below beside _ ih =>
    rw [rules_node hbase, first_append, decisionAt_node, belowAt_node]
    by_cases hn : n = s
    · subst hn
      rw [first_rules_of_not_mem h.beside hbase hq h.fresh, Option.or_none]
      simp
    · rw [first_block_of_ne h.alone hbase hq hn, Option.none_or, if_neg hn, if_neg hn]
      exact ih h.beside

theorem first_closed_self {f : Forest} (h : f.WellFormed) {path : List String}
    (hpath : ∀ u ∈ path, IsName u) (hne : path ≠ []) (kind : Kind) :
    first (closed path f) kind path = none := by
  -- what is in the directory is longer than its path, and the path is not in itself
  have hlen : path.dropLast.length < path.length := by
    have := List.length_pos_iff.2 hne
    rw [List.length_dropLast]
    omega
  refine first_eq_none fun e he hm => ?_
  rw [closed, List.mem_append] at he
  rcases he with he | he
  · obtain ⟨s, -, r, hr, heq⟩ := path_of_mem_rules h hpath he
    have hle := (isPrefix_of_matches (isName_append hpath hr) hpath heq hm).length_le
    rw [List.length_append, List.length_cons] at hle
    omega
  · rw [List.mem_singleton.1 he, matches_iff hpath hpath] at hm
    have hm : path = path.dropLast := hm
    rw [← hm] at hlen
    omega

theorem first_block_self {d : Decision} {below : Forest} (h : below.WellFormed)
    {path : List String} (hpath : ∀ u ∈ path, IsName u) (hne : path ≠ []) (kind : Kind) :
    first (block path d below) kind path =
      if d = .included ∨ below.reaches then if kind = .directory then some .included else none
      else if d = .evicted then some .excluded
      else none := by
  have hown (polarity : Polarity) :
      first [⟨polarity, .directory, Text.joined '/' path⟩] kind path =
        if kind = .directory then some polarity else none := by
    rw [first_singleton]
    simp [matches_iff hpath hpath]
  rw [block]
  by_cases hd : d = .included
  · rw [if_pos hd, if_pos (Or.inl hd), hown]
  · rw [if_neg hd]
    by_cases hr : below.reaches
    · rw [if_pos hr, if_pos (Or.inr hr), first_append, first_closed_self h hpath hne, hown,
        Option.none_or]
    · have hor : ¬ (d = .included ∨ below.reaches) := by tauto
      rw [if_neg hr, if_neg hor]
      by_cases he : d = .evicted
      · rw [if_pos he, if_pos he, first_singleton, if_pos ((matches_iff hpath hpath _ _ _).2 rfl)]
      · rw [if_neg he, if_neg he]
        rfl

theorem first_block_beneath (d : Decision) (below : Forest) {path q : List String}
    (hpath : ∀ u ∈ path, IsName u) (hq : ∀ u ∈ q, IsName u) (hne : q ≠ []) (kind : Kind) :
    first (block path d below) kind (path ++ q) =
      if d ≠ .included ∧ below.reaches then first (closed path below) kind (path ++ q)
      else none := by
  have hown (polarity : Polarity) (scope : Scope) (hs : scope ≠ .contents) :
      first [⟨polarity, scope, Text.joined '/' path⟩] kind (path ++ q) = none := by
    rw [first_singleton, if_neg]
    rw [matches_iff hpath (isName_append hpath hq)]
    cases scope with
    | directory => simp [hne]
    | contents => exact absurd rfl hs
    | exact => simp [hne]
  rw [block]
  by_cases hd : d = .included
  · have hand : ¬ (d ≠ .included ∧ below.reaches) := by tauto
    rw [if_pos hd, if_neg hand, hown _ _ (by simp)]
  · rw [if_neg hd]
    by_cases hr : below.reaches
    · rw [if_pos hr, if_pos ⟨hd, hr⟩, first_append, hown _ _ (by simp), Option.or_none]
    · have hand : ¬ (d ≠ .included ∧ below.reaches) := by tauto
      rw [if_neg hr, if_neg hand]
      by_cases he : d = .evicted
      · rw [if_pos he, hown _ _ (by simp)]
      · rw [if_neg he]
        rfl

/-- What is in an entered directory is let through if it is a directory that is included or has
something included below it. -/
theorem passes_closed_at {f : Forest} (h : f.WellFormed) {base : List String} {s : String}
    (hbase : ∀ u ∈ base, IsName u) (hs : IsName s) (kind : Kind) :
    Passes (closed base f) kind (base ++ [s]) ↔
      kind = .directory ∧ (f.decisionAt [s] = .included ∨ (f.belowAt [s]).reaches) := by
  have hq : ∀ u ∈ [s], IsName u := by simpa using hs
  have hpath := isName_append hbase hq
  have hlast : first [⟨.excluded, .contents, Text.joined '/' base⟩] kind (base ++ [s]) =
      some .excluded := by
    rw [first_singleton, if_pos]
    rw [matches_iff hbase hpath]
    simp
  rw [Passes, closed, first_append, first_rules h hbase hq, hlast,
    first_block_self (h.belowAt [s]) hpath (by simp)]
  by_cases hr : f.decisionAt [s] = .included ∨ (f.belowAt [s]).reaches
  · by_cases hk : kind = .directory <;> simp [hr, hk]
  · refine iff_of_false ?_ fun hd => hr hd.2
    rw [if_neg hr]
    by_cases he : f.decisionAt [s] = .evicted <;> simp [he]

/-- What is beneath a sibling in an entered directory is settled by what is below that sibling, and
nothing stops it beneath an inclusion or a directory that is not entered. -/
theorem passes_closed_beneath {f : Forest} (h : f.WellFormed) {base q : List String} {s : String}
    (hbase : ∀ u ∈ base, IsName u) (hq : ∀ u ∈ s :: q, IsName u) (hne : q ≠ []) (kind : Kind) :
    Passes (closed base f) kind (base ++ s :: q) ↔
      (f.decisionAt [s] ≠ .included → (f.belowAt [s]).reaches →
        Passes (closed (base ++ [s]) (f.belowAt [s])) kind (base ++ s :: q)) := by
  have hs : ∀ u ∈ [s], IsName u := by simpa using hq s (by simp)
  have hlast : first [⟨.excluded, .contents, Text.joined '/' base⟩] kind (base ++ s :: q) =
      none := by
    rw [first_singleton, if_neg]
    rw [matches_iff hbase (isName_append hbase hq)]
    intro hdrop
    have hlen := congrArg List.length (show base = (base ++ s :: q).dropLast from hdrop)
    have := List.length_pos_iff.2 hne
    simp only [List.length_dropLast, List.length_append, List.length_cons] at hlen
    omega
  have hsplit : base ++ s :: q = base ++ [s] ++ q := by simp
  have hblock := first_block_beneath (f.decisionAt [s]) (f.belowAt [s]) (isName_append hbase hs)
    (fun u hu => hq u (List.mem_cons_of_mem s hu)) hne kind
  rw [← hsplit] at hblock
  rw [Passes, closed, first_append, first_rules h hbase hq, hlast, Option.or_none, hblock]
  split
  · next hr => simp [hr, Passes]
  · next hr => simpa using fun hd hb => absurd ⟨hd, hb⟩ hr

end Forest
end SelectiveSync
