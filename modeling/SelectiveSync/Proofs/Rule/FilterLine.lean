import SelectiveSync.Proofs.Rule.Glob
import SelectiveSync.Proofs.Tree.Path
import SelectiveSync.System.Program

/-! # Directives as the transfer program reads them

A line of a filter is a sign, a blank and a pattern. A slash in front ties the pattern to the root of
the transfer, one at the end restricts it to directories, and what is between them is compared as it
stands unless it holds a wildcard.

* `FilterLine.read?` takes a line apart and `FilterLine.Matches` says which entries it matches.
* `read?_anchored`: what the line of a directive is taken apart to.
* `fits_pattern`: the pattern of a directive stands for its path, or for the names inside it.
* `anchored_matches`: the line of a directive matches what the directive is about and nothing else,
  and no other directive has the same line. -/
namespace SelectiveSync
set_option autoImplicit false

/-- A line of a filter taken apart. -/
structure FilterLine where
  polarity : Polarity
  anchored : Bool
  onlyDirectories : Bool
  pattern : List Char
  deriving DecidableEq

namespace FilterLine

/-! ## Reading lines -/

def ofPattern (polarity : Polarity) (pattern : List Char) : FilterLine :=
  let body := if pattern.head? = some '/' then pattern.tail else pattern
  { polarity
    anchored := pattern.head? = some '/'
    onlyDirectories := body.getLast? = some '/'
    pattern := if body.getLast? = some '/' then body.dropLast else body }

def read? (line : String) : Option FilterLine :=
  match line.toList with
  | '+' :: ' ' :: pattern => some (ofPattern .included pattern)
  | '-' :: ' ' :: pattern => some (ofPattern .excluded pattern)
  | _ => none

/-- The text is what the pattern stands for. -/
def Fits (classes : List Char → Char → List Char → Prop) (pattern text : List Char) : Prop :=
  if pattern.any (· ∈ Glob.wildcards) then Glob.Matches classes pattern text else text = pattern

/-- The line matches the entry of this kind at `p`: by its whole path or, if nothing ties the line
to the root of the transfer, by the end of it. -/
def Matches (classes : List Char → Char → List Char → Prop) (l : FilterLine) (kind : Kind)
    (p : TreePath) : Prop :=
  (l.onlyDirectories → kind = .directory) ∧
    if l.anchored then Fits classes l.pattern p.text.toList
    else ∃ tail, tail ≠ [] ∧ tail <:+ p.segments ∧
      Fits classes l.pattern (Text.joined '/' tail).toList

end FilterLine

namespace Directive
open Glob FilterLine

/-! ## What directives are about -/

/-- The directory at `q`, the entries right inside `q`, or the entry at `q` of whatever kind. -/
def Covers (scope : Scope) (q : TreePath) (kind : Kind) (p : TreePath) : Prop :=
  match scope with
  | .directory => kind = .directory ∧ p = q
  | .contents => p.parent? = some q
  | .exact => p = q

def inside (q : TreePath) (s : String) (hs : IsName s) : TreePath where
  segments := q.segments ++ [s]
  ne_nil := by simp
  names := isName_append q.names (by simpa using hs)

theorem parent?_inside (q : TreePath) (s : String) (hs : IsName s) :
    (inside q s hs).parent? = some q := by
  rw [TreePath.parent?_eq_some, inside, List.dropLast_concat]

/-- Nothing but the contents of `q` has in it all that is inside `q`. -/
theorem eq_contents_of_covers {scope : Scope} {q q' : TreePath}
    (h : ∀ kind p, Covers .contents q kind p → Covers scope q' kind p) :
    scope = .contents ∧ q = q' := by
  have ha := h .directory (inside q "a" (by decide)) (parent?_inside q "a" (by decide))
  have hb := h .directory (inside q "b" (by decide)) (parent?_inside q "b" (by decide))
  have hne : inside q "a" (by decide) ≠ inside q "b" (by decide) := by
    intro heq
    have hseg := congrArg TreePath.segments heq
    simp [inside] at hseg
  cases scope with
  | directory => exact absurd (ha.2.trans hb.2.symm) hne
  | contents =>
    have heq := (parent?_inside q "a" (by decide)).symm.trans ha
    exact ⟨rfl, Option.some.inj heq⟩
  | exact => exact absurd (Eq.trans ha (Eq.symm hb)) hne

theorem covers_inj {scope scope' : Scope} {q q' : TreePath}
    (h : ∀ kind p, Covers scope q kind p ↔ Covers scope' q' kind p) :
    scope = scope' ∧ q = q' := by
  cases scope with
  | contents =>
    obtain ⟨hs, hq⟩ := eq_contents_of_covers fun kind p => (h kind p).1
    exact ⟨hs.symm, hq⟩
  | directory =>
    cases scope' with
    | directory => exact ⟨rfl, ((h .directory q).1 ⟨rfl, rfl⟩).2⟩
    | contents =>
      obtain ⟨hs, -⟩ := eq_contents_of_covers fun kind p => (h kind p).2
      cases hs
    | exact => cases ((h .file q').2 rfl).1
  | exact =>
    cases scope' with
    | directory => cases ((h .file q).1 rfl).1
    | contents =>
      obtain ⟨hs, -⟩ := eq_contents_of_covers fun kind p => (h kind p).2
      cases hs
    | exact => exact ⟨rfl, (h .directory q).1 rfl⟩

/-! ## The pattern of a directive -/

/-- A path as it stands in a line. -/
def written (scope : Scope) (q : TreePath) : List Char :=
  if scope = .contents ∨ q.text.toList.any (· ∈ wildcards) then q.text.toList.flatMap escape
  else q.text.toList

/-- The part of a line between the slash in front and the slash at the end. -/
def patternOf (scope : Scope) (q : TreePath) : List Char :=
  if scope = .contents then written scope q ++ ['/', '*'] else written scope q

theorem toList_anchored (polarity : Polarity) (scope : Scope) (q : TreePath) :
    (⟨polarity, scope, q.text⟩ : Directive).anchored.toList =
      polarity.sign.toList ++ ' ' :: '/' :: (written scope q ++ scope.ending.toList) := by
  have hwild : isWildcard = fun c => decide (c ∈ wildcards) := by
    funext c
    rw [Bool.eq_iff_iff, isWildcard_iff, decide_eq_true_eq]
  have hwritten : (if hasWildcards ⟨polarity, scope, q.text⟩ then escaped q.text
      else q.text).toList = written scope q := by
    rw [written, hasWildcards, hwild]
    simp only [Bool.or_eq_true, decide_eq_true_eq]
    split
    · exact toList_escaped q.text
    · rfl
  rw [anchored, if_neg q.text_ne_empty]
  simp only [String.toList_append, hwritten, List.append_assoc]
  rfl

theorem getLast?_written (scope : Scope) (q : TreePath) : (written scope q).getLast? ≠ some '/' := by
  have hlast : q.text.toList.getLast? ≠ some '/' := by
    have hend := q.endsWith_text
    rw [Text.endsWith, beq_eq_false_iff_ne] at hend
    exact hend
  rw [written]
  split
  · rw [getLast?_escape]
    exact hlast
  · exact hlast

theorem read?_anchored (polarity : Polarity) (scope : Scope) (q : TreePath) :
    read? (⟨polarity, scope, q.text⟩ : Directive).anchored =
      some ⟨polarity, true, scope = .directory, patternOf scope q⟩ := by
  have hlast := getLast?_written scope q
  have hpattern : ofPattern polarity ('/' :: (written scope q ++ scope.ending.toList)) =
      ⟨polarity, true, scope = .directory, patternOf scope q⟩ := by
    cases scope with
    | directory => simp [ofPattern, Scope.ending, patternOf]
    | contents => simp [ofPattern, Scope.ending, patternOf, List.getLast?_append]
    | exact => simp [ofPattern, Scope.ending, patternOf, hlast]
  rw [read?, toList_anchored]
  cases polarity with
  | included => exact congrArg some hpattern
  | excluded => exact congrArg some hpattern

example : read? (⟨.excluded, .contents, "a*"⟩ : Directive).anchored =
    some ⟨.excluded, true, false, "a\\*/*".toList⟩ := by
  decide

theorem inside_iff (p q : TreePath) :
    (∃ x, p.text.toList = q.text.toList ++ '/' :: x ∧ '/' ∉ x) ↔ p.parent? = some q := by
  have htext (s : String) :
      (Text.joined '/' (q.segments ++ [s])).toList = q.text.toList ++ '/' :: s.toList := by
    rw [joined_append_singleton q.ne_nil, String.toList_append, String.toList_append]
    simp [TreePath.text]
  rw [TreePath.parent?_eq_some]
  constructor
  · rintro ⟨x, hx, hslash⟩
    have hjoined : p.text = Text.joined '/' (q.segments ++ [String.ofList x]) := by
      apply String.toList_inj.1
      rw [htext, hx, String.toList_ofList]
    have hpieces : p.segments = q.segments ++ [String.ofList x] := by
      rw [← p.pieces_text, hjoined]
      refine Text.pieces_joined '/' _ (by simp) fun s hs => ?_
      rcases List.mem_append.1 hs with hs | hs
      · exact (q.names s hs).no_slash
      · rw [List.mem_singleton.1 hs, String.toList_ofList]
        exact hslash
    rw [hpieces, List.dropLast_concat]
  · intro hdrop
    have hlast := p.names _ (List.getLast_mem p.ne_nil)
    refine ⟨(p.segments.getLast p.ne_nil).toList, ?_, hlast.no_slash⟩
    rw [← htext, ← hdrop, List.dropLast_append_getLast p.ne_nil]
    rfl

theorem fits_written (classes : List Char → Char → List Char → Prop) {scope : Scope}
    (hscope : scope ≠ .contents) (q : TreePath) (text : List Char) :
    Fits classes (written scope q) text ↔ text = q.text.toList := by
  rw [written]
  by_cases hwild : q.text.toList.any (· ∈ wildcards) = true
  · rw [if_pos (Or.inr hwild), Fits, any_wildcard_escape, if_pos hwild, matches_escape_iff]
  · rw [if_neg (by tauto), Fits, if_neg hwild]

/-- The pattern of a directive stands for its path or, with a star behind it, for that path with one
more name. -/
theorem fits_pattern (classes : List Char → Char → List Char → Prop) (scope : Scope)
    (p q : TreePath) :
    Fits classes (patternOf scope q) p.text.toList ↔
      if scope = .contents then p.parent? = some q else p = q := by
  have htext : p.text.toList = q.text.toList ↔ p = q := by
    rw [String.toList_inj, TreePath.text_inj]
  cases scope with
  | directory =>
    rw [patternOf, if_neg (by simp), fits_written classes (by simp), htext, if_neg (by simp)]
  | exact =>
    rw [patternOf, if_neg (by simp), fits_written classes (by simp), htext, if_neg (by simp)]
  | contents =>
    have hstar : (written .contents q ++ ['/', '*']).any (· ∈ wildcards) = true := by
      simp [wildcards]
    have hslash : '/' ≠ '\\' ∧ '/' ∉ wildcards := by decide
    rw [patternOf, if_pos rfl, Fits, if_pos hstar, written, if_pos (Or.inl rfl),
      matches_escape_append, if_pos rfl, ← inside_iff]
    simp only [matches_plain hslash.1 hslash.2, matches_run, matches_nil]
    constructor
    · rintro ⟨_, hp, _, rfl, x, _, rfl, hx, rfl⟩
      exact ⟨x, by rw [hp, List.append_nil], hx⟩
    · rintro ⟨x, hp, hx⟩
      exact ⟨_, hp, x, rfl, x, [], (List.append_nil x).symm, hx, rfl⟩

theorem matches_line (classes : List Char → Char → List Char → Prop) (polarity : Polarity)
    (scope : Scope) (q : TreePath) (kind : Kind) (p : TreePath) :
    FilterLine.Matches classes ⟨polarity, true, scope = .directory, patternOf scope q⟩ kind p ↔
      Covers scope q kind p := by
  rw [FilterLine.Matches, if_pos rfl, fits_pattern]
  cases scope with
  | directory => simp [Covers]
  | contents => simp [Covers]
  | exact => simp [Covers]

/-- However classes of characters are written, the line of a directive on a path is read with the
directive's sign, and it matches what the directive is about and nothing else: the directory at the
path, the entries right inside it, or the entry at it. No other directive has the same line. -/
theorem anchored_matches (classes : List Char → Char → List Char → Prop) (polarity : Polarity)
    (scope : Scope) (q : TreePath) :
    ∃ line, read? (⟨polarity, scope, q.text⟩ : Directive).anchored = some line ∧
      line.polarity = polarity ∧
      (∀ kind p, line.Matches classes kind p ↔ Covers scope q kind p) ∧
      ∀ polarity' scope' q',
        (⟨polarity', scope', TreePath.text q'⟩ : Directive).anchored =
          (⟨polarity, scope, q.text⟩ : Directive).anchored →
        polarity' = polarity ∧ scope' = scope ∧ q' = q := by
  refine ⟨_, read?_anchored polarity scope q, rfl, matches_line classes polarity scope q,
    fun polarity' scope' q' heq => ?_⟩
  have hline := read?_anchored polarity' scope' q'
  rw [heq, read?_anchored, Option.some.injEq] at hline
  have hcovers (kind : Kind) (p : TreePath) : Covers scope' q' kind p ↔ Covers scope q kind p := by
    rw [← matches_line classes polarity' scope' q', ← hline, matches_line]
  exact ⟨(congrArg FilterLine.polarity hline).symm, covers_inj hcovers⟩

end Directive
end SelectiveSync
