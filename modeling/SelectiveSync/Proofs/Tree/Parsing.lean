import SelectiveSync.Proofs.Tree.Path

/-! # Which texts are read as paths

* `Spells`: a text that spells names, as the rules for paths have it.
* `parse_eq_ok_iff`: a text reads as a path just when it is that path's text, or that text with one
  slash behind it.
* `parse_eq_error_iff`: with which fault any other text is refused.
* `parse_spelled`: a text reads as the names it spells, and one that spells none is refused. -/
namespace SelectiveSync
set_option autoImplicit false

namespace TreePath

/-- The text is these names with a slash between each two and, if need be, one at the end. -/
structure Spells (s : String) (l : List String) : Prop where
  ne_nil : l ≠ []
  names : ∀ n ∈ l, n ≠ "" ∧ '/' ∉ n.toList ∧ '\x00' ∉ n.toList ∧ n ≠ "." ∧ n ≠ ".."
  written : s = Text.joined '/' l ∨ s = Text.joined '/' l ++ "/"

/-- The fault of the first segment that is no name. -/
def FirstFault (l : List String) (fault : NameFault) : Prop :=
  ∃ before name after,
    l = before ++ name :: after ∧ (∀ n ∈ before, IsName n) ∧ nameFault? name = some fault

/-- What keeps a text from being read. -/
inductive Refused (s : String) : PathFault → Prop
  | empty (h : s = "") : Refused s .empty
  | absolute (rest : String) (h : s = "/" ++ rest) : Refused s .absolute
  | segment (fault : NameFault) (hne : s ≠ "") (hstart : Text.startsWith '/' s = false)
      (hfirst : FirstFault (Text.pieces '/' (withoutTrailingSlash s)) fault) :
      Refused s (.segment fault)

/-! ## Texts that are read -/

theorem parse_eq_ok_iff {s : String} {p : TreePath} :
    parse s = .ok p ↔ s = p.text ∨ s = p.text ++ "/" := by
  constructor
  · intro h
    have htext := text_of_parse h
    by_cases hends : Text.endsWith '/' s = true
    · obtain ⟨start, rfl⟩ := Text.endsWith_slash_iff.1 hends
      rw [withoutTrailingSlash_concat] at htext
      exact Or.inr (by rw [htext])
    · rw [withoutTrailingSlash, if_neg hends] at htext
      exact Or.inl htext
  · rintro (rfl | rfl)
    · exact p.parse_text
    · have hchars : p.text.toList ≠ [] := fun h => p.text_ne_empty (String.toList_eq_nil_iff.1 h)
      refine parse_eq_ok_of_text (fun h => ?_) ?_ (withoutTrailingSlash_concat p.text)
      · exact p.text_ne_empty (String.append_eq_empty_iff.1 h).1
      · rw [← p.startsWith_text, Text.startsWith, Text.startsWith, String.toList_append,
          List.head?_append_of_ne_nil _ hchars]

theorem spells_iff {s : String} {l : List String} :
    Spells s l ↔ ∃ p : TreePath, p.segments = l ∧ (s = p.text ∨ s = p.text ++ "/") := by
  constructor
  · rintro ⟨hne, hnames, hwritten⟩
    exact ⟨⟨l, hne, fun n hn => (isName_iff n).2 (hnames n hn)⟩, rfl, hwritten⟩
  · rintro ⟨p, rfl, hwritten⟩
    exact ⟨p.ne_nil, fun n hn => (isName_iff n).1 (p.names n hn), hwritten⟩

/-! ## Texts that are refused -/

theorem not_firstFault_nil (fault : NameFault) : ¬ FirstFault [] fault := by
  rintro ⟨before, name, after, hl, -⟩
  simp at hl

theorem firstFault_cons {s : String} {rest : List String} {fault : NameFault} :
    FirstFault (s :: rest) fault ↔ nameFault? s = some fault ∨ IsName s ∧ FirstFault rest fault := by
  constructor
  · rintro ⟨before, name, after, hl, hbefore, hname⟩
    cases before with
    | nil =>
      obtain ⟨rfl, -⟩ := List.cons.inj hl
      exact Or.inl hname
    | cons b before =>
      obtain ⟨rfl, hrest⟩ := List.cons.inj hl
      obtain ⟨hs, hbefore⟩ := List.forall_mem_cons.1 hbefore
      exact Or.inr ⟨hs, before, name, after, hrest, hbefore, hname⟩
  · rintro (hname | ⟨hs, before, name, after, rfl, hbefore, hname⟩)
    · exact ⟨[], s, rest, rfl, by simp, hname⟩
    · exact ⟨s :: before, name, after, rfl, List.forall_mem_cons.2 ⟨hs, hbefore⟩, hname⟩

theorem checkNames_eq_error_iff {l : List String} {fault : NameFault} :
    checkNames l = .error fault ↔ FirstFault l fault := by
  induction l with
  | nil =>
    refine iff_of_false (fun h => ?_) (not_firstFault_nil fault)
    cases h
  | cons s rest ih =>
    rw [checkNames, firstFault_cons, ← ih]
    split
    · next other hs => simp [IsName, hs]
    · next hs =>
      have hname : IsName s := hs
      cases checkNames rest <;> simp [Except.map, hname, hs]

theorem parse_eq_error_iff {s : String} {fault : PathFault} :
    parse s = .error fault ↔ Refused s fault := by
  rw [parse]
  constructor
  · intro h
    split at h
    · next hempty =>
      cases h
      exact .empty hempty
    split at h
    · next hstart =>
      cases h
      obtain ⟨rest, hrest⟩ := Text.startsWith_slash_iff.1 hstart
      exact .absolute rest hrest
    · next hne hstart =>
      split at h
      · next segmentFault hcheck =>
        cases h
        exact .segment segmentFault hne (Bool.eq_false_iff.2 hstart)
          (checkNames_eq_error_iff.1 hcheck)
      · cases h
  · intro h
    cases h with
    | empty hempty => rw [if_pos hempty]
    | absolute rest hrest =>
      have hne : s ≠ "" := fun hempty => by simp [hempty] at hrest
      rw [if_neg hne, if_pos (Text.startsWith_slash_iff.2 ⟨rest, hrest⟩)]
    | segment segmentFault hne hstart hfirst =>
      rw [if_neg hne, hstart, if_neg Bool.false_ne_true, checkNames_eq_error_iff.2 hfirst]

/-- A text reads as the names that it spells, and as no others; one that spells none is refused, with
the fault that `Refused` tells. A text that is read is what its path is written as, or that with one
slash behind it, and no path is written with a slash at the end. -/
theorem parse_spelled (s : String) :
    (∀ l, (∃ p, parse s = .ok p ∧ p.segments = l) ↔ Spells s l) ∧
      ((∃ fault, parse s = .error fault) ↔ ∀ l, ¬ Spells s l) ∧
      (∀ fault, parse s = .error fault ↔ Refused s fault) ∧
      (∀ p : TreePath, parse s = .ok p ↔ s = p.text ∨ s = p.text ++ "/") ∧
      ∀ p : TreePath, parse p.text = .ok p ∧ Text.endsWith '/' p.text = false := by
  have hread (l : List String) : (∃ p, parse s = .ok p ∧ p.segments = l) ↔ Spells s l := by
    simp only [spells_iff, parse_eq_ok_iff, and_comm]
  refine ⟨hread, ?_, fun fault => parse_eq_error_iff, fun p => parse_eq_ok_iff,
    fun p => ⟨p.parse_text, p.endsWith_text⟩⟩
  simp only [← hread]
  cases parse s with
  | error fault => simp
  | ok p => simp

example : parse "a//" = .error (.segment .empty) := by decide

end TreePath
end SelectiveSync
