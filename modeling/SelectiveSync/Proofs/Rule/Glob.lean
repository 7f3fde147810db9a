import SelectiveSync.Rule.Directive

/-! # Patterns with wildcards

What a transfer program takes a pattern for that holds a wildcard: a backslash makes the character
after it stand for itself, a star stands for any run of characters inside a name, a question mark
for one such character and an open bracket begins a class of characters. How classes are written is
left open.

* `Glob.Matches`: the texts that such a pattern matches.
* `matches_escape_append`: an escaped text stands for itself and for nothing else.
* `any_wildcard_escape`: escaping neither makes wildcards nor removes them, so that it does not
  change whether the pattern is read as one with wildcards. -/
namespace SelectiveSync.Glob
set_option autoImplicit false

/-- The characters that make a pattern one with wildcards. -/
def wildcards : List Char := ['*', '?', '[']

/-- The pattern matches the whole text. In `classes body c rest` the class opened right before
`body` admits `c`, and `rest` is the pattern that follows it. -/
inductive Matches (classes : List Char → Char → List Char → Prop) : List Char → List Char → Prop
  | done : Matches classes [] []
  | quoted (c : Char) {p t : List Char} (h : Matches classes p t) :
      Matches classes ('\\' :: c :: p) (c :: t)
  | run (s : List Char) {p t : List Char} (hs : '/' ∉ s) (h : Matches classes p t) :
      Matches classes ('*' :: p) (s ++ t)
  | one (c : Char) {p t : List Char} (hc : c ≠ '/') (h : Matches classes p t) :
      Matches classes ('?' :: p) (c :: t)
  | ofClass (c : Char) {body rest t : List Char} (hc : classes body c rest)
      (h : Matches classes rest t) : Matches classes ('[' :: body) (c :: t)
  | plain (c : Char) {p t : List Char} (hslash : c ≠ '\\') (hc : c ∉ wildcards)
      (h : Matches classes p t) : Matches classes (c :: p) (c :: t)

/-! ## What single characters of a pattern match -/

section
variable {classes : List Char → Char → List Char → Prop} {p t : List Char}

theorem matches_nil : Matches classes [] t ↔ t = [] := by
  constructor
  · rintro ⟨⟩
    rfl
  · rintro rfl
    exact .done

theorem matches_quoted (c : Char) :
    Matches classes ('\\' :: c :: p) t ↔ ∃ r, t = c :: r ∧ Matches classes p r := by
  constructor
  · intro h
    cases h with
    | quoted _ h => exact ⟨_, rfl, h⟩
    | plain _ hslash => exact absurd rfl hslash
  · rintro ⟨r, rfl, h⟩
    exact .quoted c h

theorem matches_run :
    Matches classes ('*' :: p) t ↔ ∃ s r, t = s ++ r ∧ '/' ∉ s ∧ Matches classes p r := by
  constructor
  · intro h
    cases h with
    | run s hs h => exact ⟨s, _, rfl, hs, h⟩
    | plain _ _ hc => exact absurd (by simp [wildcards]) hc
  · rintro ⟨s, r, rfl, hs, h⟩
    exact .run s hs h

theorem matches_plain {c : Char} (hslash : c ≠ '\\') (hc : c ∉ wildcards) :
    Matches classes (c :: p) t ↔ ∃ r, t = c :: r ∧ Matches classes p r := by
  constructor
  · intro h
    cases h with
    | quoted => exact absurd rfl hslash
    | run => exact absurd (by simp [wildcards]) hc
    | one => exact absurd (by simp [wildcards]) hc
    | ofClass => exact absurd (by simp [wildcards]) hc
    | plain _ _ _ h => exact ⟨_, rfl, h⟩
  · rintro ⟨r, rfl, h⟩
    exact .plain c hslash hc h

end

/-! ## Escaped texts -/

/-- A character the way that `Directive.escaped` writes it. -/
def escape (c : Char) : List Char :=
  if c = '\\' || Directive.isWildcard c then ['\\', c] else [c]

theorem toList_escaped (path : String) :
    (Directive.escaped path).toList = path.toList.flatMap escape := by
  rw [Directive.escaped, String.toList_ofList]
  rfl

theorem isWildcard_iff (c : Char) : Directive.isWildcard c = true ↔ c ∈ wildcards := by
  simp [Directive.isWildcard, wildcards, or_assoc]

/-- An escaped character stands for itself alone, whatever it is. -/
theorem matches_escape {classes : List Char → Char → List Char → Prop} (c : Char)
    {p t : List Char} :
    Matches classes (escape c ++ p) t ↔ ∃ r, t = c :: r ∧ Matches classes p r := by
  rw [escape]
  by_cases h : (c = '\\' || Directive.isWildcard c) = true
  · rw [if_pos h]
    exact matches_quoted c
  · rw [if_neg h]
    rw [Bool.or_eq_true, decide_eq_true_eq, isWildcard_iff, not_or] at h
    exact matches_plain h.1 h.2

theorem matches_escape_append {classes : List Char → Char → List Char → Prop} (l : List Char)
    {p t : List Char} :
    Matches classes (l.flatMap escape ++ p) t ↔ ∃ r, t = l ++ r ∧ Matches classes p r := by
  induction l generalizing t with
  | nil => simp
  | cons c l ih =>
    rw [List.flatMap_cons, List.append_assoc, matches_escape]
    constructor
    · rintro ⟨r, rfl, h⟩
      obtain ⟨r', rfl, h'⟩ := ih.1 h
      exact ⟨r', rfl, h'⟩
    · rintro ⟨r, rfl, h⟩
      exact ⟨l ++ r, rfl, ih.2 ⟨r, rfl, h⟩⟩

theorem matches_escape_iff {classes : List Char → Char → List Char → Prop} (l : List Char)
    {t : List Char} : Matches classes (l.flatMap escape) t ↔ t = l := by
  have h : Matches classes (l.flatMap escape ++ []) t ↔ _ := matches_escape_append l
  simpa [matches_nil] using h

theorem any_wildcard_escape (l : List Char) :
    (l.flatMap escape).any (· ∈ wildcards) = l.any (· ∈ wildcards) := by
  have hback : ('\\' ∈ wildcards) = False := by simp [wildcards]
  induction l with
  | nil => rfl
  | cons c l ih =>
    rw [List.flatMap_cons, List.any_append, ih, List.any_cons, escape]
    split <;> simp [hback]

theorem getLast?_escape (l : List Char) : (l.flatMap escape).getLast? = l.getLast? := by
  rcases List.eq_nil_or_concat l with rfl | ⟨beginning, c, rfl⟩
  · rfl
  · rw [List.concat_eq_append, List.flatMap_append, List.flatMap_singleton, List.getLast?_append]
    rw [escape]
    split <;> simp

end SelectiveSync.Glob
