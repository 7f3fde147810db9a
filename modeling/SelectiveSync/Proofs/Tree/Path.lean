import Mathlib.Data.List.Infix
import SelectiveSync.Tree.Path

/-! # Paths, their texts and their enclosing paths

* `joined_inj`: names joined by slashes can be told apart again.
* `TreePath.text_injective`: two paths with one text are the same path, and `parse_text`: reading
  the text of a path gives the path back.
* `mem_parents`: `parents` lists exactly the paths that enclose a path. `way` adds the path itself,
  outermost first, and `mem_way` says which paths those are. -/
namespace SelectiveSync
set_option autoImplicit false

/-! ## Names in a text -/

theorem IsName.ne_empty {s : String} (h : IsName s) : s ≠ "" :=
  ((isName_iff s).1 h).1

theorem IsName.no_slash {s : String} (h : IsName s) : '/' ∉ s.toList :=
  ((isName_iff s).1 h).2.1

theorem IsName.toList_ne_nil {s : String} (h : IsName s) : s.toList ≠ [] := by
  intro hs
  exact h.ne_empty (String.toList_inj.1 (by rw [hs]; rfl))

theorem isName_append {l m : List String} (hl : ∀ s ∈ l, IsName s) (hm : ∀ s ∈ m, IsName s) :
    ∀ s ∈ l ++ m, IsName s := fun s hs =>
  (List.mem_append.1 hs).elim (hl s) (hm s)

theorem head?_joined (s : String) (rest : List String) (h : IsName s) :
    (Text.joined '/' (s :: rest)).toList.head? = s.toList.head? := by
  rw [Text.toList_joined, List.map_cons]
  cases rest with
  | nil => simp
  | cons t rest =>
    rw [List.map_cons, List.intercalate_cons_cons, List.append_assoc,
      List.head?_append_of_ne_nil _ h.toList_ne_nil]

theorem getLast?_joined (l : List String) (hne : l ≠ []) (h : ∀ s ∈ l, IsName s) :
    (Text.joined '/' l).toList.getLast? = (l.getLast hne).toList.getLast? := by
  rw [Text.toList_joined]
  induction l with
  | nil => exact absurd rfl hne
  | cons s rest ih =>
    cases rest with
    | nil => simp
    | cons t rest =>
      have ih := ih (by simp) (fun u hu => h u (List.mem_cons_of_mem _ hu))
      have hlast : ((t :: rest).getLast (by simp)).toList ≠ [] :=
        (h _ (List.mem_cons_of_mem _ (List.getLast_mem _))).toList_ne_nil
      have hsome : (['/'].intercalate ((t :: rest).map String.toList)).getLast? ≠ none := by
        rw [ih, List.getLast?_eq_none_iff.ne]
        exact hlast
      rw [List.map_cons, List.map_cons, List.intercalate_cons_cons, ← List.map_cons,
        List.getLast?_append, List.getLast_cons (by simp), ← ih]
      cases hc : (['/'].intercalate ((t :: rest).map String.toList)).getLast? with
      | none => exact absurd hc hsome
      | some c => rfl

/-- Names put after one another with slashes between them can be told apart again. -/
theorem joined_inj {l m : List String} (hl : ∀ s ∈ l, IsName s) (hm : ∀ s ∈ m, IsName s) :
    Text.joined '/' l = Text.joined '/' m ↔ l = m := by
  have hempty (k : List String) (hk : ∀ s ∈ k, IsName s) (h : Text.joined '/' k = "") : k = [] := by
    by_contra hne
    have hp := Text.pieces_joined '/' k hne fun s hs => (hk s hs).no_slash
    rw [h] at hp
    have hone : k = [""] := by rw [← hp]; rfl
    exact (hk "" (by simp [hone])).ne_empty rfl
  constructor
  · intro h
    by_cases hl0 : l = []
    · subst hl0
      exact (hempty m hm h.symm).symm
    · by_cases hm0 : m = []
      · subst hm0
        exact hempty l hl h
      · rw [← Text.pieces_joined '/' l hl0 fun s hs => (hl s hs).no_slash,
          ← Text.pieces_joined '/' m hm0 fun s hs => (hm s hs).no_slash, h]
  · rintro rfl
    rfl

theorem joined_append_singleton {l : List String} (hl : l ≠ []) (s : String) :
    Text.joined '/' (l ++ [s]) = Text.joined '/' l ++ "/" ++ s := by
  rw [Text.joined, String.intercalate_append_of_ne_nil hl (by simp), String.intercalate_singleton]
  rfl

namespace Text

theorem startsWith_slash_iff {s : String} : startsWith '/' s = true ↔ ∃ rest, s = "/" ++ rest := by
  rw [startsWith, beq_iff_eq]
  constructor
  · intro h
    obtain ⟨l, hl⟩ := List.head?_eq_some_iff.1 h
    exact ⟨String.ofList l, String.toList_inj.1 (by simp [hl])⟩
  · rintro ⟨rest, rfl⟩
    simp

theorem endsWith_slash_iff {s : String} : endsWith '/' s = true ↔ ∃ start, s = start ++ "/" := by
  rw [endsWith, beq_iff_eq]
  constructor
  · intro h
    obtain ⟨l, hl⟩ := List.getLast?_eq_some_iff.1 h
    exact ⟨String.ofList l, String.toList_inj.1 (by simp [hl])⟩
  · rintro ⟨start, rfl⟩
    simp

end Text

namespace TreePath

/-! ## Texts of paths -/

theorem pieces_text (p : TreePath) : Text.pieces '/' p.text = p.segments :=
  Text.pieces_joined '/' p.segments p.ne_nil fun s hs => (p.names s hs).no_slash

theorem text_injective {p q : TreePath} (h : p.text = q.text) : p = q :=
  TreePath.ext ((joined_inj p.names q.names).1 h)

theorem text_inj {p q : TreePath} : p.text = q.text ↔ p = q :=
  ⟨text_injective, fun h => by rw [h]⟩

theorem startsWith_text (p : TreePath) : Text.startsWith '/' p.text = false := by
  obtain ⟨segments, hne, hn⟩ := p
  cases segments with
  | nil => exact absurd rfl hne
  | cons s rest =>
    have hs := hn s (by simp)
    rw [Text.startsWith, text, head?_joined s rest hs]
    refine beq_eq_false_iff_ne.2 fun hc => hs.no_slash ?_
    exact List.mem_of_mem_head? hc

theorem endsWith_text (p : TreePath) : Text.endsWith '/' p.text = false := by
  rw [Text.endsWith, text, getLast?_joined p.segments p.ne_nil p.names]
  refine beq_eq_false_iff_ne.2 fun hc => ?_
  exact (p.names _ (List.getLast_mem p.ne_nil)).no_slash (List.mem_of_getLast? hc)

theorem text_ne_empty (p : TreePath) : p.text ≠ "" := fun h =>
  p.ne_nil ((joined_inj p.names (m := []) (by simp)).1 h)

theorem checkNames_eq_ok (l : List String) (h : ∀ s ∈ l, IsName s) :
    checkNames l = .ok ⟨l, rfl, h⟩ := by
  induction l with
  | nil => rfl
  | cons s rest ih =>
    have hs : nameFault? s = none := h s (by simp)
    rw [checkNames]
    split
    · next fault hf => rw [hs] at hf; cases hf
    · rw [ih fun t ht => h t (List.mem_cons_of_mem _ ht)]
      rfl

theorem withoutTrailingSlash_text (p : TreePath) : withoutTrailingSlash p.text = p.text := by
  rw [withoutTrailingSlash, p.endsWith_text, if_neg Bool.false_ne_true]

theorem withoutTrailingSlash_concat (b : String) : withoutTrailingSlash (b ++ "/") = b := by
  rw [withoutTrailingSlash, if_pos (Text.endsWith_slash_iff.2 ⟨b, rfl⟩)]
  exact String.toList_inj.1 (by simp)

/-- A text reads as the path that it is written as once a slash at its end is gone. -/
theorem parse_eq_ok_of_text {s : String} {p : TreePath} (hne : s ≠ "")
    (hstart : Text.startsWith '/' s = false) (h : withoutTrailingSlash s = p.text) :
    parse s = .ok p := by
  have hpieces : Text.pieces '/' (withoutTrailingSlash s) = p.segments := by
    rw [h, pieces_text]
  have hcheck : checkNames (Text.pieces '/' (withoutTrailingSlash s)) =
      .ok ⟨p.segments, hpieces.symm, p.names⟩ := by
    rw [checkNames_eq_ok _ (by rw [hpieces]; exact p.names)]
    congr 2
  rw [parse, if_neg hne, hstart, if_neg Bool.false_ne_true, hcheck]

/-- Reading what a path is written as gives the path. -/
theorem parse_text (p : TreePath) : parse p.text = .ok p :=
  parse_eq_ok_of_text p.text_ne_empty p.startsWith_text p.withoutTrailingSlash_text

/-- A path is written as the text it was read from, less the slash that may end it. -/
theorem text_of_parse {s : String} {p : TreePath} (h : parse s = .ok p) :
    withoutTrailingSlash s = p.text := by
  rw [parse] at h
  split at h
  · cases h
  split at h
  · cases h
  split at h
  · cases h
  · next l hl hn _ =>
    cases h
    show withoutTrailingSlash s = Text.joined '/' l
    rw [hl, Text.joined_pieces]

/-! ## Enclosing paths -/

@[simp] theorem segments_upTo (p : TreePath) (i : Nat) :
    (p.upTo i).segments = p.segments.take (i + 1) := rfl

theorem segments_length_pos (p : TreePath) : 0 < p.segments.length :=
  List.length_pos_iff.2 p.ne_nil

theorem upTo_depth (p : TreePath) (i : Nat) (h : p.depth ≤ i + 1) : p.upTo i = p := by
  apply TreePath.ext
  rw [segments_upTo, List.take_of_length_le h]

/-- The paths on the way to a path, outermost first, the path itself being the last. -/
def way (p : TreePath) : List TreePath :=
  (List.range p.depth).map p.upTo

theorem eq_upTo_of_isPrefix {p q : TreePath} (h : q.segments <+: p.segments) :
    q = p.upTo (q.depth - 1) := by
  apply TreePath.ext
  have hpos := q.segments_length_pos
  have hd : q.depth - 1 + 1 = q.segments.length := by
    simp only [depth]; omega
  rw [segments_upTo, hd]
  exact List.prefix_iff_eq_take.1 h

theorem mem_way {p q : TreePath} : q ∈ p.way ↔ q.segments <+: p.segments := by
  constructor
  · intro h
    obtain ⟨i, -, rfl⟩ := List.mem_map.1 h
    exact List.take_prefix _ _
  · intro h
    have hpos := q.segments_length_pos
    have hle := h.length_le
    refine List.mem_map.2 ⟨q.depth - 1, List.mem_range.2 ?_, (eq_upTo_of_isPrefix h).symm⟩
    simp only [depth]
    omega

theorem mem_parents {p q : TreePath} : q ∈ p.parents ↔ q.IsAncestorOf p := by
  constructor
  · intro h
    obtain ⟨i, hi, rfl⟩ := List.mem_map.1 (List.mem_reverse.1 h)
    have hi := List.mem_range.1 hi
    simp only [depth] at hi
    refine ⟨?_, List.take_prefix _ _⟩
    rw [segments_upTo, List.length_take]
    omega
  · rintro ⟨hlt, hpre⟩
    have hpos := q.segments_length_pos
    refine List.mem_reverse.2 (List.mem_map.2 ⟨q.depth - 1, List.mem_range.2 ?_,
      (eq_upTo_of_isPrefix hpre).symm⟩)
    simp only [depth]
    omega

theorem way_eq (p : TreePath) : p.way = p.parents.reverse ++ [p] := by
  have hpos := p.segments_length_pos
  have hd : p.depth = p.depth - 1 + 1 := by
    simp only [depth]; omega
  rw [way, hd, List.range_succ, List.map_append, List.map_singleton, parents, List.reverse_reverse,
    upTo_depth p (p.depth - 1) (by omega)]

/-- A path encloses those whose first segments make it, itself apart. -/
theorem isAncestorOf_iff {p q : TreePath} :
    p.IsAncestorOf q ↔ p.segments <+: q.segments ∧ p.segments ≠ q.segments := by
  constructor
  · rintro ⟨hlt, hpre⟩
    refine ⟨hpre, fun h => ?_⟩
    rw [h] at hlt
    omega
  · rintro ⟨hpre, hne⟩
    have hle := hpre.length_le
    have hlen : p.segments.length ≠ q.segments.length := fun h => hne (hpre.eq_of_length h)
    exact ⟨by omega, hpre⟩

theorem IsAncestorOf.ne {p q : TreePath} (h : p.IsAncestorOf q) : p ≠ q := fun heq =>
  (isAncestorOf_iff.1 h).2 (by rw [heq])

theorem parent?_eq_some {p q : TreePath} : p.parent? = some q ↔ p.segments.dropLast = q.segments := by
  rw [parent?]
  by_cases h : p.segments.dropLast = []
  · rw [dif_pos h, h]
    exact iff_of_false (by simp) fun hq => q.ne_nil hq.symm
  · rw [dif_neg h, Option.some.injEq]
    exact ⟨fun hq => congrArg segments hq, fun hq => TreePath.ext hq⟩

theorem parent?_eq_none {p : TreePath} : p.parent? = none ↔ p.segments.dropLast = [] := by
  rw [parent?]
  by_cases h : p.segments.dropLast = [] <;> simp [h]

theorem isAncestorOf_of_parent? {p q : TreePath} (h : p.parent? = some q) : q.IsAncestorOf p := by
  have hpos := p.segments_length_pos
  rw [IsAncestorOf, ← parent?_eq_some.1 h, List.length_dropLast]
  exact ⟨by omega, List.dropLast_prefix _⟩

theorem IsAncestorOf.trans {p q r : TreePath} (h : p.IsAncestorOf q) (h' : q.IsAncestorOf r) :
    p.IsAncestorOf r :=
  ⟨h.1.trans h'.1, h.2.trans h'.2⟩

/-- A path made of the first segments of another is that path or encloses it. -/
theorem isPrefix_iff {p q : TreePath} :
    q.segments <+: p.segments ↔ q = p ∨ q.IsAncestorOf p := by
  rw [isAncestorOf_iff]
  constructor
  · intro h
    by_cases heq : q.segments = p.segments
    · exact Or.inl (TreePath.ext heq)
    · exact Or.inr ⟨h, heq⟩
  · rintro (rfl | h)
    · exact List.prefix_rfl
    · exact h.1

end TreePath
end SelectiveSync
