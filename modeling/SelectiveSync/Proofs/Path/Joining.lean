import SelectiveSync.Proofs.Path.Reachable

/-! # Joining one segment after another

A segment that begins with no slash is read on onto the names of the path that it is joined to,
wherever the path starts and even if no name is left of it.

* `join_segment`: the names of the joined path are what the segment's parts leave on the stack.
* `join_join`: two segments joined one after the other are joined as one text.
* `join_composes`: both, with what the joined path is as a text. -/
namespace SelectiveSync
set_option autoImplicit false

/-- The text is not empty and begins with no slash of either kind. -/
structure IsSegment (s : String) : Prop where
  ne_empty : s ≠ ""
  no_slash : s.toList.head? ≠ some '/'
  no_backslash : s.toList.head? ≠ some '\\'

theorem IsSegment.append {s : String} (h : IsSegment s) (t : String) : IsSegment (s ++ t) := by
  obtain ⟨hne, hslash, hback⟩ := h
  have hchars : s.toList ≠ [] := fun hnil => hne (String.toList_eq_nil_iff.1 hnil)
  have hhead : (s ++ t).toList.head? = s.toList.head? := by
    rw [String.toList_append, List.head?_append_of_ne_nil _ hchars]
  refine ⟨fun hempty => hchars ?_, hhead ▸ hslash, hhead ▸ hback⟩
  have hnil := String.toList_eq_nil_iff.2 hempty
  rw [String.toList_append] at hnil
  exact (List.append_eq_nil_iff.1 hnil).1

namespace NormalPath

section
variable {a b s : String}

theorem head?_swap_ne (hslash : s.toList.head? ≠ some '/') (hback : s.toList.head? ≠ some '\\') :
    (Text.swap '\\' '/' s).toList.head? ≠ some '/' := by
  rw [Text.swap, String.toList_ofList, List.head?_map]
  cases h : s.toList.head? with
  | none => simp
  | some c =>
    rw [h, ne_eq, Option.some_inj] at hslash hback
    simp [hslash, hback]

theorem swap_anchor (a : Anchor) : Text.swap '\\' '/' a.text = a.text := by
  cases a <;> rfl

/-- What is read behind the place where a path starts starts there too. -/
theorem ofText_anchor_append (a : Anchor) (hslash : s.toList.head? ≠ some '/')
    (hback : s.toList.head? ≠ some '\\') : ofText (a.text ++ s) = ⟨a, resolve [] (parts s)⟩ := by
  have hhead := head?_swap_ne hslash hback
  have hbare : (⟨a, []⟩ : NormalPath).Canonical := List.forall_mem_nil IsPlain
  have htext : (⟨a, []⟩ : NormalPath).text = a.text := by
    rw [text, Text.joined, String.intercalate_nil, String.append_empty]
  have hanchor : Anchor.ofChars (a.text ++ Text.swap '\\' '/' s).toList = a := by
    rw [String.toList_append, ← htext]
    exact ofChars_text_append hbare _ fun _ => hhead
  rw [ofText, parts, Text.swap_append, swap_anchor, hanchor, resolve_anchor, parts]

/-- A text that begins with no slash is read on from where the path it is joined to ends. -/
theorem join_of_head (p : NormalPath) (hslash : s.toList.head? ≠ some '/')
    (hback : s.toList.head? ≠ some '\\') : p.join s = ⟨p.anchor, resolve p.names (parts s)⟩ := by
  rw [join]
  by_cases hvoid : s = "" ∨ s = "."
  · have hnames : resolve p.names (parts s) = p.names := by
      rcases hvoid with rfl | rfl <;> rfl
    rw [if_pos hvoid, hnames]
  rw [if_neg hvoid]
  by_cases hnames : p.names = []
  · rw [if_pos hnames, hnames, ofText_anchor_append p.anchor hslash hback]
  · rw [if_neg hnames]

theorem join_segment (p : NormalPath) (h : IsSegment s) :
    p.join s = ⟨p.anchor, resolve p.names (parts s)⟩ :=
  p.join_of_head h.no_slash h.no_backslash

theorem parts_append_slash (s t : String) : parts (s ++ "/" ++ t) = parts s ++ parts t := by
  have hswap : Text.swap '\\' '/' (s ++ "/" ++ t) =
      Text.swap '\\' '/' s ++ String.singleton '/' ++ Text.swap '\\' '/' t := by
    rw [Text.swap_append, Text.swap_append]
    rfl
  rw [parts, hswap, Text.pieces_append, parts, parts]

theorem join_join (p : NormalPath) (ha : IsSegment a) (hb : IsSegment b) :
    (p.join a).join b = p.join (a ++ "/" ++ b) := by
  have hab : IsSegment (a ++ "/" ++ b) := by
    rw [String.append_assoc]
    exact ha.append _
  rw [join_segment p hab, join_segment p ha, join_segment _ hb, parts_append_slash, resolve_append]

end

/-- Segments that begin with no slash are joined one after the other as they are joined in one text.
The joined path starts where the path starts, and its names are those that the segment's parts leave
when they are read onto the path's names. As a text it is what the path's text, a slash unless there
is one at its end or nothing before it, and the segment are reduced to. -/
theorem join_composes {p : NormalPath} (hp : p.Reachable) {a b : String} (ha : IsSegment a)
    (hb : IsSegment b) :
    (p.join a).join b = p.join (a ++ "/" ++ b) ∧ (p.join a).anchor = p.anchor ∧
      (∀ names, Resolves p.names (parts a) names ↔ (p.join a).names = names) ∧
      (p.join a).text = (ofText ((if p.text = "" then "" else p.stem) ++ a)).text := by
  have hjoin := join_segment p ha
  refine ⟨join_join p ha hb, by rw [hjoin], fun names => by rw [resolves_iff, hjoin], ?_⟩
  split
  · next hempty =>
    have hnowhere : p = ⟨.relative, []⟩ := by
      rw [← ofText_text hp.canonical, hempty]
      decide
    rw [hjoin, hnowhere]
    exact congrArg text (ofText_anchor_append .relative ha.no_slash ha.no_backslash).symm
  · next hempty =>
    refine congrArg text (join_eq hp.canonical (fun hnames hanchor => hempty ?_) a)
    rw [text, hnames, hanchor]
    rfl

/-- A network share without names is joined to a segment that goes above it, and nothing is left of
a path on the way to another name. -/
theorem join_composes_sample :
    let share := ofText "//"
    let local_ := ofText "music"
    (share.Reachable ∧ IsSegment "a\\..//.." ∧ IsSegment "b/./c" ∧
        (share.join "a\\..//..").join "b/./c" = ⟨.network, ["b", "c"]⟩) ∧
      local_.Reachable ∧ IsSegment ".." ∧ (local_.join "..").text = "" ∧
        (local_.join "..").join "b/./c" = local_.join "../b/./c" := by
  intro share local_
  have hup : IsSegment "a\\..//.." := ⟨by decide, by decide, by decide⟩
  have hdots : IsSegment ".." := ⟨by decide, by decide, by decide⟩
  have hdown : IsSegment "b/./c" := ⟨by decide, by decide, by decide⟩
  have hshare : share.Reachable := .ofText "//"
  have hlocal : local_.Reachable := .ofText "music"
  obtain ⟨hboth, -⟩ := join_composes hshare hup hdown
  obtain ⟨hone, -⟩ := join_composes hlocal hdots hdown
  exact ⟨⟨hshare, hup, hdown, hboth.trans (by decide)⟩, hlocal, hdots, by decide, hone⟩

end NormalPath
end SelectiveSync
