import SelectiveSync.Proofs.Path.Normal

/-! # Paths within others

* `within_or_within`: two paths that have a third within them lie one within the other.
* `relativeTo?_eq_empty`: the way to a path is empty for the path itself only.
* `relativeTo?_eq_text`: any other way, joined to the path it starts from, leads to the path it was
  asked for, and there is no other way that does. -/
namespace SelectiveSync
set_option autoImplicit false

namespace NormalPath

theorem stem_eq (p : NormalPath) : p.stem = p.text ∨ p.stem = p.text ++ "/" := by
  rw [stem]
  split
  · exact Or.inl rfl
  · exact Or.inr rfl

theorem relativeTo?_eq_some {p base : NormalPath} {rest : String} :
    p.relativeTo? base = some rest ↔
      if p.text = base.text then rest = "" else p.text = base.stem ++ rest := by
  rw [relativeTo?]
  split
  · rw [Option.some.injEq, eq_comm]
  · exact Text.dropStart?_eq_some

theorem within_iff {p base : NormalPath} :
    p.within base = true ↔ p.text = base.text ∨ base.stem.toList <+: p.text.toList := by
  have hstem : base.stem.toList <+: p.text.toList ↔ ∃ rest, p.text = base.stem ++ rest := by
    constructor
    · rintro ⟨l, hl⟩
      exact ⟨String.ofList l, String.toList_inj.1 (by simp [hl])⟩
    · rintro ⟨rest, hrest⟩
      exact ⟨rest.toList, by simp [hrest]⟩
  rw [within, Option.isSome_iff_exists, hstem]
  simp only [relativeTo?_eq_some]
  by_cases heq : p.text = base.text
  · simp [heq]
  · simp [heq]

theorem within_self (p : NormalPath) : p.within p = true :=
  within_iff.2 (Or.inl rfl)

/-- Where the stem of one path begins with that of another, one of the paths is within the other. -/
theorem within_of_stem {a b : NormalPath} (h : a.stem.toList <+: b.stem.toList) :
    a.within b = true ∨ b.within a = true := by
  rcases b.stem_eq with hb | hb
  · exact Or.inr (within_iff.2 (Or.inr (hb ▸ h)))
  · have hchars : b.stem.toList = b.text.toList ++ ['/'] := by
      rw [hb, String.toList_append]
      rfl
    rw [hchars, List.prefix_concat_iff] at h
    rcases h with h | h
    · rcases a.stem_eq with ha | ha
      · -- the text of `a` is that of `b` with a slash behind it
        refine Or.inl (within_iff.2 (Or.inr ?_))
        rw [hchars, ← h, ha]
      · refine Or.inl (within_iff.2 (Or.inl (String.toList_inj.1 ?_)))
        rw [ha, String.toList_append] at h
        exact List.append_cancel_right h
    · exact Or.inr (within_iff.2 (Or.inr h))

/-- Paths that have the same path within them do not lie side by side. -/
theorem within_or_within {p a b : NormalPath} (ha : p.within a = true) (hb : p.within b = true) :
    a.within b = true ∨ b.within a = true := by
  rcases within_iff.1 ha with heq | ha
  · exact Or.inl (within_iff.2 (heq ▸ within_iff.1 hb))
  · rcases within_iff.1 hb with heq | hb
    · exact Or.inr (within_iff.2 (Or.inr (heq ▸ ha)))
    · rcases List.prefix_or_prefix_of_prefix ha hb with h | h
      · exact within_of_stem h
      · exact (within_of_stem h).symm

section
variable {p base : NormalPath} (hp : p.Canonical) (hbase : base.Canonical)
  (ha : base.anchor ≠ .relative)
include hp hbase ha

/-- The stem of a path that starts somewhere is not the text of another path. -/
theorem eq_of_text_eq_stem (h : p.text = base.stem) : p = base :=
  calc
    p = ofText p.text := (ofText_text hp).symm
    _ = ofText (base.stem ++ "") := by rw [h, String.append_empty]
    _ = base.join "" := (join_eq hbase (fun _ => ha) "").symm
    _ = base := if_pos (Or.inl rfl)

theorem relativeTo?_eq_empty : p.relativeTo? base = some "" ↔ p = base := by
  rw [relativeTo?_eq_some]
  constructor
  · intro h
    split at h
    · next heq => exact (text_inj hp hbase).1 heq
    · exact eq_of_text_eq_stem hp hbase ha (h.trans String.append_empty)
  · rintro rfl
    rw [if_pos rfl]

/-- A path of names is the way from one path to another just when it leads there by joining it and
no backslash is in it. -/
theorem relativeTo?_eq_text {q : TreePath} :
    p.relativeTo? base = some q.text ↔ '\\' ∉ q.text.toList ∧ base.join q.text = p := by
  rw [relativeTo?_eq_some, join_eq hbase fun _ => ha]
  constructor
  · intro h
    split at h
    · exact absurd h q.text_ne_empty
    · refine ⟨fun hb => no_backslash_text hp ?_, by rw [← h, ofText_text hp]⟩
      rw [h, String.toList_append]
      exact List.mem_append_right _ hb
  · rintro ⟨hb, rfl⟩
    have hplain : ∀ s ∈ q.segments, IsPlain s := fun s hs =>
      (q.names s hs).isPlain fun hc => hb (by
        rw [← q.pieces_text] at hs
        exact Text.mem_of_mem_piece hs hc)
    have hcanonical : (⟨base.anchor, base.names ++ q.segments⟩ : NormalPath).Canonical :=
      fun s hs => (List.mem_append.1 hs).elim (hbase s) (hplain s)
    have htext : (⟨base.anchor, base.names ++ q.segments⟩ : NormalPath).text =
        base.stem ++ q.text := text_append hbase (fun _ => ha) q.ne_nil
    have hread : (ofText (base.stem ++ q.text)).text = base.stem ++ q.text := by
      rw [← htext, ofText_text hcanonical]
    rw [hread, if_neg]
    intro heq
    have hnames : base.names ++ q.segments = base.names :=
      congrArg names ((text_inj hcanonical hbase).1 (htext.trans heq))
    exact q.ne_nil (List.append_right_eq_self.1 hnames)

end

/-- A way that ends in a slash begins with one. -/
theorem startsWith_of_endsWith {p base : NormalPath} (hp : p.Canonical) {rest : String}
    (h : p.relativeTo? base = some rest) (hends : Text.endsWith '/' rest = true) :
    Text.startsWith '/' rest = true := by
  rw [Text.endsWith, beq_iff_eq] at hends
  have hne : rest.toList ≠ [] := by
    intro hnil
    rw [hnil] at hends
    cases hends
  rw [relativeTo?_eq_some] at h
  split at h
  · rw [h] at hne
    exact absurd rfl hne
  · have hall : ∀ c ∈ p.text.toList, c = '/' := by
      have hslash : Text.endsWith '/' p.text = true := by
        rw [Text.endsWith, h, String.toList_append, List.getLast?_append_of_ne_nil _ hne, hends]
        rfl
      have hanchor : p.text = p.anchor.text := by
        rw [text, ((endsWith_text hp).1 hslash).1]
        exact String.append_empty
      rw [hanchor]
      cases p.anchor <;> simp [Anchor.text]
    cases hl : rest.toList with
    | nil => exact absurd hl hne
    | cons c l =>
      have hc : c = '/' := hall c (by rw [h, String.toList_append, hl]; simp)
      rw [Text.startsWith, hl, hc]
      rfl

/-- A way that reads as a path of names is written as that path. -/
theorem eq_text_of_parse {p base : NormalPath} (hp : p.Canonical) {rest : String} {q : TreePath}
    (h : p.relativeTo? base = some rest) (hq : TreePath.parse rest = .ok q) : rest = q.text := by
  have htext := TreePath.text_of_parse hq
  rw [TreePath.withoutTrailingSlash] at htext
  split at htext
  · next hends =>
    rw [TreePath.parse, if_pos (startsWith_of_endsWith hp h hends)] at hq
    split at hq <;> cases hq
  · exact htext

end NormalPath
end SelectiveSync
