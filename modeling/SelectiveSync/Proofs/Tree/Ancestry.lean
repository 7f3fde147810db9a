import SelectiveSync.Proofs.Text.Lines
import SelectiveSync.Proofs.Tree.Path

/-! # Ancestors of a path

* `Chain`: what steps from one thing to the next lead to until no step is left.
* `chain_parents`: what steps to the enclosing path lead to are the listed `parents`.
* `isAncestorOf_iff_text`: how the text of a path begins says which paths enclose it.
* `ancestry_one_meaning`: segments, texts and steps upwards name the same ancestors, and these stand
  in a row. -/
namespace SelectiveSync
set_option autoImplicit false

/-! ## Steps until none is left -/

/-- From `a`, steps lead to the things listed, in this order and no further. -/
inductive Chain {α : Type} (next : α → Option α) : α → List α → Prop
  | stop {a : α} (h : next a = none) : Chain next a []
  | step {a b : α} {rest : List α} (h : next a = some b) (hrest : Chain next b rest) :
      Chain next a (b :: rest)

section
variable {α : Type} {next : α → Option α} {a : α} {l m : List α}

theorem Chain.unique (hl : Chain next a l) (hm : Chain next a m) : m = l := by
  induction hl generalizing m with
  | stop h =>
    cases hm with
    | stop _ => rfl
    | step h' _ => simp [h] at h'
  | step h _ ih =>
    cases hm with
    | stop h' => simp [h] at h'
    | step h' hrest =>
      cases h.symm.trans h'
      rw [ih hrest]

/-- A chain that is known is the only one. -/
theorem Chain.iff_eq (hl : Chain next a l) (m : List α) : Chain next a m ↔ m = l := by
  constructor
  · intro hm
    exact hl.unique hm
  · intro h
    rw [h]
    exact hl

end

namespace TreePath

/-! ## Steps to enclosing paths -/

theorem parent?_upTo_zero (p : TreePath) : (p.upTo 0).parent? = none := by
  apply parent?_eq_none.2
  apply List.length_eq_zero_iff.1
  simp only [segments_upTo, List.length_dropLast, List.length_take]
  omega

theorem parent?_upTo_succ (p : TreePath) (i : Nat) (h : i + 1 < p.depth) :
    (p.upTo (i + 1)).parent? = some (p.upTo i) := by
  have hlen : min (min (i + 2) p.segments.length - 1) (i + 2) = i + 1 := by
    unfold depth at h
    omega
  apply parent?_eq_some.2
  rw [segments_upTo, segments_upTo, List.dropLast_eq_take, List.take_take, List.length_take, hlen]

theorem chain_upTo (p : TreePath) (i : Nat) (h : i < p.depth) :
    Chain parent? (p.upTo i) ((List.range i).map p.upTo).reverse := by
  induction i with
  | zero => exact .stop p.parent?_upTo_zero
  | succ i ih =>
    have hbelow := ih (by omega)
    rw [List.range_succ, List.map_append, List.map_singleton, List.reverse_append,
      List.reverse_singleton, List.singleton_append]
    exact .step (p.parent?_upTo_succ i h) hbelow

theorem chain_parents (p : TreePath) : Chain parent? p p.parents := by
  have hpos := p.segments_length_pos
  have hdepth : p.depth - 1 < p.depth := by
    unfold depth
    omega
  have h := p.chain_upTo (p.depth - 1) hdepth
  rw [p.upTo_depth (p.depth - 1) (by omega)] at h
  exact h

/-! ## How texts begin -/

theorem isAncestorOf_iff_text {p q : TreePath} :
    p.IsAncestorOf q ↔ ∃ rest, q.text = p.text ++ "/" ++ rest := by
  constructor
  · rintro ⟨hlt, l, hl⟩
    have hne : l ≠ [] := by
      intro hnil
      rw [← hl, hnil, List.append_nil] at hlt
      omega
    refine ⟨Text.joined '/' l, ?_⟩
    rw [text, text, ← hl, Text.joined, String.intercalate_append_of_ne_nil p.ne_nil hne]
    rfl
  · rintro ⟨rest, hrest⟩
    -- no segment has a slash in it, so that the slash behind `p` ends a segment of `q`
    have hpieces : q.segments = p.segments ++ Text.pieces '/' rest := by
      rw [← q.pieces_text, ← p.pieces_text, hrest]
      exact Text.pieces_append '/' p.text rest
    have hmore := List.length_pos_iff.2 (Text.pieces_ne_nil '/' rest)
    have hlen := congrArg List.length hpieces
    rw [List.length_append] at hlen
    exact ⟨by omega, _, hpieces.symm⟩

/-! ## Ancestors in a row -/

theorem not_isAncestorOf_self (p : TreePath) : ¬ p.IsAncestorOf p := fun h =>
  h.ne rfl

theorem eq_or_isAncestorOf_of_common {p q r : TreePath} (hp : p.IsAncestorOf r)
    (hq : q.IsAncestorOf r) : p = q ∨ p.IsAncestorOf q ∨ q.IsAncestorOf p := by
  rcases List.prefix_or_prefix_of_prefix hp.2 hq.2 with h | h
  · rcases isPrefix_iff.1 h with heq | hanc
    · exact Or.inl heq
    · exact Or.inr (Or.inl hanc)
  · rcases isPrefix_iff.1 h with heq | hanc
    · exact Or.inl heq.symm
    · exact Or.inr (Or.inr hanc)

/-- One path encloses another just when the other's text begins with its text and a slash, and just
when steps from the other to its enclosing paths lead to it. No path encloses itself, what encloses
an enclosing path encloses too, and of two paths that enclose a third one encloses the other, unless
they are the same. -/
theorem ancestry_one_meaning (p q : TreePath) :
    (p.IsAncestorOf q ↔ ∃ rest, q.text = p.text ++ "/" ++ rest) ∧
      (∀ above, Chain parent? q above ↔ above = q.parents) ∧
      (p.IsAncestorOf q ↔ p ∈ q.parents) ∧
      ¬ p.IsAncestorOf p ∧
      (∀ r, p.IsAncestorOf q → q.IsAncestorOf r → p.IsAncestorOf r) ∧
      ∀ r, p.IsAncestorOf r → q.IsAncestorOf r → p = q ∨ p.IsAncestorOf q ∨ q.IsAncestorOf p := by
  refine ⟨isAncestorOf_iff_text, q.chain_parents.iff_eq, mem_parents.symm,
    p.not_isAncestorOf_self, ?_, ?_⟩
  · intro r hpq hqr
    exact hpq.trans hqr
  · intro r hpr hqr
    exact eq_or_isAncestorOf_of_common hpr hqr

theorem ancestry_one_meaning_sample :
    let top : TreePath := ⟨["a b"], by decide, by decide⟩
    let mid : TreePath := ⟨["a b", "c\\d"], by decide, by decide⟩
    let low : TreePath := ⟨["a b", "c\\d", "..."], by decide, by decide⟩
    top.IsAncestorOf mid ∧ mid.IsAncestorOf low ∧ top.IsAncestorOf low ∧
      (∃ rest, low.text = top.text ++ "/" ++ rest) ∧ top ∈ low.parents ∧
      (top = mid ∨ top.IsAncestorOf mid ∨ mid.IsAncestorOf top) := by
  intro top mid low
  have hupper : top.IsAncestorOf mid := by decide
  have hlower : mid.IsAncestorOf low := by decide
  obtain ⟨-, -, -, -, htrans, hrow⟩ := ancestry_one_meaning top mid
  have hends : top.IsAncestorOf low := htrans low hupper hlower
  obtain ⟨htext, -, hsteps, -⟩ := ancestry_one_meaning top low
  exact ⟨hupper, hlower, hends, htext.1 hends, hsteps.1 hends, hrow low hends hlower⟩

/-- Names count as a whole: `a` is no part of `ab`. -/
example : ¬ TreePath.IsAncestorOf ⟨["a"], by decide, by decide⟩ ⟨["ab", "c"], by decide, by decide⟩ :=
  by decide

end TreePath
end SelectiveSync
