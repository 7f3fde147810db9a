import SelectiveSync.Proofs.Tree.Listing
import SelectiveSync.Proofs.Tree.Reachable

/-! # What a change leaves alone

Two paths are apart if neither leads through the other. A change at one of them is not seen at the
other, neither in what is there nor in anything beneath it.

* `get?_edit` and `get?_clear`: the nodes at paths apart from the changed one.
* `filter_marks_edit` and `filter_marks_clear`: the marks that are not at or beneath the changed
  path, in their order.
* `PathTree.decisionAt_decide`, `PathTree.get?_decide` and `PathTree.filter_marks_decide` say the
  same of requests that are granted. -/
namespace SelectiveSync
set_option autoImplicit false

namespace Forest

/-! ## Nodes -/

theorem ne_nil_of_not_prefix {p q : List String} (h : ¬ p <+: q) : p ≠ [] := by
  rintro rfl
  exact h List.nil_prefix

theorem get?_edit (g : Decision → Forest → Decision × Forest) {p q : List String}
    (hpq : ¬ p <+: q) (hqp : ¬ q <+: p) (f : Forest) : (edit g p f).get? q = f.get? q := by
  induction p generalizing f q with
  | nil => exact absurd List.nil_prefix hpq
  | cons s p ih =>
    cases q with
    | nil => exact absurd List.nil_prefix hqp
    | cons t q =>
      by_cases hts : t = s
      · subst hts
        have hpq : ¬ p <+: q := fun h => hpq (List.cons_prefix_cons.2 ⟨rfl, h⟩)
        have hqp : ¬ q <+: p := fun h => hqp (List.cons_prefix_cons.2 ⟨rfl, h⟩)
        have hp := ne_nil_of_not_prefix hpq
        have hq := ne_nil_of_not_prefix hqp
        rw [edit_cons g t p hp, get?_cons t q hq, get?_cons t q hq, belowAt_update_self]
        exact ih hpq hqp _
      · cases p with
        | nil => exact get?_update_ne g hts f q
        | cons u rest => exact get?_update_ne _ hts f q

/-- A node that is left out for being of no use was the way to no other node. -/
theorem get?_useful {n : String} {d : Decision} {below beside : Forest} (hfresh : n ∉ beside.names)
    {q : List String} (hq : q ≠ [n]) :
    (useful n d below beside).get? q = (node n d below beside).get? q := by
  rw [useful]
  split
  · next h =>
    obtain ⟨rfl, rfl⟩ := h
    cases q with
    | nil => rfl
    | cons s q =>
      rw [get?_node]
      by_cases hn : n = s
      · subst hn
        have hq : q ≠ [] := by
          intro h
          exact hq (by rw [h])
        rw [if_pos rfl, if_neg hq, get?_of_not_mem hfresh, get?_empty]
      · rw [if_neg hn]
  · rfl

theorem get?_clear {p q : List String} (hpq : ¬ p <+: q) (hqp : ¬ q <+: p) {f : Forest}
    (h : f.WellFormed) : (clear p f).get? q = f.get? q := by
  fun_induction clear p f generalizing q with
  | case1 => rfl
  | case2 => exact absurd List.nil_prefix hpq
  | case3 n d below beside =>
    have hq : q ≠ [n] := by
      intro hq
      exact hpq (hq ▸ List.prefix_rfl)
    rw [get?_useful h.fresh hq]
    cases q with
    | nil => rfl
    | cons s q =>
      have hn : n ≠ s := by
        intro hn
        exact hpq (List.cons_prefix_cons.2 ⟨hn, List.nil_prefix⟩)
      rw [get?_node, get?_node, if_neg hn, if_neg hn]
  | case4 n d below beside t more ih =>
    have hq : q ≠ [n] := by
      intro hq
      exact hqp (hq ▸ List.cons_prefix_cons.2 ⟨rfl, List.nil_prefix⟩)
    rw [get?_useful h.fresh hq]
    cases q with
    | nil => rfl
    | cons s q =>
      rw [get?_node, get?_node]
      by_cases hn : n = s
      · subst hn
        have hpq : ¬ t :: more <+: q := fun hpre => hpq (List.cons_prefix_cons.2 ⟨rfl, hpre⟩)
        have hqp : ¬ q <+: t :: more := fun hpre => hqp (List.cons_prefix_cons.2 ⟨rfl, hpre⟩)
        have hq := ne_nil_of_not_prefix hqp
        rw [if_pos rfl, if_pos rfl, if_neg hq, if_neg hq]
        exact ih hpq hqp h.fits.below
      · rw [if_neg hn, if_neg hn]
  | case5 s rest n d below beside hn ih =>
    cases q with
    | nil => rfl
    | cons t q =>
      rw [get?_node, get?_node]
      by_cases hnt : n = t
      · rw [if_pos hnt, if_pos hnt]
      · rw [if_neg hnt, if_neg hnt]
        exact ih hpq hqp h.beside

/-! ## Marks -/

theorem marks_row (n : String) (d : Decision) (below beside : Forest) :
    (node n d below beside).marks = (node n d below .empty).marks ++ beside.marks := by
  rw [marks_node, marks_node n d below .empty, marks_empty, List.append_nil]

theorem marks_useful (n : String) (d : Decision) (below beside : Forest) :
    (useful n d below beside).marks = (node n d below beside).marks := by
  rw [useful]
  split
  · next h =>
    obtain ⟨rfl, rfl⟩ := h
    simp [marks_node]
  · rfl

/-- What holds of a sibling's marks, a missing one having none, holds of the marks of its row. -/
theorem filter_marks_update {s : String} {g : Decision → Forest → Decision × Forest}
    (P : List String × Decision → Bool)
    (hg : ∀ d below, (node s (g d below).1 (g d below).2 .empty).marks.filter P =
      (node s d below .empty).marks.filter P) (f : Forest) :
    (f.update s g).marks.filter P = f.marks.filter P := by
  induction f with
  | empty =>
    rw [update, hg]
    simp [marks_node]
  | node n d below beside _ ih =>
    by_cases hn : n = s
    · subst hn
      rw [update, if_pos rfl, marks_row, marks_row n d, List.filter_append, List.filter_append, hg]
    · rw [update, if_neg hn, marks_row, marks_row n d below beside, List.filter_append,
        List.filter_append, ih]

theorem filter_marks_node (s : String) (p : List String) (d : Decision) (below : Forest) :
    (node s d below .empty).marks.filter (fun m => ¬ s :: p <+: m.1) =
      (if d = .undecided ∨ p = [] then [] else [([s], d)]) ++
        (below.marks.filter fun m => ¬ p <+: m.1).map (beneath s) := by
  have hfun : (fun m : List String × Decision => decide (¬ s :: p <+: m.1)) ∘ beneath s =
      fun m => decide (¬ p <+: m.1) := by
    funext m
    simp [beneath, List.cons_prefix_cons]
  rw [marks_node, marks_empty, List.append_nil, List.filter_append, List.filter_map, hfun]
  by_cases hd : d = .undecided
  · simp [hd]
  · by_cases hp : p = []
    · simp [hd, hp]
    · simp [hd, hp, List.cons_prefix_cons]

theorem filter_marks_edit (g : Decision → Forest → Decision × Forest) {p : List String}
    (hp : p ≠ []) (f : Forest) :
    (edit g p f).marks.filter (fun m => ¬ p <+: m.1) = f.marks.filter fun m => ¬ p <+: m.1 := by
  induction p generalizing f with
  | nil => exact absurd rfl hp
  | cons s p ih =>
    by_cases hp : p = []
    · subst hp
      refine filter_marks_update _ (fun d below => ?_) f
      rw [filter_marks_node, filter_marks_node]
      simp
    · rw [edit_cons g s p hp]
      refine filter_marks_update _ (fun d below => ?_) f
      rw [filter_marks_node, filter_marks_node, ih hp]

theorem filter_marks_clear (p : List String) (f : Forest) :
    (clear p f).marks.filter (fun m => ¬ p <+: m.1) = f.marks.filter fun m => ¬ p <+: m.1 := by
  fun_induction clear p f with
  | case1 => rfl
  | case2 => rfl
  | case3 n d below beside =>
    rw [marks_useful, marks_row, marks_row n d below, List.filter_append, List.filter_append,
      filter_marks_node, filter_marks_node]
    simp
  | case4 n d below beside t more ih =>
    rw [marks_useful, marks_row, marks_row n d below, List.filter_append, List.filter_append,
      filter_marks_node, filter_marks_node, ih]
  | case5 s rest n d below beside hn ih =>
    rw [marks_row, marks_row n d below beside, List.filter_append, List.filter_append, ih]

end Forest

/-! ## Requests that are granted -/

namespace TreePath

/-- Neither path is the other or leads to it. -/
def Apart (p q : TreePath) : Prop :=
  p ≠ q ∧ ¬ p.IsAncestorOf q ∧ ¬ q.IsAncestorOf p

theorem Apart.symm {p q : TreePath} (h : p.Apart q) : q.Apart p :=
  ⟨h.1.symm, h.2.2, h.2.1⟩

theorem apart_iff {p q : TreePath} :
    p.Apart q ↔ ¬ p.segments <+: q.segments ∧ ¬ q.segments <+: p.segments := by
  rw [isPrefix_iff, isPrefix_iff, Apart, @eq_comm _ q p]
  tauto

end TreePath

namespace PathTree

section
variable {t u : PathTree} {d : Decision} {p q : TreePath} (ht : t.top.WellFormed)
  (h : t.decide d p = .ok u)

include h in
/-- A request that is granted settles its path anew or clears it. -/
theorem top_of_decide :
    d ≠ .undecided ∧ u.top = t.top.settle d p.segments ∨
      d = .undecided ∧ u.top = t.top.clear p.segments := by
  cases d with
  | included =>
    obtain ⟨-, rfl⟩ := markIncluded_eq_ok.1 h
    exact Or.inl ⟨by simp, rfl⟩
  | evicted =>
    obtain ⟨-, -, -, rfl⟩ := markEvicted_eq_ok.1 h
    exact Or.inl ⟨by simp, rfl⟩
  | undecided =>
    obtain ⟨-, rfl⟩ := unmark_eq_ok.1 h
    exact Or.inr ⟨rfl, rfl⟩

include ht h

theorem decisionAt_decide (q : TreePath) :
    u.decisionAt q =
      if q = p then d else if d ≠ .undecided ∧ p.IsAncestorOf q then .undecided
      else t.decisionAt q := by
  obtain ⟨top⟩ := u
  rcases top_of_decide h with ⟨hd, htop⟩ | ⟨rfl, htop⟩
  · rw [show top = _ from htop, decisionAt_settle]
    simp [hd]
  · rw [show top = _ from htop, decisionAt_clear t p q ht]
    simp

theorem get?_decide (hpq : p.Apart q) : u.get? q = t.get? q := by
  obtain ⟨hpq, hqp⟩ := TreePath.apart_iff.1 hpq
  rw [get?, get?]
  rcases top_of_decide h with ⟨-, htop⟩ | ⟨-, htop⟩
  · rw [htop]
    exact Forest.get?_edit _ hpq hqp t.top
  · rw [htop]
    exact Forest.get?_clear hpq hqp ht

omit ht in
theorem filter_marks_decide :
    u.top.marks.filter (fun m => ¬ p.segments <+: m.1) =
      t.top.marks.filter fun m => ¬ p.segments <+: m.1 := by
  rcases top_of_decide h with ⟨-, htop⟩ | ⟨-, htop⟩
  · rw [htop]
    exact Forest.filter_marks_edit _ p.ne_nil t.top
  · rw [htop]
    exact Forest.filter_marks_clear p.segments t.top

end

end PathTree
end SelectiveSync
