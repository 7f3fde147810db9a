import SelectiveSync.Proofs.Tree.Frame

/-! # Fresh decisions taken back

A decision on a path without a node adds the nodes that are missing on the way to it, and taking it
back removes nodes upwards for as long as nothing needs them. The nodes that were there before are
all needed, by a decision of their own or by the nodes below them, so that the removal ends exactly
where the addition began.

* `clear_settle`: settling a path without a node and clearing it again gives the same forest.
* `unmark_of_fresh`: so does a request that is granted, if its decision is taken back. -/
namespace SelectiveSync
set_option autoImplicit false

namespace Forest

/-! ## One row of siblings -/

section
variable (s : String) (p : List String) (n : String) (c : Decision) (below beside : Forest)

theorem clear_node :
    clear (s :: p) (node n c below beside) =
      if n = s then
        if p = [] then useful n .undecided below beside else useful n c (clear p below) beside
      else node n c below (clear (s :: p) beside) := by
  cases p with
  | nil => by_cases hn : n = s <;> simp [clear, hn]
  | cons t rest => by_cases hn : n = s <;> simp [clear, hn]

theorem settle_node (d : Decision) :
    (node n c below beside).settle d (s :: p) =
      if n = s then if p = [] then node n d .empty beside else node n c (below.settle d p) beside
      else node n c below (beside.settle d (s :: p)) := by
  cases p with
  | nil => by_cases hn : n = s <;> simp [settle, edit, update, hn]
  | cons t rest => by_cases hn : n = s <;> simp [settle, edit, update, hn]

end

theorem settle_empty (s : String) (p : List String) (d : Decision) :
    Forest.empty.settle d (s :: p) =
      if p = [] then node s d .empty .empty
      else node s .undecided (Forest.empty.settle d p) .empty := by
  cases p with
  | nil => rfl
  | cons t rest => rfl

theorem useful_of_fits {n : String} {d : Decision} {below beside : Forest} (h : Fits d below) :
    useful n d below beside = node n d below beside := by
  rw [useful, if_neg]
  rintro ⟨hd, hbelow⟩
  exact h.undecided hd hbelow

theorem useful_empty (n : String) (beside : Forest) : useful n .undecided .empty beside = beside :=
  if_pos ⟨rfl, rfl⟩

/-! ## The whole way -/

/-- The nodes that a decision on a missing node adds are those that clearing it removes. -/
theorem clear_settle (d : Decision) {p : List String} (hp : p ≠ []) {f : Forest}
    (h : f.WellFormed) (hmissing : f.get? p = none) : clear p (f.settle d p) = f := by
  induction p generalizing f with
  | nil => exact absurd rfl hp
  | cons s p ih =>
    induction f with
    | empty =>
      rw [settle_empty]
      by_cases hp : p = []
      · rw [if_pos hp, clear_node, if_pos rfl, if_pos hp, useful_empty]
      · have hbelow := ih hp (f := .empty) trivial (get?_empty p)
        rw [if_neg hp, clear_node, if_pos rfl, if_neg hp, hbelow, useful_empty]
    | node n c below beside _ ihs =>
      rw [get?_node] at hmissing
      rw [settle_node]
      by_cases hn : n = s
      · rw [if_pos hn] at hmissing
        by_cases hp : p = []
        · rw [if_pos hp] at hmissing
          cases hmissing
        · rw [if_neg hp] at hmissing
          have hbelow := ih hp h.fits.below hmissing
          rw [if_pos hn, if_neg hp, clear_node, if_pos hn, if_neg hp, hbelow, useful_of_fits h.fits]
      · rw [if_neg hn] at hmissing
        rw [if_neg hn, clear_node, if_neg hn, ihs h.beside hmissing]

end Forest

namespace PathTree

theorem top_of_fresh {t u : PathTree} {d : Decision} {p : TreePath} (hfresh : t.get? p = none)
    (hu : t.decide d p = .ok u) : d ≠ .undecided ∧ u.top = t.top.settle d p.segments := by
  rcases top_of_decide hu with hsettle | ⟨rfl, -⟩
  · exact hsettle
  · have hdecided := (unmark_eq_ok.1 hu).1
    rw [decisionAt_eq, hfresh] at hdecided
    exact absurd rfl hdecided

/-- A decision granted on a path where there was no node can be taken back, and the tree is then the
one before: with the same nodes and decisions and the siblings in the same order. -/
theorem unmark_of_fresh (t u : PathTree) (d : Decision) (p : TreePath) (h : t.Reachable)
    (hfresh : t.get? p = none) (hu : t.decide d p = .ok u) : u.unmark p = .ok t := by
  have ht := h.wellFormed
  obtain ⟨hd, htop⟩ := top_of_fresh hfresh hu
  have hdecided : u.decisionAt p ≠ .undecided := by
    rw [decisionAt_decide ht hu, if_pos rfl]
    exact hd
  have hback : u.top.clear p.segments = t.top := by
    rw [htop]
    exact Forest.clear_settle d p.ne_nil ht hfresh
  rw [unmark_eq_ok, hback]
  exact ⟨hdecided, rfl⟩

theorem unmark_of_fresh_sample :
    Sample.tree.Reachable ∧ Sample.tree.get? Sample.live = none ∧
      ∃ u, Sample.tree.decide .included Sample.live = .ok u ∧ u ≠ Sample.tree ∧
        u.unmark Sample.live = .ok Sample.tree := by
  have hfresh : Sample.tree.get? Sample.live = none := by decide
  have hu : Sample.tree.decide .included Sample.live =
      .ok ⟨Sample.tree.top.settle .included Sample.live.segments⟩ := by decide
  exact ⟨Sample.reachable, hfresh, _, hu, by decide,
    unmark_of_fresh Sample.tree _ .included Sample.live Sample.reachable hfresh hu⟩

end PathTree
end SelectiveSync
