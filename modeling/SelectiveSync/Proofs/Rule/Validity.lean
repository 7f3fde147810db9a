import SelectiveSync.Proofs.Tree.Listing
import SelectiveSync.Proofs.Tree.Reachable
import SelectiveSync.Proofs.Rule.Corruption

/-! # The checks never fail on trees that operations make

* `WellFormed.named` and `WellFormed.clean`: nothing that the checks look for is in a well-formed
  forest, so that it passes them.
* `reachable_tree_invariant`: what all trees made by operations have in common, and that neither
  validation nor any list of directives reports them as corrupt. -/
namespace SelectiveSync
set_option autoImplicit false

namespace Forest

theorem WellFormed.named {f : Forest} (h : f.WellFormed) {seen : List String}
    (hseen : ∀ s ∈ f.names, s ∉ seen) : f.Named seen := by
  induction f generalizing seen with
  | empty => exact named_empty seen
  | node n d below beside _ ih =>
    refine named_node.2 ⟨h.isName, hseen n (by simp [names]), ih h.beside fun s hs hmem => ?_⟩
    rcases List.mem_cons.1 hmem with rfl | hmem
    · exact h.fresh hs
    · exact hseen s (by simp [names, hs]) hmem

theorem WellFormed.clean {f : Forest} (h : f.WellFormed) : ∀ c ∈ f.toNodes, c.Clean := by
  induction f with
  | empty => simp [toNodes]
  | node n d below beside ihb ihs =>
    rw [toNodes, List.forall_mem_cons, Node.clean_iff, ← named_iff_not_faulty]
    exact ⟨⟨h.fits.below.named (by simp), ihb h.fits.below⟩, ihs h.beside⟩

theorem check_eq_ok {f : Forest} (h : f.WellFormed) (base : String) : f.check base = .ok () := by
  rw [check, bind_eq_ok_iff, checkRow_eq_ok_iff, checkBelow_eq_ok_iff]
  exact ⟨h.named (by simp), fun c hc => (h.clean c hc).sound⟩

theorem validate_eq_ok {f : Forest} (h : f.WellFormed) (base : String) :
    f.validate base [] = .ok () :=
  validate_eq_ok_iff.2 ⟨h.named (by simp), h.clean⟩

end Forest

namespace PathTree

theorem validate_eq_ok {t : PathTree} (h : t.top.WellFormed) : t.validate = .ok () := by
  rw [validate, Forest.validate_eq_ok h ""]

theorem directives_eq_ok {t : PathTree} (h : t.top.WellFormed) :
    t.directives = .ok (t.top.rules "") := by
  rw [directives, Forest.check_eq_ok h]

theorem directivesAt_eq_ok {t : PathTree} (h : t.top.WellFormed) (p : TreePath) :
    t.directivesAt p = .ok (((t.get? p).map fun n => n.rules p.text).getD []) := by
  rw [directivesAt]
  cases hn : t.get? p with
  | none => rfl
  | some n =>
    have hbelow := (h.get hn).2.below
    simp only [Node.directives, Forest.check_eq_ok hbelow, ite_self]
    rfl

theorem isEmpty_iff {t : PathTree} (h : t.top.WellFormed) : t.isEmpty = true ↔ t.marks = [] := by
  rw [isEmpty, decide_eq_true_eq, marks, List.map_eq_nil_iff, Forest.marks_eq_nil h]

/-- In every tree that operations make, all names are usable, siblings have different names, nothing
is below an inclusion and every node without a decision leads to others; the root of the target is
none of the nodes, so it has neither a name nor a decision. No check ever finds such a tree corrupt,
and it is empty just when it has no marks. -/
theorem reachable_tree_invariant (t : PathTree) (h : t.Reachable) :
    t.top.WellFormed ∧ t.validate = .ok () ∧ (∃ rules, t.directives = .ok rules) ∧
      (∀ p, ∃ rules, t.directivesAt p = .ok rules) ∧ (t.isEmpty = true ↔ t.marks = []) := by
  have ht := h.wellFormed
  exact ⟨ht, validate_eq_ok ht, ⟨_, directives_eq_ok ht⟩, fun p => ⟨_, directivesAt_eq_ok ht p⟩,
    isEmpty_iff ht⟩

theorem reachable_tree_invariant_sample :
    Sample.tree.Reachable ∧ Sample.tree.top.WellFormed ∧ Sample.tree.validate = .ok () ∧
      Sample.tree.isEmpty = false := by
  obtain ⟨hwell, hvalid, -, -, hempty⟩ := reachable_tree_invariant Sample.tree Sample.reachable
  refine ⟨Sample.reachable, hwell, hvalid, Bool.eq_false_iff.2 fun h => ?_⟩
  exact absurd (hempty.1 h) (by decide)

end PathTree

namespace Sample

def rules : List Directive :=
  [⟨.included, .directory, "Music/Jazz"⟩, ⟨.excluded, .contents, "Music"⟩,
    ⟨.included, .directory, "Music"⟩, ⟨.excluded, .exact, "Photos"⟩]

theorem directives_tree : tree.directives = .ok rules := by decide +kernel

end Sample
end SelectiveSync
