import SelectiveSync.Proofs.Tree.WellFormed
import SelectiveSync.Tree.PathTree

/-! # Which decision settles a path

* `Verdict.along` is the rule on a row of decisions: the first inclusion, or else the last eviction.
* `verdict_eq` and `ruling_eq`: the verdict of a forest and the ruling of a tree are that rule on
  the decisions along the way.
* `not_included_above`: a ruling that no other path's inclusion makes leaves nothing included
  above. -/
namespace SelectiveSync
set_option autoImplicit false

/-- The first inclusion among the first `n` decisions of `D`, or else the last eviction. -/
def Verdict.along (D : Nat → Decision) (n : Nat) : Verdict :=
  match (List.range n).find? fun i => D i = .included with
  | some i => .included i
  | none =>
    match (List.range n).reverse.find? fun i => D i = .evicted with
    | some i => .evicted i
    | none => .ambient

theorem Verdict.along_undecided (n : Nat) : along (fun _ => .undecided) n = .ambient := by
  have hnone (l : List Nat) (d : Decision) (hd : Decision.undecided ≠ d) :
      l.find? (fun _ => Decision.undecided = d) = none := by
    rw [List.find?_eq_none]
    simp [hd]
  rw [along, hnone _ _ (by simp), hnone _ _ (by simp)]

/-- A step before all others comes on top of the verdict of the others. -/
theorem Verdict.along_succ (D : Nat → Decision) (n : Nat) :
    along D (n + 1) = (along (fun i => D (i + 1)) n).under (D 0) := by
  have hfirst : (List.range (n + 1)).find? (fun i => D i = .included) =
      if D 0 = .included then some 0
      else ((List.range n).find? fun i => D (i + 1) = .included).map (· + 1) := by
    rw [List.range_succ_eq_map, List.find?_cons, List.find?_map]
    by_cases h : D 0 = .included
    · simp [h]
    · simp only [h, decide_false, if_false]
      rfl
  have hlast : (List.range (n + 1)).reverse.find? (fun i => D i = .evicted) =
      (((List.range n).reverse.find? fun i => D (i + 1) = .evicted).map (· + 1)).or
        (if D 0 = .evicted then some 0 else none) := by
    rw [List.range_succ_eq_map, List.reverse_cons, ← List.map_reverse, List.find?_append,
      List.find?_map]
    by_cases h : D 0 = .evicted
    · simp only [h, List.find?_singleton, decide_true, if_true]
      rfl
    · simp only [h, List.find?_singleton, decide_false, Bool.false_eq_true, if_false]
      rfl
  simp only [along]
  rw [hfirst, hlast]
  generalize (List.range n).find? (fun i => D (i + 1) = .included) = first
  generalize (List.range n).reverse.find? (fun i => D (i + 1) = .evicted) = last
  cases hd : D 0 <;> cases first <;> cases last <;> rfl

namespace Forest

theorem verdict_eq (p : List String) (f : Forest) :
    f.verdict p = Verdict.along (fun i => f.decisionAt (p.take (i + 1))) p.length := by
  induction p generalizing f with
  | nil => rfl
  | cons s p ih =>
    rw [List.length_cons, Verdict.along_succ, verdict]
    cases hf : f.find? s with
    | none =>
      have hs := find?_eq_none.1 hf
      have hD : (fun i => f.decisionAt ((s :: p).take (i + 1 + 1))) = fun _ => .undecided := by
        funext i
        rw [List.take_succ_cons, decisionAt_of_not_mem hs]
      rw [hD, List.take_succ_cons, decisionAt_of_not_mem hs, Verdict.along_undecided]
      rfl
    | some n =>
      have hone : f.decisionAt ((s :: p).take (0 + 1)) = n.decision := by
        simp [decisionAt, get?, hf]
      have hbelow : f.belowAt [s] = n.below := by
        simp [belowAt, get?, hf]
      have hD : Verdict.along (fun i => f.decisionAt ((s :: p).take (i + 1 + 1))) p.length =
          Verdict.along (fun i => n.below.decisionAt (p.take (i + 1))) p.length := by
        cases p with
        | nil => rfl
        | cons t rest =>
          congr 1
          funext i
          rw [List.take_succ_cons, decisionAt_cons s _ (by simp), hbelow]
      rw [hone, hD, ← ih]

end Forest

namespace PathTree

/-- The decision on a path. -/
def decisionAt (t : PathTree) (p : TreePath) : Decision :=
  t.top.decisionAt p.segments

/-- The ruling on a path is that of the first inclusion on the way to it, or else that of the last
eviction. -/
theorem ruling_eq (t : PathTree) (p : TreePath) :
    t.ruling p =
      match p.way.find? fun q => t.decisionAt q = .included with
      | some q => .included q
      | none =>
        match p.way.reverse.find? fun q => t.decisionAt q = .evicted with
        | some q => .evicted q
        | none => .ambient := by
  have hway (d : Decision) : (fun q => Decidable.decide (t.decisionAt q = d)) ∘ p.upTo =
      fun i => Decidable.decide (t.top.decisionAt (p.segments.take (i + 1)) = d) := rfl
  rw [ruling, Forest.verdict_eq, Verdict.along, TreePath.way, ← List.map_reverse, List.find?_map,
    List.find?_map, hway, hway, TreePath.depth]
  generalize (List.range p.segments.length).find? _ = first
  generalize (List.range p.segments.length).reverse.find? _ = last
  cases first <;> cases last <;> rfl

theorem decisionAt_of_ruling_included {t : PathTree} {p q : TreePath}
    (h : t.ruling p = .included q) : t.decisionAt q = .included ∧ q.segments <+: p.segments := by
  rw [ruling_eq] at h
  split at h
  · next r hr =>
    cases h
    exact ⟨by simpa using List.find?_some hr, TreePath.mem_way.1 (List.mem_of_find?_eq_some hr)⟩
  · split at h <;> cases h

/-- An inclusion on the way to a path rules it. -/
theorem exists_ruling_included {t : PathTree} {p q : TreePath} (hq : t.decisionAt q = .included)
    (hpre : q.segments <+: p.segments) : ∃ r, t.ruling p = .included r := by
  rw [ruling_eq]
  split
  · next r _ => exact ⟨r, rfl⟩
  · next h =>
    have hne := List.find?_eq_none.1 h q (TreePath.mem_way.2 hpre)
    simp [hq] at hne

/-- Where no inclusion but one of the path itself rules, nothing above the path is included. -/
theorem not_included_above {t : PathTree} (ht : t.top.WellFormed) {p : TreePath}
    (h : ∀ q, t.ruling p = .included q → q = p) (q : TreePath) (hq : q.IsAncestorOf p) :
    t.decisionAt q ≠ .included := by
  intro hinc
  obtain ⟨r, hr⟩ := exists_ruling_included hinc hq.2
  have hrp := h r hr
  subst hrp
  have hne : q.segments ≠ r.segments := fun heq => by
    have := hq.1
    rw [heq] at this
    omega
  have hund := ht.decisionAt_beneath hinc hq.2 hne
  have hdec := (decisionAt_of_ruling_included hr).1
  rw [decisionAt, hund] at hdec
  cases hdec

end PathTree
end SelectiveSync
