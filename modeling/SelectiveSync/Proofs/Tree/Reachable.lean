import SelectiveSync.Proofs.Tree.Ruling

/-! # The trees that operations make

* `Reachable`: a tree begun empty or from stored decisions, after any requests, the refused ones
  included.
* `markIncluded_eq_ok`, `markEvicted_eq_ok`, `unmark_eq_ok` and `addMark_eq_ok` say all that an
  operation that succeeds checks and does; nothing after them opens an operation.
* `decisionAt_settle`, `decisionAt_mark` and `decisionAt_clear`: which decisions a change leaves.
* `Reachable.wellFormed`: reachable trees are well-formed.
* `Sample.tree` is a small one with an inclusion inside an eviction. -/
namespace SelectiveSync
set_option autoImplicit false

namespace PathTree

/-! ## Runs -/

/-- The tree after a request for the decision `d` on `p`, which is the same tree if the request is
refused. -/
def attempt (t : PathTree) (d : Decision) (p : TreePath) : PathTree :=
  match t.decide d p with
  | .ok u => u
  | .error _ => t

/-- The trees begun empty or put together from stored decisions, after any number of requests. -/
inductive Reachable : PathTree → Prop where
  | empty : Reachable {}
  | stored (marks : List Mark) (t : PathTree) (h : ofMarks marks = .ok t) : Reachable t
  | attempt (t : PathTree) (d : Decision) (p : TreePath) (h : Reachable t) :
      Reachable (t.attempt d p)

/-! ## What an operation that succeeds does -/

theorem decisionAt_eq (t : PathTree) (p : TreePath) :
    t.decisionAt p = ((t.get? p).map Node.decision).getD .undecided := rfl

/-- The nodes right beneath a path. -/
def belowAt (t : PathTree) (p : TreePath) : Forest :=
  t.top.belowAt p.segments

theorem belowAt_eq (t : PathTree) (p : TreePath) :
    t.belowAt p = ((t.get? p).map Node.below).getD .empty := rfl

theorem markIncluded_eq_ok {t u : PathTree} {p : TreePath} :
    t.markIncluded p = .ok u ↔
      (∀ q, t.ruling p ≠ .included q) ∧ u = ⟨t.top.settle .included p.segments⟩ := by
  rw [markIncluded]
  cases t.ruling p <;> simp [eq_comm]

theorem markEvicted_eq_ok {t u : PathTree} {p : TreePath} :
    t.markEvicted p = .ok u ↔
      t.includedBeneath p = [] ∧ (∀ q, t.ruling p = .included q → q = p) ∧
        (∀ q, t.ruling p ≠ .evicted q) ∧ u = ⟨t.top.settle .evicted p.segments⟩ := by
  rw [markEvicted]
  cases t.includedBeneath p with
  | cons first rest => simp
  | nil =>
    cases t.ruling p with
    | included q =>
      by_cases hq : q = p
      · simp [hq, eq_comm]
      · simp [hq]
    | evicted q => simp
    | ambient => simp [eq_comm]

theorem unmark_eq_ok {t u : PathTree} {p : TreePath} :
    t.unmark p = .ok u ↔ t.decisionAt p ≠ .undecided ∧ u = ⟨t.top.clear p.segments⟩ := by
  rw [unmark, decisionAt_eq]
  cases t.get? p with
  | none => simp
  | some n => by_cases hn : n.decision = .undecided <;> simp [hn, eq_comm]

theorem addMark_eq_ok {t u : PathTree} {m : Mark} :
    t.addMark m = .ok u ↔
      ∃ p, TreePath.parse m.location = .ok p ∧ m.decision ≠ .undecided ∧
        (∀ q, t.ruling p ≠ .included q) ∧ t.decisionAt p = .undecided ∧
        (m.decision = .included → t.belowAt p = .empty) ∧
        u = ⟨t.top.mark m.decision p.segments⟩ := by
  rw [addMark]
  cases hp : TreePath.parse m.location with
  | error fault => simp
  | ok p =>
    have hdecision : ((t.get? p).getD ⟨p.name, .undecided, .empty⟩).decision = t.decisionAt p := by
      rw [decisionAt_eq]
      cases t.get? p <;> rfl
    have hbelow : ((t.get? p).getD ⟨p.name, .undecided, .empty⟩).below = t.belowAt p := by
      rw [belowAt_eq]
      cases t.get? p <;> rfl
    have hplace : (if t.decisionAt p ≠ .undecided then .error (.storedTwice m.location)
        else if m.decision = .included ∧ t.belowAt p ≠ .empty then
          .error (.marksBeneath m.location)
        else .ok ⟨t.top.mark m.decision p.segments⟩ : Except Corruption PathTree) = .ok u ↔
          t.decisionAt p = .undecided ∧ (m.decision = .included → t.belowAt p = .empty) ∧
            u = ⟨t.top.mark m.decision p.segments⟩ := by
      split
      · next hu => simp [hu]
      · next hu =>
        have hu := not_not.1 hu
        split
        · next hi => simp [hi]
        · next hi =>
          have hi : m.decision = .included → t.belowAt p = .empty := by tauto
          rw [Except.ok.injEq, eq_comm]
          tauto
    simp only [hdecision, hbelow]
    by_cases hd : m.decision = .undecided
    · simp [hd]
    rw [if_neg hd]
    cases hr : t.ruling p with
    | included q =>
      have hq := (decisionAt_of_ruling_included hr).1
      by_cases hqp : q = p
      · subst hqp
        simp [hq, hr]
      · simp [hqp, hr]
    | evicted q =>
      rw [hplace]
      simp [hd, hr]
    | ambient =>
      rw [hplace]
      simp [hd, hr]

/-! ## How changes show -/

section
variable (t : PathTree) (d : Decision) (p q : TreePath)

theorem decisionAt_settle :
    (⟨t.top.settle d p.segments⟩ : PathTree).decisionAt q =
      if q = p then d else if p.IsAncestorOf q then .undecided else t.decisionAt q := by
  rw [decisionAt, Forest.decisionAt_settle d p.segments p.ne_nil, decisionAt]
  by_cases hq : q = p
  · simp [hq]
  · have hseg : q.segments ≠ p.segments := fun hs => hq (TreePath.ext hs)
    have hanc : p.segments <+: q.segments ↔ p.IsAncestorOf q := by
      rw [TreePath.isPrefix_iff]
      simp [Ne.symm hq]
    rw [if_neg hseg, if_neg hq]
    simp only [hanc]

theorem decisionAt_mark :
    (⟨t.top.mark d p.segments⟩ : PathTree).decisionAt q = if q = p then d else t.decisionAt q := by
  rw [decisionAt, Forest.decisionAt_mark d p.segments p.ne_nil, decisionAt]
  by_cases hq : q = p
  · simp [hq]
  · rw [if_neg hq, if_neg fun hs => hq (TreePath.ext hs)]

theorem decisionAt_clear (h : t.top.WellFormed) :
    (⟨t.top.clear p.segments⟩ : PathTree).decisionAt q =
      if q = p then .undecided else t.decisionAt q := by
  rw [decisionAt, Forest.decisionAt_clear h, decisionAt]
  by_cases hq : q = p
  · simp [hq]
  · rw [if_neg hq, if_neg fun hs => hq (TreePath.ext hs)]

end

/-! ## The invariant -/

/-- The condition on inclusions above a path in the form in which forests need it. -/
theorem not_included_way {t : PathTree} (ht : t.top.WellFormed) {p : TreePath}
    (h : ∀ q, t.ruling p = .included q → q = p) (q : List String) (hq : q <+: p.segments)
    (hne : q ≠ p.segments) : t.top.decisionAt q ≠ .included := by
  by_cases hq0 : q = []
  · rw [hq0]
    simp
  · exact not_included_above ht h ⟨q, hq0, fun s hs => p.names s (hq.subset hs)⟩
      (TreePath.isAncestorOf_iff.2 ⟨hq, hne⟩)

theorem wellFormed_decide {t u : PathTree} {d : Decision} {p : TreePath} (ht : t.top.WellFormed)
    (h : t.decide d p = .ok u) : u.top.WellFormed := by
  cases d with
  | included =>
    obtain ⟨hr, rfl⟩ := markIncluded_eq_ok.1 h
    have habove := not_included_way ht fun q hq => absurd hq (hr q)
    exact ht.settle p.ne_nil p.names habove (by simp)
  | evicted =>
    obtain ⟨-, hr, -, rfl⟩ := markEvicted_eq_ok.1 h
    exact ht.settle p.ne_nil p.names (not_included_way ht hr) (by simp)
  | undecided =>
    obtain ⟨-, rfl⟩ := unmark_eq_ok.1 h
    exact ht.clear p.segments

theorem wellFormed_attempt {t : PathTree} (ht : t.top.WellFormed) (d : Decision) (p : TreePath) :
    (t.attempt d p).top.WellFormed := by
  rw [attempt]
  cases h : t.decide d p with
  | ok u => exact wellFormed_decide ht h
  | error e => exact ht

theorem wellFormed_addMark {t u : PathTree} {m : Mark} (ht : t.top.WellFormed)
    (h : t.addMark m = .ok u) : u.top.WellFormed := by
  obtain ⟨p, -, hd, hr, -, hbelow, rfl⟩ := addMark_eq_ok.1 h
  have habove := not_included_way ht fun q hq => absurd hq (hr q)
  exact ht.mark p.ne_nil p.names habove hd hbelow

theorem foldlM_addMark_cons {t u : PathTree} {m : Mark} {rest : List Mark} :
    (m :: rest).foldlM addMark t = .ok u ↔
      ∃ v, t.addMark m = .ok v ∧ rest.foldlM addMark v = .ok u := by
  rw [List.foldlM_cons]
  cases h : t.addMark m with
  | error e => simp [bind, Except.bind]
  | ok v => simp [bind, Except.bind]

theorem wellFormed_foldlM {marks : List Mark} {t u : PathTree} (ht : t.top.WellFormed)
    (h : marks.foldlM addMark t = .ok u) : u.top.WellFormed := by
  induction marks generalizing t with
  | nil =>
    cases h
    exact ht
  | cons m rest ih =>
    obtain ⟨v, hv, hrest⟩ := foldlM_addMark_cons.1 h
    exact ih (wellFormed_addMark ht hv) hrest

/-- Every tree that operations make is well-formed. -/
theorem Reachable.wellFormed {t : PathTree} (h : t.Reachable) : t.top.WellFormed := by
  induction h with
  | empty => trivial
  | stored marks t h => exact wellFormed_foldlM (t := {}) trivial h
  | attempt t d p _ ih => exact wellFormed_attempt ih d p

end PathTree

/-! ## A tree to look at -/

namespace Sample

def music : TreePath := ⟨["Music"], by simp, by decide⟩
def jazz : TreePath := ⟨["Music", "Jazz"], by simp, by decide⟩
def photos : TreePath := ⟨["Photos"], by simp, by decide⟩
def blues : TreePath := ⟨["Music", "Blues"], by simp, by decide⟩
def live : TreePath := ⟨["Music", "Rock", "Live"], by simp, by decide⟩

/-- An inclusion inside an eviction and another eviction, after a fourth request that is refused. -/
def tree : PathTree :=
  (((({} : PathTree).attempt .evicted music).attempt .included jazz).attempt .evicted
    photos).attempt .evicted music

theorem reachable : tree.Reachable :=
  .attempt _ _ _ (.attempt _ _ _ (.attempt _ _ _ (.attempt _ _ _ .empty)))

example : tree.marks =
    [⟨"Music", .evicted⟩, ⟨"Music/Jazz", .included⟩, ⟨"Photos", .evicted⟩] := by
  decide

end Sample
end SelectiveSync
