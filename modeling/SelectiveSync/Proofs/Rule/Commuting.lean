import Mathlib.Data.List.Find
import SelectiveSync.Proofs.Rule.Meaning
import SelectiveSync.Proofs.Tree.Frame

/-! # Requests on paths apart

Whether a request is granted depends on what is at its path and beneath it and on the decisions on
the way to it. A request on a path apart changes none of these, so two such requests can be made in
either order.

* `PathTree.outcome`: how a request ends, leaving aside which tree it leaves.
* `PathTree.Agrees`: two trees with the same nodes, decisions and rulings that transfer the same
  entries. `agrees_of_decisionAt`: the decisions alone tell.
* `attempts_commute`: requests on paths apart end alike in either order and leave trees that
  agree. -/
namespace SelectiveSync
set_option autoImplicit false

namespace PathTree
open Directive

/-! ## Trees with the same decisions -/

/-- The trees have the same nodes, decisions and rulings and transfer the same entries. Only the
order of siblings may be different. -/
structure Agrees (t u : PathTree) : Prop where
  nodes : ∀ p, (t.get? p).map Node.decision = (u.get? p).map Node.decision
  marks : t.marks.Perm u.marks
  ruling : ∀ p, t.ruling p = u.ruling p
  transfers : ∃ rules rules', t.directives = .ok rules ∧ u.directives = .ok rules' ∧
    ∀ kind p, Transfers (rules ++ [ambient]) kind p ↔ Transfers (rules' ++ [ambient]) kind p

theorem ruling_congr {t u : PathTree} {p : TreePath}
    (h : ∀ q ∈ p.way, t.decisionAt q = u.decisionAt q) : t.ruling p = u.ruling p := by
  have hfind (d : Decision) (l : List TreePath) (hl : l ⊆ p.way) :
      l.find? (fun q => t.decisionAt q = d) = l.find? fun q => u.decisionAt q = d := by
    apply List.find?_congr
    intro q hq
    rw [h q (hl hq)]
  have hreverse : p.way.reverse ⊆ p.way := fun q hq => List.mem_reverse.1 hq
  rw [ruling_eq, ruling_eq, hfind .included p.way (List.Subset.refl _), hfind .evicted _ hreverse]

section
variable {t u : PathTree} (ht : t.top.WellFormed) (hu : u.top.WellFormed)
  (h : ∀ p, t.decisionAt p = u.decisionAt p)
include ht hu h

theorem top_decisionAt_eq (p : List String) : t.top.decisionAt p = u.top.decisionAt p := by
  by_cases hp : ∃ q : TreePath, q.segments = p
  · obtain ⟨q, rfl⟩ := hp
    exact h q
  · have hnone {v : PathTree} (hv : v.top.WellFormed) : v.top.decisionAt p = .undecided := by
      by_contra hd
      exact hp (hv.exists_path hd)
    rw [hnone ht, hnone hu]

theorem agrees_of_decisionAt : t.Agrees u where
  nodes := fun p => Forest.map_decision_get? ht hu (top_decisionAt_eq ht hu h) p.segments
  marks := by
    have hledger : t.ledger.Perm u.ledger := by
      apply perm_ledger ht (isMap_ledger hu).nodup.of_map
      intro q c
      rw [mem_ledger hu, h]
    rw [marks_eq_ledger ht, marks_eq_ledger hu]
    exact hledger.map _
  ruling := fun p => ruling_congr fun q _ => h q
  transfers := by
    refine ⟨_, _, directives_eq_ok ht, directives_eq_ok hu, fun kind p => ?_⟩
    rw [transfers_iff_takes ht, transfers_iff_takes hu]
    simp only [Forest.Takes, top_decisionAt_eq ht hu h]

end

/-! ## How a request ends -/

/-- How a request ends: granted, or refused for a reason. -/
def outcome (t : PathTree) (d : Decision) (p : TreePath) : Except Error Unit :=
  (t.decide d p).map fun _ => ()

/-- Only the node at a path and the ruling on it bear on how a request on it ends. -/
theorem outcome_congr {t u : PathTree} {p : TreePath} (hnode : t.get? p = u.get? p)
    (hruling : t.ruling p = u.ruling p) (d : Decision) : t.outcome d p = u.outcome d p := by
  cases d with
  | included =>
    simp only [outcome, decide, markIncluded, hruling]
    cases u.ruling p <;> rfl
  | evicted =>
    have hbeneath : t.includedBeneath p = u.includedBeneath p := by
      rw [includedBeneath, includedBeneath, hnode]
    simp only [outcome, decide, markEvicted, hbeneath, hruling]
    cases u.includedBeneath p with
    | cons first rest => rfl
    | nil =>
      cases u.ruling p with
      | included outer => by_cases houter : outer = p <;> simp [houter, Except.map]
      | evicted outer => rfl
      | ambient => rfl
  | undecided =>
    simp only [outcome, decide, unmark, hnode]
    cases u.get? p with
    | none => rfl
    | some n => by_cases hn : n.decision = .undecided <;> simp [hn, Except.map]

/-! ## Two requests -/

section
variable {t : PathTree} (ht : t.top.WellFormed)
include ht

theorem decisionAt_attempt (d : Decision) (p q : TreePath) :
    (t.attempt d p).decisionAt q =
      match t.outcome d p with
      | .ok () =>
        if q = p then d else if d ≠ .undecided ∧ p.IsAncestorOf q then .undecided
        else t.decisionAt q
      | .error _ => t.decisionAt q := by
  rw [attempt, outcome]
  cases hu : t.decide d p with
  | ok u => exact decisionAt_decide ht hu q
  | error e => rfl

theorem outcome_attempt {p q : TreePath} (hpq : p.Apart q) (d e : Decision) :
    (t.attempt e q).outcome d p = t.outcome d p := by
  rw [attempt]
  cases hu : t.decide e q with
  | error fault => rfl
  | ok u =>
    refine outcome_congr (get?_decide ht hu hpq.symm) (ruling_congr fun r hr => ?_) d
    -- what is on the way to `p` is not at or beneath `q`
    have hr := TreePath.mem_way.1 hr
    have hqp := (TreePath.apart_iff.1 hpq).2
    have hne : r ≠ q := by
      rintro rfl
      exact hqp hr
    have hanc : ¬ q.IsAncestorOf r := fun hanc => hqp (hanc.2.trans hr)
    rw [decisionAt_decide ht hu, if_neg hne, if_neg fun hand => hanc hand.2]

theorem decisionAt_attempts {p q : TreePath} (hpq : p.Apart q) (d e : Decision) (r : TreePath) :
    ((t.attempt d p).attempt e q).decisionAt r = ((t.attempt e q).attempt d p).decisionAt r := by
  have hp := wellFormed_attempt ht d p
  have hq := wellFormed_attempt ht e q
  rw [decisionAt_attempt hp, decisionAt_attempt ht, decisionAt_attempt hq, decisionAt_attempt ht,
    outcome_attempt ht hpq, outcome_attempt ht hpq.symm]
  cases t.outcome d p with
  | error fault => rfl
  | ok _ =>
    cases t.outcome e q with
    | error fault => rfl
    | ok _ =>
      simp only
      by_cases hrp : r = p
      · subst hrp
        simp [hpq.1, hpq.2.2]
      · by_cases hrq : r = q
        · subst hrq
          simp [hpq.1.symm, hpq.2.1]
        · simp only [if_neg hrp, if_neg hrq]
          split <;> split <;> rfl

end

/-- Two requests on paths of which neither is the other or leads to it end alike in either order,
granted or refused for the same reason, and leave trees that agree on all but the order of
siblings. -/
theorem attempts_commute (t : PathTree) (d e : Decision) (p q : TreePath) (h : t.Reachable)
    (hpq : p.Apart q) :
    (t.attempt e q).outcome d p = t.outcome d p ∧ (t.attempt d p).outcome e q = t.outcome e q ∧
      ((t.attempt d p).attempt e q).Agrees ((t.attempt e q).attempt d p) := by
  have ht := h.wellFormed
  have hp := wellFormed_attempt (wellFormed_attempt ht d p) e q
  have hq := wellFormed_attempt (wellFormed_attempt ht e q) d p
  exact ⟨outcome_attempt ht hpq d e, outcome_attempt ht hpq.symm e d,
    agrees_of_decisionAt hp hq (decisionAt_attempts ht hpq d e)⟩

theorem attempts_commute_sample :
    Sample.tree.Reachable ∧ Sample.live.Apart Sample.blues ∧
      (Sample.tree.attempt .included Sample.blues).outcome .included Sample.live = .ok () ∧
      ((Sample.tree.attempt .included Sample.live).attempt .included Sample.blues).Agrees
        ((Sample.tree.attempt .included Sample.blues).attempt .included Sample.live) ∧
      (Sample.tree.attempt .included Sample.live).attempt .included Sample.blues ≠
        (Sample.tree.attempt .included Sample.blues).attempt .included Sample.live := by
  have hapart : Sample.live.Apart Sample.blues := by
    rw [TreePath.Apart]
    decide
  obtain ⟨hlive, -, hagrees⟩ := attempts_commute Sample.tree .included .included Sample.live
    Sample.blues Sample.reachable hapart
  have hgranted : Sample.tree.outcome .included Sample.live = .ok () := by decide
  exact ⟨Sample.reachable, hapart, hlive.trans hgranted, hagrees, by decide⟩

end PathTree
end SelectiveSync
