import Mathlib.Order.BooleanAlgebra.Set
import SelectiveSync.Proofs.Rule.Meaning

/-! # What one decision does to a transfer

The directories that a tree transfers are those in line with an inclusion: the included one, those
beneath it and those on the way to it. A request that is granted changes the set of inclusions at
one path, and from that follows what it changes about the transfer.

* `inLine_insert` and `inLine_erase`: paths in line with a set of inclusions before and after one is
  added or taken away.
* `inclusions_markIncluded` and `inclusions_erased`: what a granted request does to the inclusions.
* `transferred_decide`: what it does to the directories that are transferred. -/
namespace SelectiveSync
set_option autoImplicit false

namespace TreePath

/-- A path, everything beneath it and everything on the way to it. -/
def line (p : TreePath) : Set TreePath :=
  {q | q = p ∨ p.IsAncestorOf q ∨ q.IsAncestorOf p}

/-- The paths in line with one of a set. -/
def inLine (I : Set TreePath) : Set TreePath :=
  {q | ∃ r ∈ I, q ∈ r.line}

/-- A path of a set, everything beneath it and what is on the way to it and to no other of the
set. -/
def ownLine (I : Set TreePath) (p : TreePath) : Set TreePath :=
  {q | q = p ∨ p.IsAncestorOf q ∨ q.IsAncestorOf p ∧ ∀ r ∈ I, q.IsAncestorOf r → r = p}

theorem mem_line {p q : TreePath} :
    q ∈ p.line ↔ p.segments <+: q.segments ∨ q.segments <+: p.segments := by
  rw [isPrefix_iff, isPrefix_iff, line, Set.mem_ofPred_eq, @eq_comm _ p q]
  tauto

theorem mem_line_comm {p q : TreePath} : q ∈ p.line ↔ p ∈ q.line := by
  rw [mem_line, mem_line]
  exact or_comm

theorem mem_line_of_isPrefix {p q r : TreePath} (hp : p.segments <+: r.segments)
    (hq : q.segments <+: r.segments) : q ∈ p.line :=
  mem_line.2 (List.prefix_or_prefix_of_prefix hp hq)

/-- What is in line with a path beneath another one is beneath that one as well or in line with
it. -/
theorem mem_line_of_isAncestorOf {p q r : TreePath} (hpr : p.IsAncestorOf r) (hq : q ∈ r.line) :
    q ∈ p.line := by
  rcases mem_line.1 hq with h | h
  · exact mem_line.2 (Or.inl (hpr.2.trans h))
  · exact mem_line_of_isPrefix hpr.2 h

/-- A path in place of those beneath it brings in what is in line with it and loses nothing. -/
theorem inLine_insert (I : Set TreePath) (p : TreePath) :
    inLine (insert p {r ∈ I | ¬ p.IsAncestorOf r}) = inLine I ∪ p.line := by
  ext q
  constructor
  · rintro ⟨r, rfl | hr, hq⟩
    · exact Or.inr hq
    · exact Or.inl ⟨r, hr.1, hq⟩
  · rintro (⟨r, hr, hq⟩ | hq)
    · by_cases hpr : p.IsAncestorOf r
      · exact ⟨p, Or.inl rfl, mem_line_of_isAncestorOf hpr hq⟩
      · exact ⟨r, Or.inr ⟨hr, hpr⟩, hq⟩
    · exact ⟨p, Or.inl rfl, hq⟩

theorem ownLine_subset {I : Set TreePath} {p : TreePath} (hp : p ∈ I) : ownLine I p ⊆ inLine I := by
  rintro q (rfl | hbeneath | ⟨habove, -⟩)
  · exact ⟨q, hp, Or.inl rfl⟩
  · exact ⟨p, hp, Or.inr (Or.inl hbeneath)⟩
  · exact ⟨p, hp, Or.inr (Or.inr habove)⟩

/-- Without a path that is in line with no other of the set, just what it alone brings in is
lost. -/
theorem inLine_erase {I : Set TreePath} {p : TreePath} (hp : p ∈ I)
    (halone : ∀ r ∈ I, r ∈ p.line → r = p) : inLine (I \ {p}) = inLine I \ ownLine I p := by
  ext q
  constructor
  · rintro ⟨r, ⟨hr, hrp⟩, hq⟩
    have hoff : r ∉ p.line := fun hline => hrp (halone r hr hline)
    refine ⟨⟨r, hr, hq⟩, ?_⟩
    rintro (rfl | hbeneath | ⟨habove, honly⟩)
    · exact hoff (mem_line_comm.1 hq)
    · exact hoff (mem_line_of_isAncestorOf hbeneath (mem_line_comm.1 hq))
    · -- an inclusion above a path on the way to `p` would be above `p` too
      rcases hq with rfl | hrq | hqr
      · exact hoff (Or.inr (Or.inr habove))
      · exact hoff (mem_line.2 (Or.inr (hrq.2.trans habove.2)))
      · exact hrp (honly r hr hqr)
  · rintro ⟨⟨r, hr, hq⟩, hkept⟩
    by_cases hrp : r = p
    · subst hrp
      rcases hq with rfl | hbeneath | habove
      · exact absurd (Or.inl rfl) hkept
      · exact absurd (Or.inr (Or.inl hbeneath)) hkept
      · obtain ⟨s, hs, hqs, hsr⟩ : ∃ s ∈ I, q.IsAncestorOf s ∧ s ≠ r := by
          by_contra hnone
          refine hkept (Or.inr (Or.inr ⟨habove, fun s hs hqs => ?_⟩))
          by_contra hsr
          exact hnone ⟨s, hs, hqs, hsr⟩
        exact ⟨s, ⟨hs, hsr⟩, Or.inr (Or.inr hqs)⟩
    · exact ⟨r, ⟨hr, hrp⟩, hq⟩

end TreePath

namespace PathTree
open Directive TreePath

/-! ## Directories that are transferred -/

/-- The directories that a list of directives lets a transfer reach, everything else at the root
being left out. -/
def transferred (rules : List Directive) : Set TreePath :=
  {p | Transfers (rules ++ [ambient]) .directory p}

def inclusions (t : PathTree) : Set TreePath :=
  {p | t.decisionAt p = .included}

theorem transferred_rules {t : PathTree} (h : t.top.WellFormed) :
    transferred (t.top.rules "") = inLine t.inclusions := by
  ext p
  rw [transferred, Set.mem_ofPred_eq, transfers_iff_takes h, Forest.Takes]
  constructor
  · rintro ⟨q, hq, hrelated⟩
    obtain ⟨r, rfl⟩ := h.exists_path (l := q) (by simp [hq])
    exact ⟨r, hq, mem_line.2 hrelated⟩
  · rintro ⟨q, hq, hline⟩
    exact ⟨q.segments, hq, mem_line.1 hline⟩

/-! ## Inclusions after a request -/

theorem inclusions_markIncluded {t u : PathTree} {p : TreePath} (h : t.markIncluded p = .ok u) :
    u.inclusions = insert p {r ∈ t.inclusions | ¬ p.IsAncestorOf r} := by
  obtain ⟨-, rfl⟩ := markIncluded_eq_ok.1 h
  ext r
  simp only [inclusions, Set.mem_ofPred_eq, Set.mem_insert_iff, decisionAt_settle]
  by_cases hr : r = p
  · simp [hr]
  · by_cases hanc : p.IsAncestorOf r <;> simp [hr, hanc]

theorem not_included_of_includedBeneath {t : PathTree} (ht : t.top.WellFormed) {p q : TreePath}
    (h : t.includedBeneath p = []) (hpq : p.IsAncestorOf q) : t.decisionAt q ≠ .included := by
  rw [includedBeneath_eq ht, List.map_eq_nil_iff, Ledger.includedBeneath, List.map_eq_nil_iff,
    List.filter_eq_nil_iff] at h
  intro hq
  have hmem : (q, .included) ∈ t.ledger := (mem_ledger ht).2 ⟨by simp, hq⟩
  simpa [hpq] using h _ hmem

/-- A request for anything but an inclusion takes the inclusion of its own path away, if there is
one, and touches no other. -/
theorem inclusions_erased {t u : PathTree} {d : Decision} {p : TreePath} (ht : t.top.WellFormed)
    (hd : d ≠ .included) (h : t.decide d p = .ok u) : u.inclusions = t.inclusions \ {p} := by
  ext r
  rw [Set.mem_sdiff, Set.mem_singleton_iff]
  cases d with
  | included => exact absurd rfl hd
  | evicted =>
    obtain ⟨hbeneath, -, -, rfl⟩ := markEvicted_eq_ok.1 h
    have hnone : p.IsAncestorOf r → t.decisionAt r ≠ .included :=
      not_included_of_includedBeneath ht hbeneath
    simp only [inclusions, Set.mem_ofPred_eq, decisionAt_settle]
    by_cases hr : r = p
    · simp [hr]
    · by_cases hanc : p.IsAncestorOf r
      · simp [hr, hanc, hnone hanc]
      · simp [hr, hanc]
  | undecided =>
    obtain ⟨-, rfl⟩ := unmark_eq_ok.1 h
    simp only [inclusions, Set.mem_ofPred_eq, decisionAt_clear t p r ht]
    by_cases hr : r = p <;> simp [hr]

theorem inclusion_alone {t : PathTree} (ht : t.top.WellFormed) {p : TreePath}
    (hp : p ∈ t.inclusions) (r : TreePath) (hr : r ∈ t.inclusions) (hline : r ∈ p.line) :
    r = p := by
  have hnone {a b : TreePath} (ha : a ∈ t.inclusions) (hb : b ∈ t.inclusions) :
      ¬ a.IsAncestorOf b := by
    intro hab
    have hund := ht.decisionAt_beneath ha hab.2 (isAncestorOf_iff.1 hab).2
    rw [inclusions, Set.mem_ofPred_eq, decisionAt, hund] at hb
    cases hb
  rcases hline with rfl | hbeneath | habove
  · rfl
  · exact absurd hbeneath (hnone hp hr)
  · exact absurd habove (hnone hr hp)

/-! ## Transfers after a request -/

/-- What a granted request changes about the directories that are transferred. An inclusion adds its
path, everything beneath it and everything on the way to it, and takes nothing away. An eviction or
a revocation takes away, if the path was included, the path, everything beneath it and what is on
the way to no other inclusion, all of which was transferred before, and otherwise nothing. -/
theorem transferred_decide (t u : PathTree) (d : Decision) (p : TreePath) (h : t.Reachable)
    (hu : t.decide d p = .ok u) :
    ∃ rules rules', t.directives = .ok rules ∧ u.directives = .ok rules' ∧
      (d = .included → transferred rules' = transferred rules ∪ p.line) ∧
      (d ≠ .included → p ∉ t.inclusions → transferred rules' = transferred rules) ∧
      (d ≠ .included → p ∈ t.inclusions → ownLine t.inclusions p ⊆ transferred rules ∧
        transferred rules' = transferred rules \ ownLine t.inclusions p) := by
  have ht := h.wellFormed
  have hu' := wellFormed_decide ht hu
  refine ⟨_, _, directives_eq_ok ht, directives_eq_ok hu', ?_⟩
  rw [transferred_rules ht, transferred_rules hu']
  refine ⟨?_, fun hd hp => ?_, fun hd hp => ⟨ownLine_subset hp, ?_⟩⟩
  · rintro rfl
    rw [inclusions_markIncluded hu, inLine_insert]
  · rw [inclusions_erased ht hd hu, Set.sdiff_singleton_eq_self hp]
  · rw [inclusions_erased ht hd hu, inLine_erase hp (inclusion_alone ht hp)]

theorem transferred_decide_sample :
    Sample.tree.Reachable ∧ ∃ u rules rules', Sample.tree.decide .undecided Sample.jazz = .ok u ∧
      Sample.tree.directives = .ok rules ∧ u.directives = .ok rules' ∧
      Sample.music ∈ transferred rules ∧ Sample.music ∉ transferred rules' := by
  have hu : Sample.tree.decide .undecided Sample.jazz =
      .ok ⟨.node "Music" .evicted .empty (.node "Photos" .evicted .empty .empty)⟩ := by
    decide +kernel
  obtain ⟨rules, rules', hrules, hrules', -, -, herased⟩ :=
    transferred_decide Sample.tree _ .undecided Sample.jazz Sample.reachable hu
  have hjazz : Sample.tree.decisionAt Sample.jazz = .included := by decide
  obtain ⟨hlost, heq⟩ := herased (by simp) hjazz
  -- nothing else is included, so that the way to `Music/Jazz` leads to it alone
  have hmusic : Sample.music ∈ ownLine Sample.tree.inclusions Sample.jazz := by
    refine Or.inr (Or.inr ⟨by decide, fun r hr _ => ?_⟩)
    have hmem := (mem_ledger Sample.reachable.wellFormed).2 ⟨by simp, hr⟩
    have hledger : Sample.tree.ledger =
        [(Sample.music, .evicted), (Sample.jazz, .included), (Sample.photos, .evicted)] := by
      decide +kernel
    simpa [hledger] using hmem
  refine ⟨Sample.reachable, _, rules, rules', hu, hrules, hrules', hlost hmusic, ?_⟩
  rw [heq]
  exact fun hkept => hkept.2 hmusic

end PathTree
end SelectiveSync
