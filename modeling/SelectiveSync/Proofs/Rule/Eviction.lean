import SelectiveSync.Proofs.Rule.Edits
import SelectiveSync.Target.Basic

/-! # What an eviction leaves out

* `not_included_line`: after an eviction nothing is included at its path, above it or beneath it.
* `ruling_evicted`: so it rules everything at its path and beneath.
* `not_transfers_evicted`: and none of that is transferred. -/
namespace SelectiveSync
set_option autoImplicit false

namespace TreePath

/-- The way to a path leads past every path that encloses it, and only paths beneath that one come
after it. -/
theorem exists_way_past {p q : TreePath} (h : p.segments <+: q.segments) :
    ∃ before after, q.way = before ++ p :: after ∧ ∀ r ∈ after, p.IsAncestorOf r := by
  have hpos := p.segments_length_pos
  obtain ⟨m, hm⟩ := Nat.exists_eq_add_of_le h.length_le
  obtain ⟨i, hi⟩ := Nat.exists_eq_add_of_lt hpos
  have hdepth : q.depth = i + 1 + m := by
    simp only [depth]
    omega
  have hp : q.upTo i = p := by
    rw [eq_upTo_of_isPrefix h]
    congr 1
    simp only [depth]
    omega
  refine ⟨(List.range i).map q.upTo, ((List.range m).map (i + 1 + ·)).map q.upTo, ?_, ?_⟩
  · rw [way, hdepth, List.range_add, List.range_succ, List.map_append, List.map_append,
      List.map_singleton, hp, List.append_assoc, List.singleton_append]
  · intro r hr
    obtain ⟨j, hj, rfl⟩ := List.mem_map.1 hr
    obtain ⟨n, hn, rfl⟩ := List.mem_map.1 hj
    have hn := List.mem_range.1 hn
    refine ⟨?_, ?_⟩
    · rw [segments_upTo, List.length_take]
      omega
    · rw [segments_upTo, ← hp, segments_upTo]
      exact List.take_prefix_take_left (by omega)

end TreePath

namespace PathTree
open Directive

section
variable {t u : PathTree} {p q : TreePath} (ht : t.top.WellFormed)
  (h : t.decide .evicted p = .ok u)
include ht h

theorem not_included_line (hline : q ∈ p.line) : u.decisionAt q ≠ .included := by
  intro hq
  have hmem : q ∈ u.inclusions := hq
  rw [inclusions_erased ht (by simp) h] at hmem
  obtain ⟨hq, hne⟩ := hmem
  obtain ⟨hbeneath, habove, -, -⟩ := markEvicted_eq_ok.1 h
  rcases hline with rfl | hanc | hanc
  · exact hne rfl
  · exact not_included_of_includedBeneath ht hbeneath hanc hq
  · exact not_included_above ht habove q hanc hq

/-- An eviction rules its path and everything beneath. -/
theorem ruling_evicted (hpq : p.segments <+: q.segments) : u.ruling q = .evicted p := by
  obtain ⟨-, -, -, hu⟩ := markEvicted_eq_ok.1 h
  have hfirst : q.way.find? (fun r => u.decisionAt r = .included) = none := by
    refine List.find?_eq_none.2 fun r hr => ?_
    have hline : r ∈ p.line :=
      TreePath.mem_line_of_isPrefix hpq (TreePath.mem_way.1 hr)
    simpa using not_included_line ht h hline
  have hlast : q.way.reverse.find? (fun r => u.decisionAt r = .evicted) = some p := by
    obtain ⟨before, after, hway, hafter⟩ := TreePath.exists_way_past hpq
    have hbeneath : after.reverse.find? (fun r => u.decisionAt r = .evicted) = none := by
      refine List.find?_eq_none.2 fun r hr => ?_
      have hanc := hafter r (List.mem_reverse.1 hr)
      rw [hu, decisionAt_settle, if_neg hanc.ne.symm, if_pos hanc]
      simp
    have hself : u.decisionAt p = .evicted := by
      rw [hu, decisionAt_settle, if_pos rfl]
    rw [hway, List.reverse_append, List.reverse_cons, List.append_assoc, List.find?_append, hbeneath,
      Option.none_or, List.singleton_append, List.find?_cons_of_pos (by simp [hself])]
  rw [ruling_eq, hfirst, hlast]

/-- Nothing at the path of an eviction or beneath is transferred. -/
theorem not_transfers_evicted (hpq : p.segments <+: q.segments) (kind : Kind) :
    ¬ Transfers (u.top.rules "" ++ [ambient]) kind q := by
  have hu := wellFormed_decide ht h
  rw [transfers_iff_takes hu]
  have hnone (l : List String) (hl : u.top.decisionAt l = .included)
      (hline : l <+: q.segments ∨ q.segments <+: l) : False := by
    obtain ⟨r, rfl⟩ := hu.exists_path (l := l) (by simp [hl])
    refine not_included_line ht h (q := r) ?_ hl
    rcases hline with hr | hr
    · exact TreePath.mem_line_of_isPrefix hpq hr
    · exact TreePath.mem_line.2 (Or.inl (hpq.trans hr))
  cases kind with
  | directory =>
    rintro ⟨l, hl, hline⟩
    exact hnone l hl hline
  | file =>
    rintro ⟨l, hl, hline, -⟩
    exact hnone l hl (Or.inl hline)

end

end PathTree
end SelectiveSync
