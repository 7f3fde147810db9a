import Mathlib.Data.List.Nodup
import SelectiveSync.Proofs.Tree.WellFormed

/-! # What the listings of a forest hold

* `mem_marks`: the marks are exactly the decisions of a well-formed forest, and `nodup_marks`: each
  path is listed once.
* `marks_beneath`: the marks beneath a path, in their order, are the marks of the forest below it.
* `included_eq`: the outermost inclusions are all inclusions, as nothing is below one. -/
namespace SelectiveSync
set_option autoImplicit false

namespace Forest

/-- A listed node as it is listed one row further up. -/
def beneath (n : String) (m : List String × Decision) : List String × Decision :=
  (n :: m.1, m.2)

theorem nodes_eq_map (base : List String) (f : Forest) :
    f.nodes base = (f.nodes []).map fun m => (base ++ m.1, m.2) := by
  induction f generalizing base with
  | empty => rfl
  | node n d below beside ihb ihs =>
    rw [nodes, nodes, ihb (base ++ [n]), ihs base, ihb ([] ++ [n])]
    simp

theorem nodes_node (n : String) (d : Decision) (below beside : Forest) :
    (node n d below beside).nodes [] =
      ([n], d) :: (below.nodes []).map (beneath n) ++ beside.nodes [] := by
  rw [nodes, nodes_eq_map ([] ++ [n])]
  rfl

@[simp] theorem marks_empty : Forest.empty.marks = [] := rfl

theorem marks_node (n : String) (d : Decision) (below beside : Forest) :
    (node n d below beside).marks =
      (if d = .undecided then [] else [([n], d)]) ++ below.marks.map (beneath n) ++ beside.marks := by
  have hmap : ((below.nodes []).map (beneath n)).filter (fun m => m.2 ≠ .undecided) =
      ((below.nodes []).filter (fun m => m.2 ≠ .undecided)).map (beneath n) := by
    rw [List.filter_map]
    rfl
  rw [marks, nodes_node, List.filter_append, List.filter_cons, hmap]
  by_cases hd : d = .undecided <;> simp [hd, marks]

/-! ## Marks are decisions -/

theorem mem_marks {f : Forest} (h : f.WellFormed) {q : List String} {d : Decision} :
    (q, d) ∈ f.marks ↔ d ≠ .undecided ∧ f.decisionAt q = d := by
  induction f generalizing q with
  | empty => simp [eq_comm]
  | node n c below beside ihb ihs =>
    have hown : (q, d) ∈ (if c = .undecided then [] else [([n], c)]) ↔
        q = [n] ∧ d ≠ .undecided ∧ c = d := by
      by_cases hc : c = .undecided
      · simp only [hc, if_true, List.not_mem_nil, false_iff]
        rintro ⟨-, hd, hcd⟩
        exact hd hcd.symm
      · simp only [hc, if_false, List.mem_singleton, Prod.mk.injEq]
        constructor
        · rintro ⟨rfl, rfl⟩
          exact ⟨rfl, hc, rfl⟩
        · rintro ⟨rfl, -, rfl⟩
          exact ⟨rfl, rfl⟩
    have hmap : (q, d) ∈ below.marks.map (beneath n) ↔
        ∃ r, r ≠ [] ∧ q = n :: r ∧ d ≠ .undecided ∧ below.decisionAt r = d := by
      rw [List.mem_map]
      constructor
      · rintro ⟨⟨r, c'⟩, hr, heq⟩
        cases heq
        have hd := (ihb h.fits.below).1 hr
        refine ⟨r, ?_, rfl, hd⟩
        rintro rfl
        exact hd.1 hd.2.symm
      · rintro ⟨r, -, rfl, hr⟩
        exact ⟨(r, d), (ihb h.fits.below).2 hr, rfl⟩
    rw [marks_node, List.mem_append, List.mem_append, hown, hmap, ihs h.beside]
    cases q with
    | nil => simp
    | cons s r =>
      rw [decisionAt_node]
      by_cases hn : n = s
      · subst hn
        rw [decisionAt_of_not_mem h.fresh]
        by_cases hr : r = []
        · simp [hr, eq_comm]
        · simp [hr, eq_comm]
      · simp [hn, Ne.symm hn]

theorem marks_eq_nil {f : Forest} (h : f.WellFormed) : f.marks = [] ↔ f = .empty := by
  constructor
  · intro hm
    by_contra hne
    obtain ⟨p, hp⟩ := h.exists_decided hne
    have hmem := (mem_marks h).2 ⟨hp, rfl⟩
    rw [hm] at hmem
    cases hmem
  · rintro rfl
    rfl

theorem exists_of_mem_marks {f : Forest} (h : f.WellFormed) {m : List String × Decision}
    (hm : m ∈ f.marks) : ∃ s r, m.1 = s :: r ∧ s ∈ f.names := by
  obtain ⟨q, d⟩ := m
  obtain ⟨hd, hq⟩ := (mem_marks h).1 hm
  cases q with
  | nil => exact absurd hq.symm hd
  | cons s r =>
    refine ⟨s, r, rfl, ?_⟩
    by_contra hs
    rw [decisionAt_of_not_mem hs] at hq
    exact hd hq.symm

theorem names_of_mem_marks {f : Forest} (h : f.WellFormed) {m : List String × Decision}
    (hm : m ∈ f.marks) : m.1 ≠ [] ∧ ∀ s ∈ m.1, IsName s := by
  obtain ⟨q, d⟩ := m
  obtain ⟨hd, hq⟩ := (mem_marks h).1 hm
  have hdecided : f.decisionAt q ≠ .undecided := fun hu => hd (hq.symm.trans hu)
  exact ⟨ne_nil_of_decided hdecided, h.names_of_decided hdecided⟩

theorem nodup_marks {f : Forest} (h : f.WellFormed) : (f.marks.map (·.1)).Nodup := by
  induction f with
  | empty => exact List.nodup_nil
  | node n d below beside ihb ihs =>
    have hbelow : ((below.marks.map (beneath n)).map (·.1)).Nodup := by
      have heq : (below.marks.map (beneath n)).map (·.1) = (below.marks.map (·.1)).map (n :: ·) := by
        rw [List.map_map, List.map_map]
        rfl
      rw [heq]
      exact (ihb h.fits.below).map List.cons_injective
    have hown : ((if d = .undecided then [] else [([n], d)]) ++ below.marks.map (beneath n)).map
        (·.1) |>.Nodup := by
      by_cases hd : d = .undecided
      · rw [if_pos hd, List.nil_append]
        exact hbelow
      · rw [if_neg hd, List.singleton_append, List.map_cons, List.nodup_cons]
        refine ⟨fun hm => ?_, hbelow⟩
        obtain ⟨m, hm, heq⟩ := List.mem_map.1 hm
        obtain ⟨m', hm', rfl⟩ := List.mem_map.1 hm
        obtain ⟨s, r, hsr, -⟩ := exists_of_mem_marks h.fits.below hm'
        simp [beneath, hsr] at heq
    rw [marks_node, List.map_append]
    refine List.nodup_append'.2 ⟨hown, ihs h.beside, ?_⟩
    intro q hq hq'
    obtain ⟨m, hm, rfl⟩ := List.mem_map.1 hq'
    obtain ⟨s, r, hsr, hs⟩ := exists_of_mem_marks h.beside hm
    have hns : s = n := by
      rw [hsr, List.map_append, List.mem_append] at hq
      rcases hq with hq | hq
      · by_cases hd : d = .undecided
        · simp [hd] at hq
        · simp [hd] at hq
          exact hq.1
      · obtain ⟨m', hm', heq⟩ := List.mem_map.1 hq
        obtain ⟨m'', -, rfl⟩ := List.mem_map.1 hm'
        simp only [beneath, List.cons.injEq] at heq
        exact heq.1.symm
    exact h.fresh (hns ▸ hs)

/-! ## Marks beneath a path -/

/-- The marks beneath a path are those of the forest below it. -/
theorem marks_beneath {f : Forest} (h : f.WellFormed) (p : List String) (hp : p ≠ []) :
    f.marks.filter (fun m => p <+: m.1 ∧ p ≠ m.1) =
      (f.belowAt p).marks.map fun m => (p ++ m.1, m.2) := by
  induction p generalizing f with
  | nil => exact absurd rfl hp
  | cons s p ihp =>
    induction f with
    | empty => simp
    | node n d below beside _ ihs =>
      have hown : (if d = .undecided then [] else [([n], d)]).filter
          (fun m => s :: p <+: m.1 ∧ s :: p ≠ m.1) = [] := by
        rw [List.filter_eq_nil_iff]
        intro m hm
        by_cases hd : d = .undecided
        · simp [hd] at hm
        · simp only [hd, if_false, List.mem_singleton] at hm
          subst hm
          simp only [List.cons_prefix_cons, List.prefix_nil, ne_eq, List.cons.injEq, not_and,
            Bool.decide_and, Bool.and_eq_true, decide_eq_true_eq, and_imp]
          tauto
      rw [marks_node, List.filter_append, List.filter_append, hown, List.nil_append, List.filter_map,
        belowAt_node]
      by_cases hn : n = s
      · subst hn
        have hbeside : beside.marks.filter (fun m => n :: p <+: m.1 ∧ n :: p ≠ m.1) = [] := by
          rw [List.filter_eq_nil_iff]
          intro m hm hpre
          obtain ⟨t, r, htr, ht⟩ := exists_of_mem_marks h.beside hm
          simp only [htr, List.cons_prefix_cons, ne_eq, List.cons.injEq, Bool.decide_and,
            Bool.and_eq_true, decide_eq_true_eq] at hpre
          exact h.fresh (hpre.1.1 ▸ ht)
        rw [hbeside, List.append_nil, if_pos rfl]
        by_cases hp0 : p = []
        · subst hp0
          rw [if_pos rfl, List.filter_eq_self.2]
          · rfl
          · intro m hm
            have := (names_of_mem_marks h.fits.below hm).1
            simp [beneath, Ne.symm this]
        · have hfun : ((fun m : List String × Decision => decide (n :: p <+: m.1 ∧ n :: p ≠ m.1)) ∘
              beneath n) = fun m => decide (p <+: m.1 ∧ p ≠ m.1) := by
            funext m
            simp [beneath, List.cons_prefix_cons]
          rw [if_neg hp0, hfun, ihp h.fits.below hp0, List.map_map]
          rfl
      · have hbelow : below.marks.filter ((fun m : List String × Decision =>
            decide (s :: p <+: m.1 ∧ s :: p ≠ m.1)) ∘ beneath n) = [] := by
          rw [List.filter_eq_nil_iff]
          intro m _
          simp [beneath, List.cons_prefix_cons, Ne.symm hn]
        rw [hbelow, List.map_nil, List.nil_append, if_neg hn, ihs h.beside]

/-- All inclusions are outermost ones. -/
theorem included_eq {f : Forest} (h : f.WellFormed) (base : List String) :
    f.included base = (f.marks.filter fun m => m.2 = .included).map fun m => base ++ m.1 := by
  induction f generalizing base with
  | empty => rfl
  | node n d below beside ihb ihs =>
    have hmap : ((below.marks.map (beneath n)).filter fun m => m.2 = .included).map
        (fun m => base ++ m.1) = below.included (base ++ [n]) := by
      rw [ihb h.fits.below, List.filter_map, List.map_map]
      simp only [beneath, Function.comp_def, List.append_assoc, List.singleton_append]
      rfl
    rw [included, marks_node, List.filter_append, List.filter_append, List.map_append,
      List.map_append, hmap, ihs h.beside]
    by_cases hd : d = .included
    · subst hd
      simp [h.fits.included rfl, included]
    · by_cases hu : d = .undecided <;> simp [hd, hu]

end Forest
end SelectiveSync
