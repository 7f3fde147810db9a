import SelectiveSync.Proofs.Rule.Membership
import SelectiveSync.Proofs.Tree.Frame

/-! # What is listed of the rest of a tree

A request that is granted leaves the listings of everything else as they were, in their order.

* `filter_marks`: marks selected by their location are marks of the forest selected by their path.
* `Forest.without`: a row of siblings without one of them. `filter_rules` reads the directives that
  are not about that sibling off the rest of the row, and `without_edit` and `without_clear` say
  that changes at the sibling leave the rest alone.
* `rules_eq_flatMap`: the directives come in one block for each sibling.
* `listings_stable`: all this for requests on trees. -/
namespace SelectiveSync
set_option autoImplicit false

/-- The names on the way that a mark's location spells out. -/
def Mark.names (m : Mark) : List String :=
  Text.pieces '/' m.location

namespace Forest

/-! ## A row without one of its siblings -/

def without (s : String) : Forest → Forest
  | empty => empty
  | node n d below beside =>
    if n = s then beside.without s else node n d below (beside.without s)

theorem without_update (s : String) (g : Decision → Forest → Decision × Forest) (f : Forest) :
    (f.update s g).without s = f.without s := by
  induction f with
  | empty => simp [update, without]
  | node n d below beside _ ih => by_cases hn : n = s <;> simp [update, without, hn, ih]

theorem without_edit (s : String) (p : List String) (g : Decision → Forest → Decision × Forest)
    (f : Forest) : (edit g (s :: p) f).without s = f.without s := by
  cases p with
  | nil => exact without_update s g f
  | cons t rest => exact without_update s _ f

theorem without_useful (s : String) (d : Decision) (below beside : Forest) :
    (useful s d below beside).without s = beside.without s := by
  rw [useful]
  split
  · rfl
  · rw [without, if_pos rfl]

theorem without_clear (s : String) (p : List String) (f : Forest) :
    (clear (s :: p) f).without s = f.without s := by
  induction f with
  | empty => rfl
  | node n d below beside _ ih =>
    by_cases hn : n = s
    · subst hn
      cases p with
      | nil => simp [clear, without_useful, without]
      | cons t rest => simp [clear, without_useful, without]
    · simp [clear, without, hn, ih]

/-! ## Blocks of directives -/

/-- A directive for a row of siblings is about one of them or about something beneath it. -/
theorem head_of_mem_rules {f : Forest} (h : f.WellFormed) {e : Directive} (he : e ∈ f.rules "") :
    ∃ s ∈ f.names, e.names.head? = some s := by
  obtain ⟨s, hs, r, hnames⟩ := names_of_mem_rules h (List.forall_mem_nil IsName) he
  exact ⟨s, hs, by rw [hnames, List.nil_append, List.head?_cons]⟩

section
variable {n : String} {d : Decision} {below beside : Forest}

theorem rules_top : (node n d below beside).rules "" = block [n] d below ++ beside.rules "" :=
  rules_node (List.forall_mem_nil IsName) n d below beside

theorem head_of_mem_block (h : (node n d below beside).WellFormed) {e : Directive}
    (he : e ∈ block [n] d below) : e.names.head? = some n := by
  obtain ⟨r, hnames⟩ := names_of_mem_block h (List.forall_mem_nil IsName) he
  rw [hnames, List.nil_append, List.head?_cons]

end

theorem filter_rules {f : Forest} (h : f.WellFormed) (s : String) :
    (f.rules "").filter (fun e => e.names.head? ≠ some s) = (f.without s).rules "" := by
  induction f with
  | empty => rfl
  | node n d below beside _ ih =>
    rw [rules_top, List.filter_append, ih h.beside, without]
    by_cases hn : n = s
    · rw [if_pos hn, List.filter_eq_nil_iff.2, List.nil_append]
      intro e he
      simp [head_of_mem_block h he, hn]
    · rw [if_neg hn, rules_top, List.filter_eq_self.2]
      intro e he
      simp [head_of_mem_block h he, hn]

/-- The directives for a row come in one block for each sibling, in the order of the siblings. -/
theorem rules_eq_flatMap {f : Forest} (h : f.WellFormed) :
    f.rules "" = f.names.flatMap fun s => (f.rules "").filter fun e => e.names.head? = some s := by
  induction f with
  | empty => rfl
  | node n d below beside _ ih =>
    have hother {s : String} (hs : s ∈ beside.names) : n ≠ s := by
      rintro rfl
      exact h.fresh hs
    have hown : (block [n] d below ++ beside.rules "").filter (fun e => e.names.head? = some n) =
        block [n] d below := by
      rw [List.filter_append, List.filter_eq_self.2, List.filter_eq_nil_iff.2, List.append_nil]
      · intro e he
        obtain ⟨s, hs, hhead⟩ := head_of_mem_rules h.beside he
        simp [hhead, (hother hs).symm]
      · intro e he
        simp [head_of_mem_block h he]
    have hothers : ∀ s ∈ beside.names,
        (block [n] d below ++ beside.rules "").filter (fun e => e.names.head? = some s) =
          (beside.rules "").filter fun e => e.names.head? = some s := by
      intro s hs
      rw [List.filter_append, List.filter_eq_nil_iff.2, List.nil_append]
      intro e he
      simp [head_of_mem_block h he, hother hs]
    rw [rules_top, names, List.flatMap_cons, hown, List.flatMap_congr hothers, ← ih h.beside]

end Forest

namespace PathTree

/-! ## Marks by their location -/

theorem filter_marks {t : PathTree} (h : t.top.WellFormed) (p : List String) :
    t.marks.filter (fun m => ¬ p <+: m.names) =
      (t.top.marks.filter fun m => ¬ p <+: m.1).map fun m => ⟨Text.joined '/' m.1, m.2⟩ := by
  have hnames : ∀ m ∈ t.top.marks,
      Decidable.decide (¬ p <+: Mark.names ⟨Text.joined '/' m.1, m.2⟩) =
        Decidable.decide (¬ p <+: m.1) := by
    intro m hm
    obtain ⟨hne, hn⟩ := Forest.names_of_mem_marks h hm
    rw [Mark.names, pieces_joined_names hne hn]
  rw [← List.filter_congr hnames, marks, List.filter_map]
  rfl

/-! ## Requests that are granted -/

theorem filter_rules_decide {t u : PathTree} {d : Decision} {p : TreePath} (ht : t.top.WellFormed)
    (h : t.decide d p = .ok u) :
    (u.top.rules "").filter (fun e => e.names.head? ≠ p.segments.head?) =
      (t.top.rules "").filter fun e => e.names.head? ≠ p.segments.head? := by
  have hu := wellFormed_decide ht h
  obtain ⟨s, rest, hp⟩ := List.exists_cons_of_ne_nil p.ne_nil
  have hwithout : u.top.without s = t.top.without s := by
    rcases top_of_decide h with ⟨-, htop⟩ | ⟨-, htop⟩
    · rw [htop, hp]
      exact Forest.without_edit s rest _ t.top
    · rw [htop, hp]
      exact Forest.without_clear s rest t.top
  rw [hp, List.head?_cons, Forest.filter_rules hu, Forest.filter_rules ht, hwithout]

/-- The directives of a tree come in one block for each of the entries at the top, in the order in
which these were declared. A request that is granted leaves the marks that are not at or beneath its
path as they were, in their order, and so it does the directives for the entries at the top other
than the one that its path leads through. -/
theorem listings_stable (t : PathTree) (h : t.Reachable) :
    ∃ rules, t.directives = .ok rules ∧
      (rules = t.top.names.flatMap fun s => rules.filter fun e => e.names.head? = some s) ∧
      ∀ d p u, t.decide d p = .ok u →
        (u.marks.filter fun m => ¬ p.segments <+: m.names) =
            (t.marks.filter fun m => ¬ p.segments <+: m.names) ∧
          ∃ rules', u.directives = .ok rules' ∧
            (rules'.filter fun e => e.names.head? ≠ p.segments.head?) =
              rules.filter fun e => e.names.head? ≠ p.segments.head? := by
  have ht := h.wellFormed
  refine ⟨_, directives_eq_ok ht, Forest.rules_eq_flatMap ht, fun d p u hu => ?_⟩
  have hu' := wellFormed_decide ht hu
  refine ⟨?_, _, directives_eq_ok hu', filter_rules_decide ht hu⟩
  rw [filter_marks hu', filter_marks ht, filter_marks_decide hu]

theorem listings_stable_sample :
    Sample.tree.Reachable ∧ ∃ u rules, Sample.tree.decide .undecided Sample.music = .ok u ∧
      (u.marks.filter fun m => ¬ Sample.music.segments <+: m.names) = [⟨"Photos", .evicted⟩] ∧
      u.directives = .ok rules ∧
      (rules.filter fun e => e.names.head? ≠ some "Music") =
        [⟨.excluded, .exact, "Photos"⟩] := by
  have hu : Sample.tree.decide .undecided Sample.music =
      .ok ⟨.node "Music" .undecided (.node "Jazz" .included .empty .empty)
        (.node "Photos" .evicted .empty .empty)⟩ := by
    decide +kernel
  obtain ⟨rules, hrules, -, hall⟩ := listings_stable Sample.tree Sample.reachable
  obtain ⟨hmarks, rules', hrules', hkept⟩ := hall .undecided Sample.music _ hu
  have hbefore : Sample.tree.directives = .ok [⟨.included, .directory, "Music/Jazz"⟩,
      ⟨.excluded, .contents, "Music"⟩, ⟨.included, .directory, "Music"⟩,
      ⟨.excluded, .exact, "Photos"⟩] := by
    decide +kernel
  rw [hbefore] at hrules
  cases hrules
  refine ⟨Sample.reachable, _, rules', hu, hmarks.trans ?_, hrules', hkept.trans ?_⟩
  · decide +kernel
  · decide +kernel

end PathTree
end SelectiveSync
