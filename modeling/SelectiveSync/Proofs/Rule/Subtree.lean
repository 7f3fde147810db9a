import SelectiveSync.Proofs.Rule.Shape

/-! # Directives for a part of a tree

The list for a part of a tree is found again in the list for the whole, in one stretch.

* `block_eq`: a node's block in the list of its row is its own list, followed by the directive that
  lets the node in if something below it is included.
* `rules_at_sibling` and `rules_at_path`: around the block of a node there is nothing about that
  node, one step down and any number of steps down.
* `directivesAt_in_directives`: the same of the paths of a tree. -/
namespace SelectiveSync
set_option autoImplicit false

namespace Forest
open Directive

/-! ## One node -/

theorem block_eq {n : Node} (h : Fits n.decision n.below) (path : List String) :
    block path n.decision n.below = n.rules (Text.joined '/' path) ++
      if n.below.reaches then [⟨.included, .directory, Text.joined '/' path⟩] else [] := by
  rw [block, Node.rules, closed]
  by_cases hd : n.decision = .included
  · have hnone : n.below.reaches = false := by rw [h.included hd, reaches]
    simp [hd, hnone]
  · by_cases hr : n.below.reaches
    · simp [hd, hr]
    · by_cases he : n.decision = .evicted <;> simp [hd, hr, he]

/-- What is below an entered directory is followed by directives about the directory itself. -/
theorem block_of_reaches {path : List String} {d : Decision} {below : Forest} (hne : path ≠ [])
    (hpath : ∀ s ∈ path, IsName s) (hd : d ≠ .included) (hr : below.reaches) :
    ∃ own, block path d below = below.rules (Text.joined '/' path) ++ own ∧
      ∀ e ∈ own, e.names = path := by
  rw [block, if_neg hd, if_pos hr, closed_append]
  exact ⟨_, rfl, fun e he => names_of_mem_pair hne hpath he⟩

/-! ## One step down -/

theorem rules_at_sibling {f : Forest} (h : f.WellFormed) {base : List String}
    (hbase : ∀ u ∈ base, IsName u) {s : String} {n : Node} (hn : f.find? s = some n) :
    ∃ before after, f.rules (Text.joined '/' base) =
        before ++ block (base ++ [s]) n.decision n.below ++ after ∧
      ∀ e ∈ before ++ after, ¬ base ++ [s] <+: e.names := by
  have hother {u : String} {r : List String} (hu : u ≠ s) : ¬ base ++ [s] <+: base ++ u :: r := by
    rw [List.prefix_append_right_inj, List.cons_prefix_cons]
    exact fun hpre => hu hpre.1.symm
  induction f with
  | empty => cases hn
  | node m d below beside _ ih =>
    rw [rules_node hbase]
    rw [find?] at hn
    by_cases hm : m = s
    · rw [if_pos hm] at hn
      cases hn
      refine ⟨[], beside.rules (Text.joined '/' base), by rw [hm, List.nil_append], ?_⟩
      intro e he
      obtain ⟨u, hu, r, hnames⟩ := names_of_mem_rules h.beside hbase he
      rw [hnames]
      refine hother ?_
      rintro rfl
      exact h.fresh (hm ▸ hu)
    · rw [if_neg hm] at hn
      obtain ⟨before, after, heq, hapart⟩ := ih h.beside hn
      refine ⟨block (base ++ [m]) d below ++ before, after, by simp [heq], ?_⟩
      intro e he
      rw [List.append_assoc] at he
      rcases List.mem_append.1 he with he | he
      · obtain ⟨r, hnames⟩ := names_of_mem_block h hbase he
        rw [hnames]
        exact hother hm
      · exact hapart e he

/-! ## Any number of steps down -/

theorem entered_cons {f : Forest} (h : f.WellFormed) {s : String} {n : Node}
    (hn : f.find? s = some n) {p : List String} (hp : p ≠ [])
    (hent : f.Entered (s :: p).dropLast) : n.below.reaches ∧ n.below.Entered p.dropLast := by
  have hbelow : f.belowAt [s] = n.below := by
    rw [belowAt, get?, hn]
    rfl
  rw [List.dropLast_cons_of_ne_nil hp] at hent
  have hr := hent.resolve_left (by simp)
  by_cases hlast : p.dropLast = []
  · rw [hlast, hbelow] at hr
    exact ⟨hr, Or.inl hlast⟩
  · rw [belowAt_cons s _ hlast, hbelow] at hr
    exact ⟨reaches_of_belowAt (h.find hn).2.below hlast hr, Or.inr hr⟩

/-- In the list for a row of siblings, the block of a node in an entered directory is preceded and
followed by directives about other things only. -/
theorem rules_at_path {f : Forest} (h : f.WellFormed) {base : List String}
    (hbase : ∀ u ∈ base, IsName u) {p : List String} {n : Node} (hn : f.get? p = some n)
    (hent : f.Entered p.dropLast) :
    ∃ before after, f.rules (Text.joined '/' base) =
        before ++ block (base ++ p) n.decision n.below ++ after ∧
      ∀ e ∈ before ++ after, ¬ base ++ p <+: e.names := by
  induction p generalizing f base with
  | nil => cases hn
  | cons s p ih =>
    cases p with
    | nil => exact rules_at_sibling h hbase hn
    | cons u rest =>
      rw [get?] at hn
      obtain ⟨m, hm, hn⟩ := Option.bind_eq_some_iff.1 hn
      have hfits := (h.find hm).2
      obtain ⟨hr, hent⟩ := entered_cons h hm (by simp) hent
      have hd : m.decision ≠ .included := by
        intro hd
        rw [hfits.included hd] at hr
        cases hr
      have hpath : ∀ v ∈ base ++ [s], IsName v :=
        isName_append hbase (by simpa using (h.find hm).1)
      obtain ⟨before, after, heq, hapart⟩ := rules_at_sibling h hbase hm
      obtain ⟨before', after', heq', hapart'⟩ := ih hfits.below hpath hn hent
      have hstep : base ++ [s] ++ u :: rest = base ++ s :: u :: rest := by simp
      rw [hstep] at heq' hapart'
      obtain ⟨own, hblock, hown⟩ := block_of_reaches (by simp) hpath hd hr
      refine ⟨before ++ before', after' ++ own ++ after, ?_, fun e he => ?_⟩
      · rw [heq, hblock, heq']
        simp only [List.append_assoc]
      · -- the sibling on the way is a part of the path, and its own two directives are about less
        have hway : base ++ [s] <+: base ++ s :: u :: rest := by simp [List.cons_prefix_cons]
        have hparts : e ∈ before ++ after ∨ e ∈ before' ++ after' ∨ e ∈ own := by
          simp only [List.mem_append] at he ⊢
          tauto
        rcases hparts with he | he | he
        · exact fun hpre => hapart e he (hway.trans hpre)
        · exact hapart' e he
        · intro hpre
          have hlen := hpre.length_le
          simp only [hown e he, List.length_append, List.length_cons, List.length_nil] at hlen
          omega

end Forest

namespace PathTree
open Directive Forest

section
variable {t : PathTree} (h : t.top.WellFormed)
include h

/-- What is on no way to an inclusion has nothing in it written about. -/
theorem not_listed_beneath {p q : TreePath} (hq : ¬ t.OnWay q) (hqp : q.IsAncestorOf p)
    {e : Directive} (he : e ∈ t.top.rules "") : ¬ p.segments <+: e.names := by
  obtain ⟨polarity, scope, r, rfl, hin, -⟩ := exists_of_mem h he
  intro hpre
  rw [Directive.names, TreePath.pieces_text] at hpre
  have hqr : q.IsAncestorOf r := by
    rcases TreePath.isPrefix_iff.1 hpre with rfl | hpr
    · exact hqp
    · exact hqp.trans hpr
  exact hq (hin.onWay hqr)

theorem directives_around {p : TreePath} {n : Node} (hn : t.get? p = some n)
    (hin : t.InEntered p) : ∃ before after,
      t.top.rules "" = before ++ (n.rules p.text ++
        if n.below.reaches then [⟨.included, .directory, p.text⟩] else []) ++ after ∧
      ∀ e ∈ before ++ after, ¬ p.segments <+: e.names := by
  have hent := (entered_dropLast_iff h p).2 hin
  obtain ⟨before, after, heq, hapart⟩ := rules_at_path h (List.forall_mem_nil IsName) hn hent
  rw [block_eq (h.get hn).2] at heq
  exact ⟨before, after, heq, hapart⟩

end

/-- The directives for the part of a tree at a node, followed by the one that lets the node in if it
is on the way to an inclusion, make one stretch of the directives for the whole tree if the node is
at the top or in a directory on the way to an inclusion, and no other directive is about the node or
anything beneath it. If the directory that a path is in is on no such way, no directive at all is
about the path or anything beneath it. For a path without a node there are no directives. -/
theorem directivesAt_in_directives (t : PathTree) (h : t.Reachable) (p : TreePath) :
    ∃ rules part, t.directives = .ok rules ∧ t.directivesAt p = .ok part ∧
      ((∃ n, t.get? p = some n) → t.InEntered p → ∃ before tail after,
        rules = before ++ (part ++ tail) ++ after ∧
          (t.OnWay p ∧ tail = [⟨.included, .directory, p.text⟩] ∨ ¬ t.OnWay p ∧ tail = []) ∧
          ∀ e ∈ before ++ after, ¬ p.segments <+: e.names) ∧
      (∀ q, p.parent? = some q → ¬ t.OnWay q → ∀ e ∈ rules, ¬ p.segments <+: e.names) ∧
      (t.get? p = none → part = []) := by
  have ht := h.wellFormed
  refine ⟨_, _, directives_eq_ok ht, directivesAt_eq_ok ht p, ?_, ?_, fun hnone => by simp [hnone]⟩
  · rintro ⟨n, hn⟩ hin
    obtain ⟨before, after, heq, hapart⟩ := directives_around ht hn hin
    have hway : n.below.reaches = true ↔ t.OnWay p := by
      rw [← reaches_belowAt_iff ht, belowAt_eq, hn]
      rfl
    refine ⟨before, _, after, by simpa [hn] using heq, ?_, hapart⟩
    by_cases hr : n.below.reaches
    · exact Or.inl ⟨hway.1 hr, if_pos hr⟩
    · exact Or.inr ⟨fun hon => hr (hway.2 hon), if_neg hr⟩
  · intro q hq hoff e he
    exact not_listed_beneath ht hoff (TreePath.isAncestorOf_of_parent? hq) he

theorem directivesAt_in_directives_sample :
    Sample.tree.Reachable ∧ (∃ n, Sample.tree.get? Sample.music = some n) ∧
      Sample.tree.InEntered Sample.music ∧ ∃ before after,
        Sample.rules = before ++ [⟨.included, .directory, "Music/Jazz"⟩,
          ⟨.excluded, .contents, "Music"⟩, ⟨.included, .directory, "Music"⟩] ++ after ∧
        ∀ e ∈ before ++ after, ¬ Sample.music.segments <+: e.names := by
  obtain ⟨rules, part, hrules, hpart, hblock, -, -⟩ :=
    directivesAt_in_directives Sample.tree Sample.reachable Sample.music
  have hnode : ∃ n, Sample.tree.get? Sample.music = some n := ⟨_, rfl⟩
  have hin : Sample.tree.InEntered Sample.music := by
    intro q hq
    cases hq
  have hway : Sample.tree.OnWay Sample.music := ⟨Sample.jazz, by decide, by decide⟩
  have hlist : Sample.tree.directivesAt Sample.music =
      .ok [⟨.included, .directory, "Music/Jazz"⟩, ⟨.excluded, .contents, "Music"⟩] := by
    decide +kernel
  rw [Sample.directives_tree] at hrules
  rw [hlist] at hpart
  cases hrules
  cases hpart
  obtain ⟨before, tail, after, heq, ⟨-, rfl⟩ | ⟨hoff, -⟩, hapart⟩ := hblock hnode hin
  · exact ⟨Sample.reachable, hnode, hin, before, after, heq, hapart⟩
  · exact absurd hway hoff

end PathTree
end SelectiveSync
