import Mathlib.Data.Set.Finite.Basic
import SelectiveSync.Proofs.Rule.Shape

/-! # Which directives a list can do without

* `Forest.exists_free_name`: every directory has room for something that a tree says nothing about.
* `Directive.first_middle` and `Directive.first_of_sublist`: what an entry meets first in a list with
  some of its directives taken out.
* `Directive.matches_text`: what the directives for a tree match, path by path.
* `not_passes`: an entry of an entered directory is let in by its own include or not at all.
* `directives_needed`: without an include or an exclusion of contents something else is transferred,
  and without any exclusions of single entries just the same. -/
namespace SelectiveSync
set_option autoImplicit false

/-! ## Names that are free -/

theorem infinite_isName : {s : String | IsName s}.Infinite := by
  have hlist (k : Nat) : (String.ofList (List.replicate (k + 1) 'x')).toList =
      List.replicate (k + 1) 'x' := String.toList_ofList
  refine Set.infinite_of_injective_forall_mem
    (f := fun k : Nat => String.ofList (List.replicate (k + 1) 'x')) ?_ fun k => ?_
  · intro j k hjk
    have hlen := congrArg (fun s => s.toList.length) hjk
    simp only [hlist, List.length_replicate] at hlen
    omega
  · have hx : 'x' ∈ (String.ofList (List.replicate (k + 1) 'x')).toList := by simp [hlist]
    have hne (s : String) (hs : 'x' ∉ s.toList) :
        String.ofList (List.replicate (k + 1) 'x') ≠ s := by
      intro heq
      exact hs (heq ▸ hx)
    refine (isName_iff _).2 ⟨hne _ (by decide), ?_, ?_, hne _ (by decide), hne _ (by decide)⟩
    · simp [hlist]
    · simp [hlist]

/-- Some name leads to no node of a forest, wherever it stands on a path. -/
theorem Forest.exists_free_name {f : Forest} (h : f.WellFormed) :
    ∃ s, IsName s ∧ ∀ p, s ∈ p → f.get? p = none := by
  obtain ⟨s, hs, hfree⟩ :=
    infinite_isName.exists_notMem_finset (f.marks.flatMap (·.1)).toFinset
  refine ⟨s, hs, fun p hp => ?_⟩
  cases hn : f.get? p with
  | none => rfl
  | some n =>
    -- a node lies on the way to a decision, and the names on that way are taken
    obtain ⟨-, q, hpq, hq⟩ := (exists_node_iff h p).1 ⟨n, hn⟩
    refine absurd ?_ hfree
    rw [List.mem_toFinset, List.mem_flatMap]
    exact ⟨(q, f.decisionAt q), (mem_marks h).2 ⟨hq, rfl⟩, hpq.subset hp⟩

namespace Directive

/-! ## What is met first -/

section
variable {rules : List Directive} {kind : Kind} {path : List String}

/-- An entry that something matches and that nothing lets in is left out. -/
theorem first_eq_excluded (hsome : ∃ e ∈ rules, e.Matches kind path)
    (hall : ∀ e ∈ rules, e.Matches kind path → e.polarity = .excluded) :
    first rules kind path = some .excluded := by
  obtain ⟨e, he, hm⟩ := hsome
  have hfind : (rules.find? fun e => e.Matches kind path).isSome := by
    rw [List.find?_isSome]
    exact ⟨e, he, by simpa using hm⟩
  obtain ⟨d, hd⟩ := Option.isSome_iff_exists.1 hfind
  have hdm : d.Matches kind path := by simpa using List.find?_some hd
  rw [first, hd, Option.map_some, hall d (List.mem_of_find?_eq_some hd) hdm]

/-- A directive that does not match an entry may be taken out. -/
theorem first_middle {before after : List Directive} {e : Directive} (h : ¬ e.Matches kind path) :
    first (before ++ e :: after) kind path = first (before ++ after) kind path := by
  have hnone : first [e] kind path = none := by rw [first_singleton, if_neg h]
  rw [← List.singleton_append, first_append, first_append, first_append, hnone, Option.none_or]

/-- Directives that do not match an entry may be taken out. -/
theorem first_of_sublist {kept : List Directive} (hsub : kept.Sublist rules) (hnodup : rules.Nodup)
    (h : ∀ e ∈ rules, e.Matches kind path → e ∈ kept) :
    first kept kind path = first rules kind path := by
  have hsub' := hsub.filter fun e => e.Matches kind path
  have hle : (rules.filter fun e => e.Matches kind path).length ≤
      (kept.filter fun e => e.Matches kind path).length := by
    refine ((hnodup.filter _).subperm fun e he => ?_).length_le
    obtain ⟨he, hm⟩ := List.mem_filter.1 he
    exact List.mem_filter.2 ⟨h e he (by simpa using hm), hm⟩
  rw [first, first, ← List.head?_filter, ← List.head?_filter, hsub'.eq_of_length_le hle]

end

/-! ## Paths that directives are about -/

theorem matches_text (polarity : Polarity) (scope : Scope) (kind : Kind) (p q : TreePath) :
    Matches ⟨polarity, scope, p.text⟩ kind q.segments ↔
      match scope with
      | .directory => kind = .directory ∧ p = q
      | .contents => q.parent? = some p
      | .exact => p = q := by
  rw [TreePath.text, Forest.matches_iff p.names q.names]
  cases scope with
  | directory => simp only [TreePath.ext_iff]
  | contents => simp only [TreePath.parent?_eq_some, @eq_comm _ p.segments]
  | exact => simp only [TreePath.ext_iff]

/-- The directive that leaves out everything in the directory that a path is in. -/
def closing (q : TreePath) : Directive :=
  ⟨.excluded, .contents, Text.joined '/' q.segments.dropLast⟩

theorem closing_of_none {q : TreePath} (h : q.parent? = none) : closing q = ambient := by
  rw [closing, TreePath.parent?_eq_none.1 h]
  rfl

theorem closing_of_some {p q : TreePath} (h : q.parent? = some p) :
    closing q = ⟨.excluded, .contents, p.text⟩ := by
  rw [closing, TreePath.parent?_eq_some.1 h]
  rfl

theorem closing_matches_iff (kind : Kind) (p q : TreePath) :
    (closing p).Matches kind q.segments ↔ p.segments.dropLast = q.segments.dropLast :=
  Forest.matches_iff (fun s hs => p.names s (List.dropLast_subset _ hs)) q.names _ _ kind

end Directive

namespace PathTree
open Directive

/-! ## Directives for a tree -/

/-- The directives for a tree and the one that leaves everything else out. -/
def allRules (t : PathTree) : List Directive :=
  t.top.rules "" ++ [ambient]

section
variable {t : PathTree} (h : t.top.WellFormed)
include h

theorem mem_allRules {e : Directive} (he : e ∈ t.allRules) :
    e = ambient ∨ ∃ polarity scope, ∃ p : TreePath, e = ⟨polarity, scope, p.text⟩ ∧
      t.InEntered p ∧ Forest.Calls (t.decisionAt p) (t.belowAt p) polarity scope := by
  rcases List.mem_append.1 he with he | he
  · exact Or.inr (exists_of_mem h he)
  · exact Or.inl (List.mem_singleton.1 he)

theorem nodup_allRules : t.allRules.Nodup := by
  rw [allRules, List.nodup_append]
  refine ⟨nodup_top h, by simp, fun a ha b hb heq => ?_⟩
  rw [List.mem_singleton.1 hb] at heq
  obtain ⟨p, hp⟩ := path_of_mem h (heq ▸ ha)
  exact p.text_ne_empty hp.symm

theorem closing_mem {q : TreePath} (hq : t.InEntered q) : closing q ∈ t.allRules := by
  cases hparent : q.parent? with
  | none => simp [allRules, closing_of_none hparent]
  | some p =>
    rw [closing_of_some hparent]
    exact List.mem_append_left _ (mem_of_onWay h (hq p hparent)).1

theorem include_mem_iff (q : TreePath) :
    ⟨.included, .directory, q.text⟩ ∈ t.allRules ↔
      t.InEntered q ∧ (t.decisionAt q = .included ∨ t.OnWay q) := by
  have hne : (⟨.included, .directory, q.text⟩ : Directive) ≠ ambient := by simp [ambient]
  rw [allRules, List.mem_append, List.mem_singleton, or_iff_left hne, mem_rules_iff h,
    ← reaches_belowAt_iff h]
  simp [Forest.Calls]

/-- Only directories are let in. -/
theorem exists_include {e : Directive} (he : e ∈ t.allRules) (hp : e.polarity = .included) :
    ∃ q : TreePath, e = ⟨.included, .directory, q.text⟩ := by
  rcases mem_allRules h he with rfl | ⟨polarity, scope, p, rfl, -, hcalls⟩
  · cases hp
  · obtain rfl : polarity = .included := hp
    cases scope with
    | directory => exact ⟨p, rfl⟩
    | contents => cases hcalls.1
    | exact => cases hcalls.1

/-- Without its own include an entry is left out where everything else is. -/
theorem not_passes {kept : List Directive} (hkept : kept ⊆ t.allRules) {q : TreePath}
    (hclosing : closing q ∈ kept) (hown : ⟨.included, .directory, q.text⟩ ∉ kept) (kind : Kind) :
    ¬ Passes kept kind q.segments := by
  have hfirst : first kept kind q.segments = some .excluded := by
    refine first_eq_excluded ⟨_, hclosing, (closing_matches_iff kind q q).2 rfl⟩ fun e he hm => ?_
    cases hp : e.polarity with
    | excluded => rfl
    | included =>
      obtain ⟨p, rfl⟩ := exists_include h (hkept he) hp
      obtain ⟨-, rfl⟩ := (matches_text _ _ _ _ _).1 hm
      exact absurd he hown
  rw [Passes, hfirst]
  exact fun hne => hne rfl

/-! ## Evictions -/

/-- Whatever evictions are taken out of the list, an entry is let in or left out as before. -/
theorem passes_of_sublist {kept : List Directive} (hsub : kept.Sublist t.allRules)
    (hkept : ∀ e ∈ t.allRules, e.scope ≠ .exact → e ∈ kept) (kind : Kind) (q : TreePath) :
    Passes kept kind q.segments ↔ Passes t.allRules kind q.segments := by
  by_cases hev : t.InEntered q ∧ t.decisionAt q = .evicted ∧ ¬ t.OnWay q
  · -- the entry is evicted and not let in, and what closes its directory leaves it out as well
    obtain ⟨hin, hd, hoff⟩ := hev
    have hown : ⟨.included, .directory, q.text⟩ ∉ t.allRules := by
      rw [include_mem_iff h]
      simp [hd, hoff]
    have hclosing := closing_mem h hin
    have hcloses : closing q ∈ kept := hkept _ hclosing (by simp [closing])
    exact iff_of_false
      (not_passes h hsub.subset hcloses (fun hmem => hown (hsub.subset hmem)) kind)
      (not_passes h (List.Subset.refl _) hclosing hown kind)
  · rw [Passes, Passes, first_of_sublist hsub (nodup_allRules h)]
    intro e he hm
    refine hkept e he fun hs => hev ?_
    rcases mem_allRules h he with rfl | ⟨polarity, scope, p, rfl, hin, hcalls⟩
    · cases hs
    · obtain rfl : scope = .exact := hs
      obtain rfl : p = q := (matches_text _ _ _ _ _).1 hm
      exact ⟨hin, hcalls.2.1, fun hon => hcalls.2.2 ((reaches_belowAt_iff h p).2 hon)⟩

/-! ## What is left without one directive -/

section
variable {before after : List Directive} {e : Directive}
  (hsplit : t.allRules = before ++ e :: after)
include hsplit

theorem not_mem_rest : e ∉ before ++ after := by
  have hnodup := nodup_allRules h
  rw [hsplit, List.nodup_middle] at hnodup
  exact (List.nodup_cons.1 hnodup).1

omit h in
theorem rest_subset : before ++ after ⊆ t.allRules := by
  rw [hsplit]
  simp

omit h in
theorem mem_rest {d : Directive} (hd : d ∈ t.allRules) (hne : d ≠ e) : d ∈ before ++ after := by
  rw [hsplit] at hd
  simpa [hne] using hd

end

/-! ## Includes -/

theorem transfers_of_taken {q : TreePath} (hq : t.decisionAt q = .included ∨ t.OnWay q) :
    Transfers t.allRules .directory q := by
  rw [allRules, transfers_iff_takes h, Forest.Takes]
  rcases hq with hd | ⟨r, hanc, hr⟩
  · exact ⟨q.segments, hd, Or.inl List.prefix_rfl⟩
  · exact ⟨r.segments, hr, Or.inr hanc.2⟩

/-- Without its include a directory is left out. -/
theorem not_transfers_without {before after : List Directive} {q : TreePath}
    (hsplit : t.allRules = before ++ ⟨.included, .directory, q.text⟩ :: after)
    (hin : t.InEntered q) : ¬ Transfers (before ++ after) .directory q := by
  have hrest : closing q ∈ before ++ after :=
    mem_rest hsplit (closing_mem h hin) (by simp [closing])
  exact fun htransfers =>
    not_passes h (rest_subset hsplit) hrest (not_mem_rest h hsplit) .directory htransfers.2

/-! ## Exclusions of contents -/

/-- Where there is no node, only what closes the directory matches. -/
theorem eq_closing_of_matches {e : Directive} {kind : Kind} {q : TreePath} (hq : t.get? q = none)
    (he : e ∈ t.allRules) (hm : e.Matches kind q.segments) : e = closing q := by
  rcases mem_allRules h he with rfl | ⟨polarity, scope, p, rfl, -, hcalls⟩
  · have hroot := (Forest.matches_iff (l := []) (List.forall_mem_nil IsName) q.names .excluded
      .contents kind).1 hm
    rw [closing_of_none (TreePath.parent?_eq_none.2 hroot.symm)]
  · have hmissing : p ≠ q := by
      rintro rfl
      rw [decisionAt_eq, belowAt_eq, hq] at hcalls
      exact Forest.not_calls_missing _ _ hcalls
    have habout := (matches_text _ _ _ _ _).1 hm
    cases scope with
    | directory => exact absurd habout.2 hmissing
    | contents => rw [closing_of_some habout, hcalls.1]
    | exact => exact absurd habout hmissing

theorem exists_free_child (base : Option TreePath) :
    ∃ q : TreePath, q.parent? = base ∧ t.get? q = none := by
  obtain ⟨s, hs, hfree⟩ := Forest.exists_free_name h
  have hone : ∀ u ∈ [s], IsName u := by simpa using hs
  cases base with
  | none =>
    exact ⟨⟨[s], by simp, hone⟩, TreePath.parent?_eq_none.2 rfl, hfree _ (by simp)⟩
  | some p =>
    refine ⟨⟨p.segments ++ [s], by simp, isName_append p.names hone⟩, ?_, hfree _ (by simp)⟩
    rw [TreePath.parent?_eq_some, List.dropLast_concat]

/-- Every exclusion of contents closes a directory in which there is room for something. -/
theorem exists_closing {e : Directive} (he : e ∈ t.allRules) (hs : e.scope = .contents) :
    ∃ q, e = closing q ∧ t.InEntered q ∧ t.get? q = none := by
  rcases mem_allRules h he with rfl | ⟨polarity, scope, p, rfl, -, hcalls⟩
  · obtain ⟨q, hq, hmissing⟩ := exists_free_child h none
    refine ⟨q, (closing_of_none hq).symm, fun r hr => ?_, hmissing⟩
    rw [hq] at hr
    cases hr
  · obtain rfl : scope = .contents := hs
    obtain ⟨rfl, hr⟩ := hcalls
    obtain ⟨q, hq, hmissing⟩ := exists_free_child h (some p)
    refine ⟨q, (closing_of_some hq).symm, fun r hr' => ?_, hmissing⟩
    rw [hq] at hr'
    cases hr'
    exact (reaches_belowAt_iff h p).1 hr

theorem not_transfers_missing {q : TreePath} (hin : t.InEntered q) (hq : t.get? q = none) :
    ¬ Transfers t.allRules .directory q := by
  have hown : ⟨.included, .directory, q.text⟩ ∉ t.allRules := by
    intro hmem
    have hm := (matches_text .included .directory .directory q q).2 ⟨rfl, rfl⟩
    cases eq_closing_of_matches h hq hmem hm
  exact fun htransfers =>
    not_passes h (List.Subset.refl _) (closing_mem h hin) hown .directory htransfers.2

/-- Without what closes a directory on the way to an inclusion, something new in that directory is
let in, and still all directories on the way to it are. -/
theorem transfers_without_closing {before after : List Directive} {q : TreePath}
    (hsplit : t.allRules = before ++ closing q :: after) (hin : t.InEntered q)
    (hq : t.get? q = none) : Transfers (before ++ after) .directory q := by
  refine ⟨fun r hr => ?_, ?_⟩
  · have hanc := TreePath.mem_parents.1 hr
    have hpasses := (transfers_of_taken h (Or.inr (hin.onWay hanc))).2
    -- what is left out is in the directory of `q`, and `r` is no longer than that directory
    have hmiss : ¬ (closing q).Matches .directory r.segments := by
      intro hm
      have hlast := congrArg List.length ((closing_matches_iff _ q r).1 hm)
      have hlt := hanc.1
      have hpos := r.segments_length_pos
      rw [List.length_dropLast, List.length_dropLast] at hlast
      omega
    rwa [Passes, hsplit, first_middle hmiss] at hpasses
  · have hnone : first (before ++ after) .directory q.segments = none := by
      refine first_eq_none fun e he hm => not_mem_rest h hsplit ?_
      rwa [← eq_closing_of_matches h hq (rest_subset hsplit he) hm]
    rw [Passes, hnone]
    simp

end

/-- The directives for a tree that operations made, followed by the one that leaves everything else
out: without one of those that let a directory in or one of those that leave the contents of a
directory out, the last one included, some directory is transferred that was not or the other way
round; without any of those that leave single entries out, all is as it was. -/
theorem directives_needed (t : PathTree) (h : t.Reachable) :
    ∃ rules, t.directives = .ok rules ∧
      (∀ before e after, rules ++ [ambient] = before ++ e :: after →
        e.polarity = .included ∨ e.scope = .contents →
        ∃ p, ¬ (Transfers (before ++ after) .directory p ↔
          Transfers (rules ++ [ambient]) .directory p)) ∧
      ∀ kept, kept.Sublist (rules ++ [ambient]) →
        (∀ e ∈ rules ++ [ambient], e.scope ≠ .exact → e ∈ kept) →
        ∀ kind p, Transfers kept kind p ↔ Transfers (rules ++ [ambient]) kind p := by
  have ht := h.wellFormed
  refine ⟨_, directives_eq_ok ht, fun before e after hsplit he => ?_,
    fun kept hsub hkept kind p => ?_⟩
  · have hmem : e ∈ t.allRules := by simp [allRules, hsplit]
    rcases he with hp | hs
    · obtain ⟨q, rfl⟩ := exists_include ht hmem hp
      obtain ⟨hin, htaken⟩ := (include_mem_iff ht q).1 hmem
      exact ⟨q, fun hiff =>
        not_transfers_without ht hsplit hin (hiff.2 (transfers_of_taken ht htaken))⟩
    · obtain ⟨q, rfl, hin, hq⟩ := exists_closing ht hmem hs
      exact ⟨q, fun hiff =>
        not_transfers_missing ht hin hq (hiff.1 (transfers_without_closing ht hsplit hin hq))⟩
  · have hpasses := passes_of_sublist ht hsub hkept
    exact and_congr (forall₂_congr fun q _ => hpasses .directory q) (hpasses kind p)

theorem directives_needed_sample :
    Sample.tree.Reachable ∧
      (∃ p, ¬ (Transfers [⟨.included, .directory, "Music/Jazz"⟩, ⟨.included, .directory, "Music"⟩,
          ⟨.excluded, .exact, "Photos"⟩, ambient] .directory p ↔
        Transfers (Sample.rules ++ [ambient]) .directory p)) ∧
      ∀ kind p, Transfers (Sample.rules.take 3 ++ [ambient]) kind p ↔
        Transfers (Sample.rules ++ [ambient]) kind p := by
  obtain ⟨rules, hrules, hneeded, hfree⟩ := directives_needed Sample.tree Sample.reachable
  rw [Sample.directives_tree] at hrules
  cases hrules
  refine ⟨Sample.reachable, ?_, hfree _ ?_ ?_⟩
  · exact hneeded [⟨.included, .directory, "Music/Jazz"⟩] ⟨.excluded, .contents, "Music"⟩ _ rfl
      (Or.inr rfl)
  · exact (List.take_sublist 3 Sample.rules).append (List.Sublist.refl _)
  · decide

end PathTree
end SelectiveSync
