import SelectiveSync.Proofs.Path.Canonical
import SelectiveSync.Proofs.Registry.Locating
import SelectiveSync.Proofs.Rule.Eviction

/-! # What an eviction in the registry leaves out

* `Registry.Excludes`: an entry lies in just one target, and what was decided on a path above it
  keeps it out of every transfer.
* `excludes_of_decide`: an eviction that is granted excludes all entries at its path and beneath. -/
namespace SelectiveSync
set_option autoImplicit false

/-- No way leads to a path without names. -/
theorem NormalPath.names_ne_nil_of_relativeTo? {p base : NormalPath} {q : TreePath}
    (h : p.relativeTo? base = some q.text) : p.names ≠ [] := by
  intro hnil
  have htext : p.text = p.anchor.text := by
    rw [text, hnil]
    exact String.append_empty
  rw [relativeTo?_eq_some, htext] at h
  split at h
  · exact q.text_ne_empty h
  · have hlast := congrArg (fun s : String => s.toList.getLast?) h
    have hq : q.text.toList ≠ [] := fun hnil => q.text_ne_empty (String.toList_inj.1 hnil)
    simp only [String.toList_append, List.getLast?_append_of_ne_nil _ hq] at hlast
    have hends := q.endsWith_text
    rw [Text.endsWith, ← hlast] at hends
    cases hanchor : p.anchor with
    | relative =>
      rw [hanchor] at hlast
      exact hq (List.getLast?_eq_none_iff.1 hlast.symm)
    | absolute | network =>
      rw [hanchor] at hends
      cases hends

namespace Location

/-- No way leads to the root of the file system. -/
theorem ne_nil_of_relativeTo? {l : Location} {base : NormalPath} {q : TreePath}
    (h : l.path.relativeTo? base = some q.text) : l ≠ [] :=
  NormalPath.names_ne_nil_of_relativeTo? h

/-- The way to a location beneath another one goes on from the way to that one. -/
theorem relativeTo?_append {l more : Location} {base : NormalPath} {q : TreePath}
    (h : l.path.relativeTo? base = some q.text) (hmore : ∀ n ∈ more, IsName n) :
    ∃ r : TreePath, (path (l ++ more)).relativeTo? base = some r.text ∧
      q.segments <+: r.segments := by
  by_cases hm : more = []
  · refine ⟨q, ?_, List.prefix_rfl⟩
    rw [hm, List.append_nil]
    exact h
  have hne := ne_nil_of_relativeTo? h
  let r : TreePath := ⟨q.segments ++ more, by simp [q.ne_nil], isName_append q.names hmore⟩
  refine ⟨r, ?_, List.prefix_append _ _⟩
  have hl : l.path.text = base.stem ++ q.text := by
    rw [NormalPath.relativeTo?_eq_some] at h
    split at h
    · exact absurd h q.text_ne_empty
    · exact h
  have hsplit {names : List String} (hnames : names ≠ []) :
      Text.joined '/' (names ++ more) =
        Text.joined '/' names ++ ("/" ++ Text.joined '/' more) := by
    rw [Text.joined, String.intercalate_append_of_ne_nil hnames hm, String.append_assoc]
    rfl
  have htext : (path (l ++ more)).text = base.stem ++ r.text :=
    calc
      (path (l ++ more)).text = l.path.text ++ ("/" ++ Text.joined '/' more) := by
        rw [text_path, text_path, text, text, hsplit hne, ← String.append_assoc]
      _ = base.stem ++ (q.text ++ ("/" ++ Text.joined '/' more)) := by
        rw [hl, String.append_assoc]
      _ = base.stem ++ r.text := congrArg _ (hsplit q.ne_nil).symm
  rw [NormalPath.relativeTo?_eq_some, htext, if_neg]
  -- the way is not empty, and the stem is not shorter than the path
  intro heq
  have hlength := congrArg String.length heq
  have hpos : r.text.length ≠ 0 := fun hzero =>
    r.text_ne_empty (String.length_eq_zero_iff.1 hzero)
  rcases base.stem_eq with hstem | hstem
  · rw [hstem, String.length_append] at hlength
    omega
  · rw [hstem, String.length_append, String.length_append] at hlength
    omega

end Location

namespace Registry

theorem eq_of_within {r : Registry} (h : r.Separate) {p : NormalPath} {t u : Target}
    (ht : t ∈ r.targets) (hu : u ∈ r.targets) (hpt : p.within (NormalPath.ofText t.root) = true)
    (hpu : p.within (NormalPath.ofText u.root) = true) : t = u := by
  by_contra hne
  have : Std.Symm fun a b : Target => Apart a.root b.root := ⟨fun _ _ => Apart.symm⟩
  have happart : Apart t.root u.root := h.forall ht hu hne
  rcases NormalPath.within_or_within hpt hpu with hw | hw
  · rw [happart.1] at hw
    cases hw
  · rw [happart.2] at hw
    cases hw

/-- The entry at a location lies in just one target, beneath its root, where the eviction of `p` rules
it and the filter leaves it out. -/
def Excludes (r : Registry) (p : TreePath) (l : Location) : Prop :=
  ∃ t ∈ r.targets,
    (∀ u ∈ r.targets, l.path.within (NormalPath.ofText u.root) = true → u = t) ∧
    ∃ q : TreePath, l.path.relativeTo? (NormalPath.ofText t.root) = some q.text ∧
      p.segments <+: q.segments ∧ t.tree.ruling q = .evicted p ∧
      ∃ rules, t.filterRules = .ok rules ∧ ∀ kind, ¬ Directive.Transfers rules kind q

theorem separate_decide {r s : Registry} {d : Decision} {path : String} {p : TreePath}
    (hs : r.Separate) (h : r.decide d path = .ok (p, s)) : s.Separate := by
  have happly : (Edit.decide d path).apply r = .ok s := by
    rw [Edit.apply, h]
    rfl
  exact separate_makes hs (Edit.makes_of_apply happly)

/-- A decision that is granted was made in the tree of a target that the path lies in. -/
theorem exists_of_decide {r s : Registry} {d : Decision} {path : String} {p : TreePath}
    (h : r.decide d path = .ok (p, s)) :
    ∃ t ∈ r.targets, ∃ tree, t.tree.decide d p = .ok tree ∧ { t with tree } ∈ s.targets ∧
      (NormalPath.ofText path).relativeTo? (NormalPath.ofText t.root) = some p.text := by
  cases hloc : r.locate path with
  | error e =>
    rw [decide, editAt, hloc] at h
    cases h
  | ok found =>
    obtain ⟨t, _ | q⟩ := found
    · rw [decide, editAt, hloc] at h
      cases h
    · obtain ⟨left, right, hts, hdecide⟩ := decide_of_locate hloc
      rw [hdecide] at h
      cases htree : t.tree.decide d q with
      | error e =>
        rw [htree] at h
        cases h
      | ok tree =>
        rw [htree] at h
        cases h
        refine ⟨t, by simp [hts], tree, htree, by simp, ?_⟩
        have hrel := (find?_of_locate hloc).2
        rw [relative] at hrel
        split at hrel
        · cases hrel
        · next rest hrest =>
          split at hrel
          · cases hrel
          · cases hparse : TreePath.parse rest with
            | error fault =>
              rw [hparse] at hrel
              cases hrel
            | ok q' =>
              rw [hparse] at hrel
              cases hrel
              rw [hrest, NormalPath.eq_text_of_parse (NormalPath.canonical_ofText path) hrest hparse]

/-- An eviction that is granted excludes all entries at the location that its path names, and
beneath. -/
theorem excludes_of_decide {r s : Registry} (hs : r.Separate) (hw : r.WellFormed) {path : String}
    {p : TreePath} (h : r.decide .evicted path = .ok (p, s)) {o l : Location}
    (ho : o.text = (NormalPath.ofText path).text) (hl : o <+: l) (hnames : ∀ n ∈ l, IsName n) :
    s.Excludes p l := by
  obtain ⟨t, ht, tree, htree, hmem, hrel⟩ := exists_of_decide h
  have hrel : o.path.relativeTo? (NormalPath.ofText t.root) = some p.text := by
    rw [NormalPath.relativeTo?, o.text_path, ho]
    exact hrel
  obtain ⟨more, rfl⟩ := hl
  obtain ⟨q, hq, hpq⟩ := Location.relativeTo?_append hrel fun n hn =>
    hnames n (List.mem_append_right _ hn)
  have hwithin : (Location.path (o ++ more)).within (NormalPath.ofText t.root) = true := by
    rw [NormalPath.within]
    exact Option.isSome_iff_exists.2 ⟨_, hq⟩
  refine ⟨_, hmem, fun u hu huw => eq_of_within (separate_decide hs h) hu hmem huw hwithin, q, hq,
    hpq, PathTree.ruling_evicted (hw t ht) htree hpq, _, ?_,
    PathTree.not_transfers_evicted (hw t ht) htree hpq⟩
  rw [Target.filterRules, Target.directives,
    PathTree.directives_eq_ok (PathTree.wellFormed_decide (hw t ht) htree)]
  rfl

end Registry
end SelectiveSync
