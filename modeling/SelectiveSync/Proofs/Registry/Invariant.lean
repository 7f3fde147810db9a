import Mathlib
import SelectiveSync.Proofs.Path.Order
import SelectiveSync.Proofs.Registry.Runs
import SelectiveSync.Proofs.Tree.Reachable
import SelectiveSync.Registry.Stored

/-! # What all edits of a registry keep

* `Sorted`: the targets are in the order of their roots, compared part by part.
* `Separate`: no root lies within another, compared as normalized paths.
* `WellFormed`: the tree of every target is well-formed.

A registry begun empty has all three after any edits. One that was read has the first and the third,
since what is stored may have roots within others. -/
namespace SelectiveSync
set_option autoImplicit false

namespace Registry

/-- The root of no target comes before that of an earlier one. -/
def Sorted (r : Registry) : Prop :=
  r.targets.Pairwise fun a b => WrittenPath.order a.root b.root ≠ .gt

/-- Neither of two roots lies within the other. -/
def Apart (a b : String) : Prop :=
  (NormalPath.ofText a).within (NormalPath.ofText b) = false ∧
    (NormalPath.ofText b).within (NormalPath.ofText a) = false

/-- The roots of any two targets lie apart. -/
def Separate (r : Registry) : Prop :=
  r.targets.Pairwise fun a b => Apart a.root b.root

/-- The trees of all targets are well-formed. -/
def WellFormed (r : Registry) : Prop :=
  ∀ t ∈ r.targets, t.tree.top.WellFormed

/-! ## Targets with the same roots -/

theorem pairwise_of_roots {R : String → String → Prop} {ts us : List Target}
    (h : ts.map Target.root = us.map Target.root) (hts : ts.Pairwise fun a b => R a.root b.root) :
    us.Pairwise fun a b => R a.root b.root := by
  rw [← List.pairwise_map] at hts ⊢
  rwa [← h]

/-- A target exchanged for another with its root changes nothing about the roots. -/
theorem pairwise_exchange {R : String → String → Prop} {left right : List Target} {t u : Target}
    (h : (left ++ t :: right).Pairwise fun a b => R a.root b.root) (hroot : t.root = u.root) :
    (left ++ u :: right).Pairwise fun a b => R a.root b.root :=
  pairwise_of_roots (by simp [hroot]) h

theorem pairwise_removal {R : Target → Target → Prop} {left right : List Target} {t : Target}
    (h : (left ++ t :: right).Pairwise R) : (left ++ right).Pairwise R :=
  h.sublist ((List.sublist_cons_self t right).append_left left)

/-! ## Order -/

/-- Among sorted targets those before a path come first and no others follow, so that a search by
halves finds the same place for the path as one from the left. -/
theorem not_before_of_mem_dropWhile {path : String} {ts : List Target}
    (h : ts.Pairwise fun a b => WrittenPath.order a.root b.root ≠ .gt) {t : Target}
    (ht : t ∈ ts.dropWhile (before path)) : before path t = false := by
  induction ts with
  | nil => simp at ht
  | cons x ts ih =>
    obtain ⟨hx, hts⟩ := List.pairwise_cons.1 h
    rw [List.dropWhile_cons] at ht
    split at ht
    · exact ih hts ht
    · next hbefore =>
      rcases List.mem_cons.1 ht with rfl | ht
      · exact Bool.eq_false_iff.2 hbefore
      · refine Bool.eq_false_iff.2 fun htpath => hbefore ?_
        rw [before, beq_iff_eq] at htpath ⊢
        exact Std.TransCmp.lt_of_isLE_of_lt (Ordering.isLE_iff_ne_gt.2 (hx t ht)) htpath

theorem sorted_add {r : Registry} (h : r.Sorted) (source root : String) :
    (r.targets.takeWhile (before root) ++ ⟨source, root, {}⟩
      :: r.targets.dropWhile (before root)).Pairwise
        fun a b => WrittenPath.order a.root b.root ≠ .gt := by
  have hsplit := h
  rw [Sorted, ← List.takeWhile_append_dropWhile (p := before root) (l := r.targets),
    List.pairwise_append] at hsplit
  obtain ⟨hleft, hright, hacross⟩ := hsplit
  refine List.pairwise_append.2 ⟨hleft, List.pairwise_cons.2 ⟨fun t ht => ?_, hright⟩,
    fun t ht u hu => ?_⟩
  · have hnot := not_before_of_mem_dropWhile h ht
    rw [before, beq_eq_false_iff_ne] at hnot
    rwa [Ne, Std.OrientedCmp.gt_iff_lt]
  · rcases List.mem_cons.1 hu with rfl | hu
    · have hbefore := List.mem_takeWhile_imp ht
      rw [before, beq_iff_eq] at hbefore
      show WrittenPath.order t.root root ≠ .gt
      rw [hbefore]
      decide
    · exact hacross t ht u hu

theorem sorted_makes {e : Edit} {r s : Registry} (h : r.Sorted) (hs : e.Makes r s) : s.Sorted := by
  cases hs with
  | add source root _ => exact sorted_add h source root
  | remove root hts =>
    rw [Sorted, hts] at h
    exact pairwise_removal h
  | setSource root source hts =>
    rw [Sorted, hts] at h
    exact pairwise_exchange (R := fun a b => WrittenPath.order a b ≠ .gt) h rfl
  | decide d path hts =>
    rw [Sorted, hts] at h
    exact pairwise_exchange (R := fun a b => WrittenPath.order a b ≠ .gt) h rfl

/-! ## Roots apart from each other -/

theorem overlaps_eq_false {a b : String} : overlaps a b = false ↔ Apart a b :=
  Bool.or_eq_false_iff

theorem Apart.symm {a b : String} (h : Apart a b) : Apart b a :=
  And.symm h

theorem separate_makes {e : Edit} {r s : Registry} (h : r.Separate) (hs : e.Makes r s) :
    s.Separate := by
  cases hs with
  | add source root hnone =>
    have hperm : (r.targets.takeWhile (before root) ++ ⟨source, root, {}⟩
        :: r.targets.dropWhile (before root)).Perm (⟨source, root, {}⟩ :: r.targets) := by
      refine List.perm_middle.trans ?_
      rw [List.takeWhile_append_dropWhile]
    refine (hperm.pairwise_iff fun h => Apart.symm h).2 (List.pairwise_cons.2 ⟨fun t ht => ?_, h⟩)
    exact overlaps_eq_false.1 (hnone t ht)
  | remove root hts =>
    rw [Separate, hts] at h
    exact pairwise_removal h
  | setSource root source hts =>
    rw [Separate, hts] at h
    exact pairwise_exchange h rfl
  | decide d path hts =>
    rw [Separate, hts] at h
    exact pairwise_exchange h rfl

/-! ## Trees -/

/-- What holds of every target still does after an edit if it holds of a target that is added and
outlasts another source and a decision. -/
theorem forall_makes {P : Target → Prop} {e : Edit} {r s : Registry} (hs : e.Makes r s)
    (h : ∀ t ∈ r.targets, P t)
    (hadd : ∀ source root, e = .add source root → P ⟨source, root, {}⟩)
    (hsource : ∀ t source, P t → P { t with source })
    (htree : ∀ t tree d p, P t → t.tree.decide d p = .ok tree → P { t with tree }) :
    ∀ t ∈ s.targets, P t := by
  cases hs with
  | add source root _ =>
    intro t ht
    rcases List.mem_append.1 ht with ht | ht
    · exact h t (List.takeWhile_subset _ ht)
    · rcases List.mem_cons.1 ht with rfl | ht
      · exact hadd source root rfl
      · exact h t (List.dropWhile_subset _ ht)
  | remove root hts =>
    rw [hts] at h
    exact fun t ht => h t (((List.sublist_cons_self _ _).append_left _).subset ht)
  | @setSource _ _ _ t root source hts =>
    rw [hts, List.forall_mem_append, List.forall_mem_cons] at h
    exact List.forall_mem_append.2 ⟨h.1, List.forall_mem_cons.2 ⟨hsource t source h.2.1, h.2.2⟩⟩
  | @decide _ _ _ t tree p d path hts _ hd =>
    rw [hts, List.forall_mem_append, List.forall_mem_cons] at h
    exact List.forall_mem_append.2 ⟨h.1, List.forall_mem_cons.2 ⟨htree t tree d p h.2.1 hd, h.2.2⟩⟩

theorem wellFormed_makes {e : Edit} {r s : Registry} (h : r.WellFormed) (hs : e.Makes r s) :
    s.WellFormed :=
  forall_makes (P := fun t => t.tree.top.WellFormed) hs h (fun _ _ _ => trivial)
    (fun _ _ ht => ht) fun _ _ _ _ ht hd => PathTree.wellFormed_decide ht hd

/-! ## What was stored -/

/-- What a list is made of by a function that may fail comes from its members one by one. -/
theorem exists_of_mem_mapM {α β ε : Type} {f : α → Except ε β} {l : List α} {m : List β}
    (h : l.mapM f = .ok m) {b : β} (hb : b ∈ m) : ∃ a ∈ l, f a = .ok b := by
  induction l generalizing m with
  | nil =>
    cases h
    simp at hb
  | cons a l ih =>
    rw [List.mapM_cons] at h
    cases hf : f a with
    | error e =>
      rw [hf] at h
      cases h
    | ok c =>
      cases hl : l.mapM f with
      | error e =>
        rw [hf, hl] at h
        cases h
      | ok m' =>
        rw [hf, hl] at h
        cases h
        rcases List.mem_cons.1 hb with rfl | hb
        · exact ⟨a, by simp, hf⟩
        · obtain ⟨a', ha', hfa'⟩ := ih hl hb
          exact ⟨a', List.mem_cons_of_mem a ha', hfa'⟩

theorem ofStored_eq_ok {version : String} {stored : List StoredTarget} {r : Registry}
    (h : ofStored version stored = .ok r) :
    ∃ ts, stored.mapM Target.ofStored = .ok ts ∧ r = ⟨version, ts.mergeSort inOrder⟩ := by
  rw [ofStored] at h
  cases hts : stored.mapM Target.ofStored with
  | error e =>
    rw [hts] at h
    cases h
  | ok ts =>
    rw [hts] at h
    cases h
    exact ⟨ts, rfl, rfl⟩

/-- What is read is put in order, however it is stored. -/
theorem sorted_ofStored {version : String} {stored : List StoredTarget} {r : Registry}
    (h : ofStored version stored = .ok r) : r.Sorted := by
  obtain ⟨ts, -, rfl⟩ := ofStored_eq_ok h
  have hle (a b : Target) : inOrder a b = true ↔ (WrittenPath.order a.root b.root).isLE = true := by
    rw [inOrder, bne_iff_ne, Ordering.isLE_iff_ne_gt]
  refine (List.pairwise_mergeSort (fun a b c hab hbc => ?_) (fun a b => ?_) ts).imp fun h => ?_
  · rw [hle] at hab hbc ⊢
    exact Std.TransCmp.isLE_trans hab hbc
  · rw [Bool.or_eq_true, hle, hle]
    by_cases hab : WrittenPath.order a.root b.root = .gt
    · right
      rw [Std.OrientedCmp.gt_iff_lt] at hab
      rw [hab]
      rfl
    · exact Or.inl (Ordering.isLE_iff_ne_gt.2 hab)
  · exact bne_iff_ne.1 h

theorem wellFormed_ofStored {version : String} {stored : List StoredTarget} {r : Registry}
    (h : ofStored version stored = .ok r) : r.WellFormed := by
  obtain ⟨ts, hts, rfl⟩ := ofStored_eq_ok h
  intro t ht
  rw [List.mem_mergeSort] at ht
  obtain ⟨s, -, hs⟩ := exists_of_mem_mapM hts ht
  rw [Target.ofStored] at hs
  split at hs
  · next tree htree =>
    cases hs
    exact PathTree.wellFormed_foldlM (t := {}) trivial htree
  · cases hs

theorem ofToml_eq_ok {s : String} {r : Registry} (h : ofToml s = .ok r) :
    ∃ version stored, (Toml.read s).bind storedOfValue? = some (version, stored) ∧
      ofStored version stored = .ok r := by
  rw [ofToml] at h
  split at h
  · cases h
  · next version stored hread =>
    split at h
    · next r' hr =>
      cases h
      exact ⟨version, stored, hread, hr⟩
    · cases h

theorem sorted_ofToml {s : String} {r : Registry} (h : ofToml s = .ok r) : r.Sorted := by
  obtain ⟨version, stored, -, hr⟩ := ofToml_eq_ok h
  exact sorted_ofStored hr

theorem wellFormed_ofToml {s : String} {r : Registry} (h : ofToml s = .ok r) : r.WellFormed := by
  obtain ⟨version, stored, -, hr⟩ := ofToml_eq_ok h
  exact wellFormed_ofStored hr

/-! ## No targets -/

theorem sorted_empty : ({} : Registry).Sorted :=
  List.Pairwise.nil

theorem separate_empty : ({} : Registry).Separate :=
  List.Pairwise.nil

theorem wellFormed_empty : ({} : Registry).WellFormed :=
  fun _ ht => absurd ht List.not_mem_nil

/-! ## After any edits -/

section
variable {r : Registry} (edits : List Edit)

theorem Sorted.after (h : r.Sorted) : (r.after edits).Sorted :=
  after_induction h fun _ _ _ _ => sorted_makes

theorem Separate.after (h : r.Separate) : (r.after edits).Separate :=
  after_induction h fun _ _ _ _ => separate_makes

theorem WellFormed.after (h : r.WellFormed) : (r.after edits).WellFormed :=
  after_induction h fun _ _ _ _ => wellFormed_makes

end

/-- A registry begun empty is sorted, its roots lie apart and its trees are well-formed after any
edits, the refused ones included. A registry that was read, from whatever text, is sorted and its
trees are well-formed, and both stay so. -/
theorem invariant_after_edits (edits : List Edit) :
    (after {} edits).Sorted ∧ (after {} edits).Separate ∧ (after {} edits).WellFormed ∧
      ∀ s r, ofToml s = .ok r →
        r.Sorted ∧ r.WellFormed ∧ (r.after edits).Sorted ∧ (r.after edits).WellFormed := by
  refine ⟨sorted_empty.after edits, separate_empty.after edits, wellFormed_empty.after edits,
    fun s r h => ?_⟩
  have hs := sorted_ofToml h
  have hw := wellFormed_ofToml h
  exact ⟨hs, hw, hs.after edits, hw.after edits⟩

/-- A stored registry whose targets are not in the order of their roots. -/
def sampleText : String :=
  "version='1'\n[[targets]]\nsource='h:b'\nroot='/b'\n[[targets]]\nsource='h:a'\nroot='/a'\n"

theorem invariant_after_edits_sample :
    let r : Registry := ⟨"1", [⟨"h:a", "/a", {}⟩, ⟨"h:b", "/b", {}⟩]⟩
    let edits : List Edit := [.decide .included "/b/Music", .add "h:" "/", .remove "/a/"]
    ofToml sampleText = .ok r ∧ (r.after edits).Sorted ∧ (r.after edits).WellFormed := by
  intro r edits
  have hread : (Toml.read sampleText).bind storedOfValue? =
      some ("1", [⟨"h:b", "/b", []⟩, ⟨"h:a", "/a", []⟩]) := by cbv
  have hstored : ofStored "1" [⟨"h:b", "/b", []⟩, ⟨"h:a", "/a", []⟩] = .ok r := by
    have htargets : [(⟨"h:b", "/b", []⟩ : StoredTarget), ⟨"h:a", "/a", []⟩].mapM Target.ofStored =
        .ok [⟨"h:b", "/b", {}⟩, ⟨"h:a", "/a", {}⟩] := rfl
    have horder : inOrder ⟨"h:b", "/b", {}⟩ ⟨"h:a", "/a", {}⟩ = false := by decide
    rw [ofStored, htargets]
    simp [Except.map, List.mergeSort, horder, r]
  have h : ofToml sampleText = .ok r := by
    rw [ofToml, hread]
    simp [hstored]
  obtain ⟨-, -, -, hafter⟩ := invariant_after_edits edits
  obtain ⟨-, -, hs, hw⟩ := hafter sampleText r h
  exact ⟨h, hs, hw⟩

end Registry
end SelectiveSync
