import SelectiveSync.Proofs.Path.Same
import SelectiveSync.Proofs.Registry.Locating

/-! # Roots as keys

Targets are looked up by their roots as written, while it is the normalized roots that must lie
apart. Roots that are the same as written lie apart only if they are twins, so that a root is a key
in every registry but those that have a target on each of two twins.

* `twins_of_same`: roots that lie apart and are the same are twins.
* `roots_are_keys`: when the roots of a registry begun empty are its keys.
* `twins_share_a_key`: the twins `/a` and `//a` of one registry. -/
namespace SelectiveSync
set_option autoImplicit false

namespace Registry

/-- The roots of two targets are the same as written but not as normalized paths. -/
def Clash (a b : Target) : Prop :=
  WrittenPath.same a.root b.root = true ∧
    (NormalPath.ofText a.root).Twins (NormalPath.ofText b.root)

theorem twins_of_same {a b : String} (hapart : Apart a b) (h : WrittenPath.same a b = true) :
    (NormalPath.ofText a).Twins (NormalPath.ofText b) := by
  refine (NormalPath.ofText_eq_or_twins h).resolve_left fun heq => ?_
  rw [Apart, heq, NormalPath.within_self] at hapart
  exact Bool.noConfusion hapart.1

/-- A root tells its target from all others. -/
structure Keyed (r : Registry) : Prop where
  distinct : r.targets.Pairwise fun a b => WrittenPath.same a.root b.root = false
  strict : r.targets.Pairwise fun a b => WrittenPath.order a.root b.root = .lt
  /-- However a root is written, the target it names is the one that has it. -/
  named : ∀ root t, r.get? root = some t ↔ t ∈ r.targets ∧ WrittenPath.same t.root root = true
  /-- A root names the target in which it is located. -/
  located : ∀ t ∈ r.targets, r.get? t.root = some t ∧ r.locate t.root = .ok (t, none)
  removed : ∀ root t s, r.remove root = .ok (t, s) → s.get? root = none

/-! ## Searches with one answer -/

section
variable {r : Registry}

theorem same_of_same {a b c : String} (ha : WrittenPath.same a c = true)
    (hb : WrittenPath.same b c = true) : WrittenPath.same a b = true := by
  rw [WrittenPath.same_iff] at ha hb ⊢
  rw [ha, hb]

/-- Behind the target on a root there is no second one on the same root. -/
theorem same_eq_false_of_mem {left right : List Target} {t u : Target} {root : String}
    (h : (left ++ t :: right).Pairwise fun a b => WrittenPath.same a.root b.root = false)
    (ht : WrittenPath.same t.root root = true) (hu : u ∈ right) :
    WrittenPath.same u.root root = false := by
  have htu := (List.pairwise_cons.1 (List.pairwise_append.1 h).2.1).1 u hu
  refine Bool.eq_false_iff.2 fun hsame => ?_
  rw [same_of_same ht hsame] at htu
  cases htu

variable (h : r.targets.Pairwise fun a b => WrittenPath.same a.root b.root = false)
include h

theorem get?_eq_some {root : String} {t : Target} :
    r.get? root = some t ↔ t ∈ r.targets ∧ WrittenPath.same t.root root = true := by
  constructor
  · intro hget
    rw [get?] at hget
    have hsame := List.find?_some hget
    exact ⟨List.mem_of_find?_eq_some hget, hsame⟩
  · rintro ⟨ht, hroot⟩
    obtain ⟨u, hu⟩ : ∃ u, r.get? root = some u :=
      Option.isSome_iff_exists.1 (List.find?_isSome.2 ⟨t, ht, hroot⟩)
    obtain ⟨husame, left, right, hts, hleft, -, -⟩ := exists_place hu
    rw [hts] at h ht
    rcases List.mem_append.1 ht with ht | ht
    · rw [hleft t ht] at hroot
      cases hroot
    · rcases List.mem_cons.1 ht with rfl | ht
      · exact hu
      · rw [same_eq_false_of_mem h husame ht] at hroot
        cases hroot

theorem get?_of_remove {root : String} {t : Target} {s : Registry}
    (hs : r.remove root = .ok (t, s)) : s.get? root = none := by
  rw [remove] at hs
  split at hs
  · cases hs
  · next u hu =>
    obtain ⟨hroot, left, right, hts, hleft, herase, -⟩ := exists_place hu
    cases hs
    rw [hts] at h
    refine List.find?_eq_none.2 fun v hv => ?_
    rw [herase] at hv
    refine Bool.eq_false_iff.1 ?_
    exact (List.mem_append.1 hv).elim (hleft v) (same_eq_false_of_mem h hroot)

end

/-! ## Registries begun empty -/

theorem order_eq_lt {a b : Target} (hle : WrittenPath.order a.root b.root ≠ .gt)
    (h : WrittenPath.same a.root b.root = false) : WrittenPath.order a.root b.root = .lt := by
  have hne : WrittenPath.order a.root b.root ≠ .eq := fun heq => by
    rw [WrittenPath.order_eq_eq_iff.1 heq] at h
    cases h
  cases ho : WrittenPath.order a.root b.root with
  | lt => rfl
  | eq => exact absurd ho hne
  | gt => exact absurd ho hle

/-- Where the roots lie apart, each is located in its own target. -/
theorem locate_root {r : Registry} (h : r.Separate) {t : Target} (ht : t ∈ r.targets) :
    r.locate t.root = .ok (t, none) := by
  have hempty : (NormalPath.ofText t.root).relativeTo? (NormalPath.ofText t.root) = some "" :=
    NormalPath.relativeTo?_eq_some.2 (by rw [if_pos rfl])
  rw [locate_of_mem h ht (NormalPath.within_self _), relative, hempty]
  rfl

theorem keyed_iff {r : Registry} (hsorted : r.Sorted) (hapart : r.Separate) :
    r.Keyed ↔ r.targets.Pairwise fun a b => ¬ Clash a b := by
  constructor
  · intro h
    refine h.distinct.imp fun hsame hclash => ?_
    rw [hclash.1] at hsame
    cases hsame
  · intro h
    have hdistinct : r.targets.Pairwise fun a b => WrittenPath.same a.root b.root = false :=
      (hapart.and h).imp fun ⟨hab, hclash⟩ => Bool.eq_false_iff.2 fun hsame =>
        hclash ⟨hsame, twins_of_same hab hsame⟩
    exact {
      distinct := hdistinct
      strict := (List.Pairwise.and hsorted hdistinct).imp fun ⟨hle, hsame⟩ => order_eq_lt hle hsame
      named := fun root t => get?_eq_some hdistinct
      located := fun t ht =>
        ⟨(get?_eq_some hdistinct).2 ⟨ht, WrittenPath.same_self _⟩, locate_root hapart ht⟩
      removed := fun root t s => get?_of_remove hdistinct }

/-- In a registry begun empty, after any edits, no two roots are the same unless they are twins, and
each is located in its own target. The roots are keys just when there are no twins among them, as is
the case if no root was added that names a network share. -/
theorem roots_are_keys (edits : List Edit) :
    ((after {} edits).targets.Pairwise fun a b => WrittenPath.same a.root b.root = true →
        (NormalPath.ofText a.root).Twins (NormalPath.ofText b.root)) ∧
      (∀ t ∈ (after {} edits).targets, (after {} edits).locate t.root = .ok (t, none)) ∧
      ((after {} edits).Keyed ↔ (after {} edits).targets.Pairwise fun a b => ¬ Clash a b) ∧
      ((∀ source root, Edit.add source root ∈ edits →
          (NormalPath.ofText root).anchor ≠ .network) → (after {} edits).Keyed) := by
  have hsorted : (after {} edits).Sorted := sorted_empty.after edits
  have hapart : (after {} edits).Separate := separate_empty.after edits
  have hkeyed := keyed_iff hsorted hapart
  refine ⟨hapart.imp fun hab => twins_of_same hab, fun t => locate_root hapart, hkeyed, fun h => ?_⟩
  have hroots := root_after (P := fun root => (NormalPath.ofText root).anchor ≠ .network) h
  refine hkeyed.2 (List.pairwise_of_forall_mem_list fun a ha b hb hclash => ?_)
  rcases hclash.2.anchors with ⟨-, hnetwork⟩ | ⟨hnetwork, -⟩
  · exact hroots b hb hnetwork
  · exact hroots a ha hnetwork

theorem roots_are_keys_sample :
    let edits : List Edit := [.add "h:/m/" "/data/./m", .add "h:/x/" "/srv", .remove "/srv/"]
    (∀ source root, Edit.add source root ∈ edits → (NormalPath.ofText root).anchor ≠ .network) ∧
      (after {} edits).Keyed := by
  intro edits
  have h : ∀ source root, Edit.add source root ∈ edits →
      (NormalPath.ofText root).anchor ≠ .network := by
    intro source root hmem
    simp only [edits, List.mem_cons, Edit.add.injEq, reduceCtorEq, List.not_mem_nil,
      or_false] at hmem
    rcases hmem with ⟨-, rfl⟩ | ⟨-, rfl⟩ <;> decide
  exact ⟨h, (roots_are_keys edits).2.2.2 h⟩

/-- Twins are the roots of two targets at once: the root `/a` names the target on `//a` and is
located in the one on `/a`, it is in no strict order with `//a`, and once it is removed it names a
target still. -/
theorem twins_share_a_key :
    let t : Target := ⟨"h:/m/", "/a", {}⟩
    let u : Target := ⟨"h:/n/", "//a", {}⟩
    let r := after {} [.add "h:/m/" "/a", .add "h:/n/" "//a"]
    r.targets = [u, t] ∧ WrittenPath.same u.root t.root = true ∧
      WrittenPath.order u.root t.root = .eq ∧ r.get? "/a" = some u ∧
      r.locate "/a" = .ok (t, none) ∧ r.remove "/a" = .ok (u, { r with targets := [t] }) ∧
      ({ r with targets := [t] } : Registry).get? "/a" = some t := by
  decide

end Registry
end SelectiveSync
