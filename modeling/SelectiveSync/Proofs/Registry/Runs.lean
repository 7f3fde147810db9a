import Mathlib.Data.List.Infix
import SelectiveSync.Registry.Edit

/-! # Edits of a registry, one after the other

* `Edit.Makes` says all that an edit that succeeds checks and does; `makes_of_apply` is the only
  place that opens an edit.
* `Registry.after` is the registry after any edits, the refused ones included, and `after_induction`
  carries over to it what every edit keeps. -/
namespace SelectiveSync
set_option autoImplicit false

namespace Registry

/-! ## One target among others -/

theorem replaceFirst_append {p : Target → Bool} {left : List Target} {t : Target}
    (hleft : ∀ u ∈ left, p u = false) (hp : p t = true) (u : Target) (right : List Target) :
    replaceFirst p u (left ++ t :: right) = left ++ u :: right := by
  induction left with
  | nil => exact if_pos hp
  | cons x left ih =>
    have hx : ¬ p x = true := by simp [hleft x]
    rw [List.cons_append, replaceFirst, if_neg hx, ih fun v hv => hleft v (by simp [hv])]
    rfl

/-- The first target for which `p` holds stands between those before it and the rest, and it is this
place at which the list is changed. -/
theorem exists_place {p : Target → Bool} {ts : List Target} {t : Target} (h : ts.find? p = some t) :
    p t = true ∧ ∃ left right, ts = left ++ t :: right ∧ (∀ u ∈ left, p u = false) ∧
      ts.eraseP p = left ++ right ∧ ∀ u, replaceFirst p u ts = left ++ u :: right := by
  obtain ⟨hp, left, right, rfl, hnone⟩ := List.find?_eq_some_iff_append.1 h
  have hleft : ∀ u ∈ left, p u = false := fun u hu => by simpa using hnone u hu
  refine ⟨hp, left, right, rfl, hleft, ?_, fun u => replaceFirst_append hleft hp u right⟩
  rw [List.eraseP_append_right _ fun u hu => by simp [hleft u hu], List.eraseP_cons_of_pos hp]

end Registry

namespace Edit
open Registry

/-- What an edit that succeeds finds and does. -/
inductive Makes : Edit → Registry → Registry → Prop
  | add {r : Registry} (source root : String) (h : ∀ t ∈ r.targets, overlaps root t.root = false) :
      Makes (.add source root) r { r with
        targets := r.targets.takeWhile (before root) ++ ⟨source, root, {}⟩
          :: r.targets.dropWhile (before root) }
  | remove {r : Registry} {left right : List Target} {t : Target} (root : String)
      (h : r.targets = left ++ t :: right) (hroot : WrittenPath.same t.root root = true)
      (hleft : ∀ u ∈ left, WrittenPath.same u.root root = false) :
      Makes (.remove root) r { r with targets := left ++ right }
  | setSource {r : Registry} {left right : List Target} {t : Target} (root source : String)
      (h : r.targets = left ++ t :: right) (hroot : WrittenPath.same t.root root = true)
      (hleft : ∀ u ∈ left, WrittenPath.same u.root root = false) :
      Makes (.setSource root source) r { r with targets := left ++ { t with source } :: right }
  | decide {r : Registry} {left right : List Target} {t : Target} {tree : PathTree} {p : TreePath}
      (d : Decision) (path : String) (h : r.targets = left ++ t :: right)
      (hlocate : r.locate path = .ok (t, some p)) (htree : t.tree.decide d p = .ok tree) :
      Makes (.decide d path) r { r with targets := left ++ { t with tree } :: right }

end Edit

namespace Registry

/-- The target that a path is located in is the first that covers it. -/
theorem find?_of_locate {r : Registry} {path : String} {t : Target} {rel : Option TreePath}
    (h : r.locate path = .ok (t, rel)) :
    r.targets.find? (covers path) = some t ∧ relative t.root path = .ok rel := by
  rw [locate] at h
  split at h
  · cases h
  · next u hu =>
    cases hrel : relative u.root path with
    | error e =>
      rw [hrel] at h
      cases h
    | ok q =>
      rw [hrel] at h
      cases h
      exact ⟨hu, hrel⟩

/-- A decision on a path inside a target is made in the tree of that target and nowhere else. -/
theorem decide_of_locate {r : Registry} {path : String} {t : Target} {p : TreePath}
    (h : r.locate path = .ok (t, some p)) :
    ∃ left right, r.targets = left ++ t :: right ∧ ∀ d, r.decide d path =
      (t.tree.decide d p).map fun tree =>
        (p, { r with targets := left ++ { t with tree } :: right }) := by
  obtain ⟨-, left, right, hts, -, -, hreplace⟩ := exists_place (find?_of_locate h).1
  refine ⟨left, right, hts, fun d => ?_⟩
  rw [decide, editAt, h]
  simp only [Target.edit, hreplace]
  cases t.tree.decide d p <;> rfl

end Registry

namespace Edit
open Registry

theorem makes_of_apply {e : Edit} {r s : Registry} (h : e.apply r = .ok s) : e.Makes r s := by
  cases e with
  | add source root =>
    rw [apply, Registry.add] at h
    split at h
    · cases h
    · next hnone =>
      cases h
      refine .add source root fun t ht => ?_
      simpa using List.find?_eq_none.1 hnone t ht
  | remove root =>
    rw [apply, Registry.remove, get?] at h
    split at h
    · cases h
    · next t ht =>
      obtain ⟨hroot, left, right, hts, hleft, herase, -⟩ := exists_place ht
      cases h
      rw [herase]
      exact .remove root hts hroot hleft
  | setSource root source =>
    rw [apply, Registry.setSource, editTarget, get?] at h
    split at h
    · cases h
    · next t ht =>
      obtain ⟨hroot, left, right, hts, hleft, -, hreplace⟩ := exists_place ht
      cases h
      simp only [hreplace]
      exact .setSource root source hts hroot hleft
  | decide d path =>
    rw [apply] at h
    cases hloc : r.locate path with
    | error e =>
      rw [Registry.decide, editAt, hloc] at h
      cases h
    | ok found =>
      obtain ⟨t, _ | p⟩ := found
      · rw [Registry.decide, editAt, hloc] at h
        cases h
      · obtain ⟨left, right, hts, hdecide⟩ := decide_of_locate hloc
        rw [hdecide] at h
        cases htree : t.tree.decide d p with
        | error e =>
          rw [htree] at h
          cases h
        | ok tree =>
          rw [htree] at h
          cases h
          exact .decide d path hts hloc htree

end Edit

namespace Registry

/-! ## Runs -/

/-- The registry after an edit was asked for, which is the same registry if the edit is refused. -/
def attempt (r : Registry) (e : Edit) : Registry :=
  match e.apply r with
  | .ok s => s
  | .error _ => r

/-- The registry after some edits, one after the other. -/
def after (r : Registry) (edits : List Edit) : Registry :=
  edits.foldl attempt r

/-- What holds at first and is kept by each of some edits holds after them. -/
theorem after_induction {P : Registry → Prop} {edits : List Edit} {r : Registry} (h : P r)
    (hstep : ∀ e ∈ edits, ∀ r s : Registry, P r → e.Makes r s → P s) : P (r.after edits) := by
  induction edits generalizing r with
  | nil => exact h
  | cons e edits ih =>
    refine ih (r := r.attempt e) ?_ fun e he => hstep e (List.mem_cons_of_mem _ he)
    rw [attempt]
    cases hs : e.apply r with
    | ok s => exact hstep e (by simp) r s h (Edit.makes_of_apply hs)
    | error _ => exact h

end Registry
end SelectiveSync
