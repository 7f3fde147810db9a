import Mathlib.Data.List.Infix
import SelectiveSync.Tree.Forest

/-! # What a path holds, and how changes show

`decisionAt` is the one view of a forest that the statements on changes use: the decision at a path,
`undecided` where there is no node. Together with `belowAt`, the forest beneath a path, it says all
that an operation on another path can observe.

* `decisionAt_edit`: a change at `p` shows at `p` and beneath it and nowhere else.
* `decisionAt_settle` and `decisionAt_mark` are its two cases. -/
namespace SelectiveSync
set_option autoImplicit false

namespace Forest

/-- The decision at a path. -/
def decisionAt (f : Forest) (p : List String) : Decision :=
  ((f.get? p).map Node.decision).getD .undecided

/-- The nodes right beneath a path. -/
def belowAt (f : Forest) (p : List String) : Forest :=
  ((f.get? p).map Node.below).getD .empty

/-! ## Siblings -/

theorem find?_eq_none {s : String} {f : Forest} : f.find? s = none ↔ s ∉ f.names := by
  induction f with
  | empty => simp [find?, names]
  | node n d below beside _ ih =>
    by_cases hn : n = s
    · simp [find?, names, hn]
    · simp [find?, names, hn, Ne.symm hn, ih]

theorem mem_names_update {s t : String} {g : Decision → Forest → Decision × Forest} {f : Forest} :
    t ∈ (f.update s g).names ↔ t = s ∨ t ∈ f.names := by
  induction f with
  | empty => simp [update, names]
  | node n d below beside _ ih =>
    by_cases hn : n = s
    · simp [update, names, hn]
    · simp [update, names, hn, ih]
      tauto

/-! ## One step down -/

theorem get?_empty (p : List String) : Forest.empty.get? p = none := by
  match p with
  | [] => rfl
  | [s] => rfl
  | s :: t :: rest => rfl

@[simp] theorem decisionAt_nil (f : Forest) : f.decisionAt [] = .undecided := rfl

theorem ne_nil_of_decided {f : Forest} {p : List String} (h : f.decisionAt p ≠ .undecided) :
    p ≠ [] := by
  rintro rfl
  exact h rfl

@[simp] theorem decisionAt_empty (p : List String) : Forest.empty.decisionAt p = .undecided := by
  rw [decisionAt, get?_empty]; rfl

@[simp] theorem belowAt_empty (p : List String) : Forest.empty.belowAt p = .empty := by
  rw [belowAt, get?_empty]; rfl

theorem get?_cons (s : String) (p : List String) (hp : p ≠ []) (f : Forest) :
    f.get? (s :: p) = (f.belowAt [s]).get? p := by
  cases p with
  | nil => exact absurd rfl hp
  | cons t rest =>
    rw [get?, belowAt, get?]
    cases f.find? s with
    | none => exact (get?_empty _).symm
    | some n => rfl

theorem decisionAt_cons (s : String) (p : List String) (hp : p ≠ []) (f : Forest) :
    f.decisionAt (s :: p) = (f.belowAt [s]).decisionAt p := by
  rw [decisionAt, get?_cons s p hp, decisionAt]

theorem belowAt_cons (s : String) (p : List String) (hp : p ≠ []) (f : Forest) :
    f.belowAt (s :: p) = (f.belowAt [s]).belowAt p := by
  rw [belowAt, get?_cons s p hp]
  rfl

theorem decisionAt_append (p q : List String) (hp : p ≠ []) (hq : q ≠ []) (f : Forest) :
    f.decisionAt (p ++ q) = (f.belowAt p).decisionAt q := by
  induction p generalizing f with
  | nil => exact absurd rfl hp
  | cons s p ih =>
    cases p with
    | nil => exact decisionAt_cons s q hq f
    | cons t rest =>
      rw [List.cons_append, decisionAt_cons s _ (by simp), ih (by simp), ← belowAt_cons s _ (by simp)]

theorem get?_node (s : String) (p : List String) (n : String) (d : Decision)
    (below beside : Forest) :
    (node n d below beside).get? (s :: p) =
      if n = s then if p = [] then some ⟨n, d, below⟩ else below.get? p else beside.get? (s :: p) := by
  cases p with
  | nil => by_cases hn : n = s <;> simp [get?, find?, hn]
  | cons t rest => by_cases hn : n = s <;> simp [get?, find?, hn]

theorem decisionAt_node (s : String) (p : List String) (n : String) (d : Decision)
    (below beside : Forest) :
    (node n d below beside).decisionAt (s :: p) =
      if n = s then if p = [] then d else below.decisionAt p else beside.decisionAt (s :: p) := by
  rw [decisionAt, get?_node]
  split
  · split <;> rfl
  · rfl

theorem belowAt_node (s : String) (p : List String) (n : String) (d : Decision)
    (below beside : Forest) :
    (node n d below beside).belowAt (s :: p) =
      if n = s then if p = [] then below else below.belowAt p else beside.belowAt (s :: p) := by
  rw [belowAt, get?_node]
  split
  · split <;> rfl
  · rfl

theorem get?_of_not_mem {s : String} {f : Forest} (h : s ∉ f.names) (p : List String) :
    f.get? (s :: p) = none := by
  have hf := find?_eq_none.2 h
  cases p with
  | nil => exact hf
  | cons t rest => rw [get?, hf, Option.bind_none]

theorem decisionAt_of_not_mem {s : String} {f : Forest} (h : s ∉ f.names) (p : List String) :
    f.decisionAt (s :: p) = .undecided := by
  rw [decisionAt, get?_of_not_mem h]
  rfl

/-! ## Changes -/

section
variable (g : Decision → Forest → Decision × Forest)

theorem find?_update_self (s : String) (f : Forest) :
    (f.update s g).find? s =
      some ⟨s, (g (f.decisionAt [s]) (f.belowAt [s])).1, (g (f.decisionAt [s]) (f.belowAt [s])).2⟩ := by
  induction f with
  | empty => simp [update, find?]
  | node n d below beside _ ih =>
    by_cases hn : n = s
    · simp [update, find?, hn, decisionAt, belowAt, get?]
    · simp only [decisionAt, belowAt, get?, find?, update, hn, if_false] at ih ⊢
      exact ih

theorem find?_update_ne {s t : String} (h : t ≠ s) (f : Forest) :
    (f.update s g).find? t = f.find? t := by
  induction f with
  | empty => simp [update, find?, Ne.symm h]
  | node n d below beside _ ih =>
    by_cases hn : n = s
    · subst hn
      simp [update, find?, Ne.symm h]
    · simp [update, find?, hn, ih]

theorem get?_update_ne {s t : String} (h : t ≠ s) (f : Forest) (p : List String) :
    (f.update s g).get? (t :: p) = f.get? (t :: p) := by
  cases p with
  | nil => exact find?_update_ne g h f
  | cons u rest => rw [get?, get?, find?_update_ne g h]

theorem belowAt_update_self (s : String) (f : Forest) :
    (f.update s g).belowAt [s] = (g (f.decisionAt [s]) (f.belowAt [s])).2 := by
  rw [belowAt, get?, find?_update_self]
  rfl

theorem decisionAt_update_self (s : String) (f : Forest) (p : List String) :
    (f.update s g).decisionAt (s :: p) =
      if p = [] then (g (f.decisionAt [s]) (f.belowAt [s])).1
      else (g (f.decisionAt [s]) (f.belowAt [s])).2.decisionAt p := by
  by_cases hp : p = []
  · simp only [hp, if_true]
    rw [decisionAt, get?, find?_update_self]
    rfl
  · rw [if_neg hp, decisionAt_cons s p hp, belowAt_update_self]

theorem decisionAt_update_ne {s t : String} (h : t ≠ s) (f : Forest) (p : List String) :
    (f.update s g).decisionAt (t :: p) = f.decisionAt (t :: p) := by
  rw [decisionAt, get?_update_ne g h, decisionAt]

theorem edit_cons (s : String) (p : List String) (hp : p ≠ []) (f : Forest) :
    edit g (s :: p) f = f.update s fun d below => (d, edit g p below) := by
  cases p with
  | nil => exact absurd rfl hp
  | cons t rest => rfl

/-- A change at a path shows there and beneath it, and everything else is what it was. -/
theorem decisionAt_edit (p : List String) (hp : p ≠ []) (f : Forest) (q : List String) :
    (edit g p f).decisionAt q =
      if q = p then (g (f.decisionAt p) (f.belowAt p)).1
      else if p <+: q then (g (f.decisionAt p) (f.belowAt p)).2.decisionAt (q.drop p.length)
      else f.decisionAt q := by
  induction p generalizing f q with
  | nil => exact absurd rfl hp
  | cons s p ih =>
    cases q with
    | nil => simp
    | cons t q =>
      by_cases hts : t = s
      · subst hts
        cases p with
        | nil =>
          rw [edit, decisionAt_update_self]
          by_cases hq : q = [] <;> simp [hq]
        | cons u rest =>
          rw [edit_cons g t _ (by simp), decisionAt_update_self]
          by_cases hq : q = []
          · simp [hq]
          · rw [if_neg hq, ih (by simp), ← decisionAt_cons t _ (by simp),
              ← belowAt_cons t _ (by simp), ← decisionAt_cons t q hq]
            simp [List.cons_prefix_cons]
      · have hne : ¬ s :: p <+: t :: q := fun h => hts (List.cons_prefix_cons.1 h).1.symm
        have hedit : (edit g (s :: p) f).decisionAt (t :: q) = f.decisionAt (t :: q) := by
          cases p with
          | nil => exact decisionAt_update_ne _ hts f q
          | cons u rest => exact decisionAt_update_ne _ hts f q
        rw [hedit, if_neg (by simp [hts]), if_neg hne]

theorem edit_ne_empty (p : List String) (hp : p ≠ []) (f : Forest) : edit g p f ≠ .empty := by
  have hupdate (s : String) (h : Decision → Forest → Decision × Forest) :
      f.update s h ≠ .empty := by
    cases f with
    | empty => simp [update]
    | node n d below beside =>
      by_cases hn : n = s <;> simp [update, hn]
  cases p with
  | nil => exact absurd rfl hp
  | cons s p =>
    cases p with
    | nil => exact hupdate s _
    | cons t rest => exact hupdate s _

end

theorem decisionAt_settle (d : Decision) (p : List String) (hp : p ≠ []) (f : Forest)
    (q : List String) :
    (f.settle d p).decisionAt q =
      if q = p then d else if p <+: q then .undecided else f.decisionAt q := by
  rw [settle, decisionAt_edit _ p hp]
  simp

theorem decisionAt_mark (d : Decision) (p : List String) (hp : p ≠ []) (f : Forest)
    (q : List String) :
    (f.mark d p).decisionAt q = if q = p then d else f.decisionAt q := by
  rw [mark, decisionAt_edit _ p hp]
  by_cases hq : q = p
  · simp [hq]
  · rw [if_neg hq, if_neg hq]
    split
    · next h =>
      obtain ⟨r, rfl⟩ := h
      have hr : r ≠ [] := by
        rintro rfl
        exact hq (List.append_nil p)
      rw [List.drop_left, decisionAt_append p r hp hr]
    · rfl

end Forest
end SelectiveSync
