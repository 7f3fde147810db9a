import Mathlib.Order.Defs.LinearOrder
import SelectiveSync.Path.Written

/-! # The order of written paths

Paths compare part by part: the order is the lexicographic one over an order of the parts. It is
total and transitive, but two different texts may be equal in it, as `/a` and `/a/` are.

* `Part.order_eq`: parts compare by their rank first and by their name then.
* `order_eq_compareLex`: how paths compare, as an instance of the library's lexicographic order. -/
namespace SelectiveSync.WrittenPath
set_option autoImplicit false

namespace Part

/-- The name that a part is, or nothing. -/
def nameOrEmpty : Part → String
  | name text => text
  | _ => ""

theorem order_eq : order = compareLex (compareOn rank) (compareOn nameOrEmpty) := by
  funext a b
  cases a <;> cases b <;> rfl

instance : Std.TransCmp order := by
  rw [order_eq]
  infer_instance

end Part

theorem orderParts_eq : orderParts = List.compareLex Part.order := by
  funext a b
  induction a generalizing b with
  | nil => cases b <;> rfl
  | cons x a ih =>
    cases b with
    | nil => rfl
    | cons y b => rw [orderParts, List.compareLex_cons_cons, ih]

theorem order_eq_compareLex (a b : String) :
    order a b = List.compareLex Part.order (parts a) (parts b) := by
  rw [order, orderParts_eq]

instance : Std.TransCmp order where
  eq_swap {a b} := by
    rw [order_eq_compareLex, order_eq_compareLex]
    exact Std.OrientedCmp.eq_swap
  isLE_trans {a b c} := by
    simp only [order_eq_compareLex]
    exact Std.TransCmp.isLE_trans

end SelectiveSync.WrittenPath
