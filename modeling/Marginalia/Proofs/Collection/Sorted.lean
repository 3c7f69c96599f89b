import Mathlib.Order.Defs.LinearOrder

set_option autoImplicit false

/-!
# Lists that are sorted by a comparison

A list that is sorted by a comparison which is one of a linear order, up to what it does not
tell apart, never falls.
-/

namespace Marginalia.Sorted

variable {α : Type}

theorem isLE_or_isLE (cmp : α → α → Ordering) [h : Std.OrientedCmp cmp] (a b : α) :
    ((cmp a b).isLE || (cmp b a).isLE) = true := by
  rw [h.eq_swap (a := b)]
  cases cmp a b <;> rfl

theorem pairwise_mergeSort_isLE (cmp : α → α → Ordering) [Std.TransCmp cmp] (l : List α) :
    (l.mergeSort fun a b => (cmp a b).isLE).Pairwise fun a b => (cmp a b).isLE = true :=
  List.pairwise_mergeSort (fun _ _ _ => Std.TransCmp.isLE_trans) (isLE_or_isLE cmp) l

end Marginalia.Sorted
