import Marginalia.Proofs.Collection.Sorted
import Marginalia.Proofs.Discovery.Reading

set_option autoImplicit false

/-!
# The order of paths

Paths are compared part by part, which is a linear order of their parts.  So paths that are
told apart rise strictly once they are sorted.
-/

namespace Marginalia.Path

namespace Part

theorem compare_eq (a b : Part) :
    a.compare b = (Ord.compare a.rank b.rank).then (Ord.compare a.bytes b.bytes) := by
  cases a <;> cases b <;> rfl

theorem compare_eq_compareLex : compare = compareLex (compareOn rank) (compareOn bytes) :=
  funext fun a => funext fun b => compare_eq a b

instance : Std.TransCmp compare := by
  rw [compare_eq_compareLex]
  infer_instance

instance : Std.LawfulEqCmp compare where
  eq_of_compare {a b} h := by
    rw [compare_eq, Ordering.then_eq_eq, Std.LawfulEqOrd.compare_eq_iff_eq,
      Std.LawfulEqOrd.compare_eq_iff_eq] at h
    obtain ⟨hrank, htext⟩ := h
    cases a <;> cases b <;> simp_all [rank, bytes]

end Part

theorem compareParts_eq (a b : List Part) :
    compareParts a b = List.compareLex Part.compare a b := by
  induction a generalizing b with
  | nil => cases b <;> rfl
  | cons p a ih =>
    cases b with
    | nil => rfl
    | cons q b => rw [compareParts, List.compareLex_cons_cons, ih]

theorem compareParts_eq_compareLex : compareParts = List.compareLex Part.compare :=
  funext fun a => funext fun b => compareParts_eq a b

instance : Std.TransCmp compareParts := by
  rw [compareParts_eq_compareLex]
  infer_instance

instance : Std.LawfulEqCmp compareParts := by
  rw [compareParts_eq_compareLex]
  infer_instance

instance : Std.TransCmp fun a b : Path => compareParts a.parts b.parts where
  eq_swap := Std.OrientedCmp.eq_swap
  isLE_trans := Std.TransCmp.isLE_trans

/-- Whether a path comes before another one. -/
def Precedes (a b : Path) : Prop := compareParts a.parts b.parts = .lt

theorem precedes_of_notAfter {a b : Path} (hle : a.notAfter b = true) (hne : a.same b = false) :
    a.Precedes b := by
  unfold notAfter at hle
  unfold Precedes
  cases hcompare : compareParts a.parts b.parts with
  | lt => rfl
  | eq =>
    have hsame : a.parts = b.parts := Std.LawfulEqCmp.eq_of_compare hcompare
    rw [same, hsame, beq_self_eq_true] at hne
    cases hne
  | gt =>
    rw [hcompare] at hle
    cases hle

/-- Paths that are told apart rise strictly once they are sorted. -/
theorem Apart.pairwise_precedes {l : List Path} (h : Apart l) :
    (l.mergeSort notAfter).Pairwise Precedes := by
  have hsorted := Sorted.pairwise_mergeSort_isLE (fun a b : Path => compareParts a.parts b.parts) l
  have hapart : Apart (l.mergeSort notAfter) := h.perm (List.mergeSort_perm l _).symm
  exact (hsorted.and hapart).imp fun hboth => precedes_of_notAfter hboth.1 hboth.2

end Marginalia.Path
