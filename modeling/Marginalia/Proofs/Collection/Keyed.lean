import Mathlib.Data.List.Nodup

set_option autoImplicit false

/-!
# Lists whose members are told apart by a key

In a list in which no two members have the same key, looking for a key finds the
member that has it.  The lists of a store are of this sort, by identifier and by
place, and so are the entries of an index.
-/

namespace Marginalia.Keyed

variable {α κ : Type} [BEq κ] [LawfulBEq κ] {key : α → κ} {l : List α}

/-- Looking for a key finds the member that has it. -/
theorem find?_eq_some_iff (h : (l.map key).Nodup) {k : κ} {a : α} :
    l.find? (fun b => key b == k) = some a ↔ a ∈ l ∧ key a = k := by
  constructor
  · intro hfind
    exact ⟨List.mem_of_find?_eq_some hfind, by simpa using List.find?_some hfind⟩
  · rintro ⟨ha, hk⟩
    cases hfind : l.find? (fun b => key b == k) with
    | none => exact absurd (List.find?_eq_none.1 hfind a ha) (by simpa using hk)
    | some b =>
      have hb : key b = k := by simpa using List.find?_some hfind
      rw [List.inj_on_of_nodup_map h (List.mem_of_find?_eq_some hfind) ha (hb.trans hk.symm)]

omit [BEq κ] [LawfulBEq κ] in
theorem nodup_filter (h : (l.map key).Nodup) (p : α → Bool) : ((l.filter p).map key).Nodup :=
  h.sublist (List.filter_sublist.map key)

end Marginalia.Keyed
