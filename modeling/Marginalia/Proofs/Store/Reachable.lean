import Marginalia.Proofs.Store.Change

set_option autoImplicit false

/-!
# Stores that the operations lead to

A store is reachable when the operations of the store made it out of the empty
one.  An operation that fails changes nothing, and opening a store again finds
the tables as they were, so neither is a step of its own.
-/

namespace Marginalia.Store

open Marginalia.Time (Instant)

/-- A store that operations made out of the empty one.  Any note may be created and
any draft written over a note; the times are those of clocks. -/
inductive Reachable : Store → Prop
  | empty : Reachable .empty
  | create {s s' : Store} {n : Note} (before : Reachable s) (created : n.createdAt.IsProper)
      (updated : n.updatedAt.IsProper) (granted : s.create n = .ok s') : Reachable s'
  | update {s s' : Store} {filepath : String} {line : UInt32} {d : Draft} {now : Instant}
      (before : Reachable s) (clock : now.IsProper)
      (granted : s.update filepath line d now = .ok s') : Reachable s'
  | delete {s : Store} (before : Reachable s) (filepath : String) (line : UInt32) :
      Reachable (s.delete filepath line)
  | deleteFile {s : Store} (before : Reachable s) (filepath : String) :
      Reachable (s.deleteFile filepath)

/-! ## What one operation keeps -/

namespace Holds

variable {s s' : Store} {ns : List Note}

theorem of_create (h : s.Holds ns) {n : Note} (hc : n.createdAt.IsProper)
    (hu : n.updatedAt.IsProper) (hcreate : s.create n = .ok s') : ∃ ns', s'.Holds ns' := by
  rw [h.create_eq] at hcreate
  split at hcreate
  · cases hcreate
  · rename_i hplace
    split at hcreate
    · cases hcreate
    · rename_i hid
      cases hcreate
      exact ⟨_, h.append hc hu hplace hid⟩

theorem of_update (h : s.Holds ns) {filepath : String} {line : UInt32} {d : Draft}
    {now : Instant} (hnow : now.IsProper) (hupdate : s.update filepath line d now = .ok s') :
    ∃ ns', s'.Holds ns' := by
  obtain ⟨n, hat, hread⟩ := h.readable_of_update hupdate
  have hkept := h.kept n (h.at?_eq_some_iff.1 hat).1
  rw [h.update_eq hat hread] at hupdate
  split at hupdate
  · cases hupdate
  · rename_i hfree
    cases hupdate
    exact ⟨_, h.revise (hnow.latest hkept.2.1.nextMicro).isKept_cutToMicros hfree⟩

theorem of_delete (h : s.Holds ns) (filepath : String) (line : UInt32) :
    (s.delete filepath line).Holds (ns.filter fun n => n.place != (filepath, line)) := by
  rw [h.delete_eq]
  exact h.filter _

theorem of_deleteFile (h : s.Holds ns) (filepath : String) :
    (s.deleteFile filepath).Holds (ns.filter fun n => n.filepath != filepath) := by
  rw [h.deleteFile_eq]
  exact h.filter _

end Holds

/-! ## What every run keeps -/

/-- The tables of a reachable store describe notes that are told apart by their
identifiers and by their places. -/
theorem Reachable.holds {s : Store} (h : s.Reachable) : ∃ ns, s.Holds ns := by
  induction h with
  | empty => exact ⟨[], .empty⟩
  | create _ hc hu hcreate ih =>
    obtain ⟨ns, h⟩ := ih
    exact h.of_create hc hu hcreate
  | update _ hnow hupdate ih =>
    obtain ⟨ns, h⟩ := ih
    exact h.of_update hnow hupdate
  | delete _ filepath line ih =>
    obtain ⟨ns, h⟩ := ih
    exact ⟨_, h.of_delete filepath line⟩
  | deleteFile _ filepath ih =>
    obtain ⟨ns, h⟩ := ih
    exact ⟨_, h.of_deleteFile filepath⟩

/-! ## Stored times -/

/-- Whether all stored times can be read and lie in the years between two. -/
def TimesWithin (first last : Int) (s : Store) : Prop :=
  ∀ r ∈ s.notes,
    (∃ t, Instant.read? r.createdAt.toList = some t ∧ t.YearWithin first last) ∧
      ∃ t, Instant.read? r.updatedAt.toList = some t ∧ t.YearWithin first last

theorem Holds.timesWithin {s : Store} {ns : List Note} (h : s.Holds ns) {first last : Int}
    (hs : s.TimesWithin first last) : ∀ n ∈ ns, n.TimesWithin first last := by
  intro n hn
  have hrow : Row.ofNote n ∈ s.notes := by
    rw [h.tables]
    exact List.mem_map.2 ⟨n, hn, rfl⟩
  obtain ⟨⟨c, hc, hcyear⟩, u, hu, huyear⟩ := hs _ hrow
  have hcreated := ((Instant.read?_toStoredText_iff (h.kept n hn).1).1 hc).1
  have hupdated := ((Instant.read?_toStoredText_iff (h.kept n hn).2).1 hu).1
  exact ⟨hcreated ▸ hcyear, hupdated ▸ huyear⟩

end Marginalia.Store
