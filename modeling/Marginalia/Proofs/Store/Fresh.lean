import Marginalia.Proofs.Store.Granted
import Marginalia.Proofs.Store.Transaction

set_option autoImplicit false

/-!
# Fresh draws

When the clock shows good times and the identifiers to come are distinct and nobody's,
every call is fair, whichever calls are made: identifiers get into the tables by being
drawn only, and each is drawn once.
-/

namespace Marginalia

namespace Desk

/-- Whether the next draws are fresh. -/
structure Fresh (moves : Nat) (d : Desk) : Prop where
  clock : ∀ k < moves, (d.draws k).now.IsProper ∧ (d.draws k).now.YearWithin 0 9998
  unused : ∀ k < moves, (d.draws k).id.toText ∉ d.store.notes.map (·.id)
  apart : ∀ k < moves, ∀ j < k, (d.draws j).id ≠ (d.draws k).id

/-! ## Identifiers in the tables -/

theorem mem_ids_settle {d : Desk} {result : Except StoreError Store} {id : String} {drawn : Prop}
    (hresult : ∀ s, result = .ok s → id ∈ s.notes.map (·.id) →
      id ∈ d.store.notes.map (·.id) ∨ drawn)
    (h : id ∈ (d.settle result).2.store.notes.map (·.id)) :
    id ∈ d.store.notes.map (·.id) ∨ drawn := by
  cases result with
  | ok s => exact hresult s rfl h
  | error e => exact .inl h

/-- An identifier in the tables after a call was there before, or the call drew it. -/
theorem mem_ids_answer {c : Call} {d : Desk} {id : String}
    (h : id ∈ (answer c d).2.store.notes.map (·.id)) :
    id ∈ d.store.notes.map (·.id) ∨ id = (d.draws 0).id.toText := by
  cases c with
  | list scope => cases scope <;> exact .inl h
  | create draft =>
    refine mem_ids_settle (fun s hs hid => ?_) h
    rw [Store.notes_of_create hs, List.map_append, List.mem_append, List.map_singleton,
      List.mem_singleton] at hid
    exact hid
  | update filepath line draft =>
    refine mem_ids_settle (fun s hs hid => ?_) h
    obtain ⟨existing, -, hnotes⟩ := Store.notes_of_update hs
    rw [hnotes, Statement.map_id_reviseRows] at hid
    exact .inl hid
  | delete filepath line =>
    refine mem_ids_settle (fun s hs hid => ?_) h
    cases hs
    unfold Store.delete at hid
    split at hid
    · exact .inl ((List.filter_sublist.map _).subset hid)
    · exact .inl hid
  | deleteFile filepath =>
    refine mem_ids_settle (fun s hs hid => ?_) h
    cases hs
    exact .inl ((List.filter_sublist.map _).subset hid)

/-! ## Runs -/

namespace Fresh

variable {moves : Nat} {d : Desk} {clerk : Clerk Desk}

theorem mono {fewer : Nat} (h : Fresh moves d) (hle : fewer ≤ moves) : Fresh fewer d :=
  ⟨fun k hk => h.clock k (by omega), fun k hk => h.unused k (by omega),
    fun k hk => h.apart k (by omega)⟩

theorem isFair (h : Fresh (moves + 1) d) (c : Call) : IsFair c d := by
  obtain ⟨hproper, hyear⟩ := h.clock 0 (Nat.succ_pos moves)
  cases c with
  | create draft => exact ⟨hproper, hyear, h.unused 0 (Nat.succ_pos moves)⟩
  | update filepath line draft => exact ⟨hproper, hyear⟩
  | list scope => trivial
  | delete filepath line => trivial
  | deleteFile filepath => trivial

/-- A call uses up one draw, and what it leaves is fresh. -/
theorem answer (h : Fresh (moves + 1) d) (c : Call) : Fresh moves (Desk.answer c d).2 := by
  refine ⟨?_, ?_, ?_⟩
  · intro k hk
    rw [draws_answer]
    exact h.clock (k + 1) (Nat.succ_lt_succ hk)
  · intro k hk hmem
    rw [draws_answer] at hmem
    rcases mem_ids_answer hmem with hold | hdrawn
    · exact h.unused (k + 1) (Nat.succ_lt_succ hk) hold
    · have hne := h.apart (k + 1) (Nat.succ_lt_succ hk) 0 (Nat.succ_pos k)
      exact hne (NoteId.toText_injective hdrawn).symm
  · intro k hk j hj
    rw [draws_answer]
    exact h.apart (k + 1) (Nat.succ_lt_succ hk) (j + 1) (Nat.succ_lt_succ hj)

/-- Fresh draws are fair to a script that makes no more calls, also to one that is told
less than there is. -/
theorem always {α : Type} {s : Script α} (hclerk : ∀ c d, (clerk c d).2 = (Desk.answer c d).2)
    (h : Fresh moves d) (hcalls : (s.calls clerk d).length ≤ moves) :
    s.Always clerk IsFair d := by
  induction s generalizing d moves with
  | done a => trivial
  | call c next ih =>
    cases moves with
    | zero => exact absurd hcalls (Nat.not_succ_le_zero _)
    | succ moves =>
      refine ⟨h.isFair c, ih _ ?_ (Nat.le_of_succ_le_succ hcalls)⟩
      rw [hclerk]
      exact h.answer c

end Fresh

end Desk

end Marginalia
