import Marginalia.Proofs.Reconcile.Outcome
import Marginalia.Proofs.Store.Fresh

set_option autoImplicit false

/-!
# What a pass draws

A pass makes one call for its listing and then at most one for each comment that it
wants and one for each note that it knows.  So as many fresh draws are fair to it.
-/

namespace Marginalia.Reconcile

theorem length_plan_le (entries : List (String × Comment)) (existing : Index Note) :
    (plan entries existing).length ≤ entries.length + existing.entries.length := by
  rw [plan, List.length_append, List.length_map]
  exact Nat.add_le_add (List.length_filterMap_le _ _) (List.length_filter_le _ _)

theorem length_wanted_le (discovered : List Comment) (scope : Option String) :
    (wantedEntries discovered scope).length ≤ discovered.length := by
  have hentries := Index.length_ofListFirst_le
    ((discovered.filter (inScope scope)).map fun c => (c.key, c))
  rw [List.length_map] at hentries
  exact hentries.trans (List.length_filter_le _ _)

theorem length_known_le (notes : List Note) : (known notes).entries.length ≤ notes.length := by
  have hentries := Index.length_ofList_le (notes.map fun n => (n.key, n))
  rwa [List.length_map] at hentries

/-- As many fresh draws as there are comments discovered and notes listed, and one for the
listing, are fair to a pass. -/
theorem always_pass_of_fresh {clerk : Clerk Desk} {discovered : List Comment}
    {scope : Option String} {notes : List Note} {d : Desk}
    (hclerk : ∀ c d, (clerk c d).2 = (Desk.answer c d).2)
    (hlist : clerk (.list scope) d = (.ok notes, d.after d.store))
    (h : d.Fresh (discovered.length + notes.length + 1)) :
    (pass discovered scope).Always clerk Desk.IsFair d := by
  refine h.always hclerk ?_
  rw [calls_pass hlist, List.length_cons]
  have hcalls := isPrefix_calls_write clerk (wanted discovered scope).nodup_keys (known notes)
    .empty (d.after d.store)
  refine Nat.succ_le_succ (hcalls.length_le.trans ((length_plan_le _ _).trans ?_))
  exact Nat.add_le_add (length_wanted_le discovered scope) (length_known_le notes)

/-- As many fresh draws as there are comments discovered and notes shown, and one for the
listing, are fair to a pass. -/
theorem always_pass_of_shows {discovered : List Comment} {ns : List Note} {d : Desk}
    (hshows : d.store.Shows ns) (h : d.Fresh (discovered.length + ns.length + 1))
    (scope : Option String) : (pass discovered scope).Always Desk.answer Desk.IsFair d := by
  obtain ⟨notes, hlist, hperm⟩ := Desk.answer_list hshows scope
  have hnotes : notes.length ≤ ns.length :=
    hperm.length_eq.trans_le (List.length_filter_le _ _)
  exact always_pass_of_fresh (fun _ _ => rfl) hlist (h.mono (by omega))

theorem always_prune (notes : List (String × Note)) (report : Report) (d : Desk) :
    (prune notes report).Always Desk.answer Desk.IsFair d := by
  induction notes generalizing report d with
  | nil => trivial
  | cons e notes ih =>
    obtain ⟨key, n⟩ := e
    refine ⟨trivial, ?_⟩
    cases (Desk.answer (.delete n.filepath n.line) d).1 with
    | ok _ => exact ih _ _
    | error e => trivial

/-- A pass without comments in its scope removes notes only, and needs no draws. -/
theorem always_pass_of_unasked {discovered : List Comment} {scope : Option String}
    (h : ∀ c ∈ discovered, inScope scope c = false) (d : Desk) :
    (pass discovered scope).Always Desk.answer Desk.IsFair d := by
  have hwanted : wantedEntries discovered scope = [] := by
    rw [wantedEntries, wanted, List.filter_eq_nil_iff.2 fun c hc => by simp [h c hc]]
    rfl
  refine ⟨trivial, ?_⟩
  cases (Desk.answer (.list scope) d).1 with
  | ok notes =>
    simp only [hwanted, write]
    exact always_prune _ _ _
  | error e => trivial

end Marginalia.Reconcile
