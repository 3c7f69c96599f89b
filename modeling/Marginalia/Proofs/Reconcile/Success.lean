import Marginalia.Proofs.Reconcile.Outcome
import Marginalia.Proofs.Store.Granted

set_option autoImplicit false

/-!
# Passes that end well

A pass that ends well has read all that is in its scope and was granted all its calls, so
it has brought its outcome about, whatever the clock showed.  A pass that finds a note at
every place that it wants to write to adds none, and ends well as long as its listing can
be read.
-/

namespace Marginalia

/-! ## Listings that can be read -/

/-- When all notes can be listed, each of them can be read. -/
theorem Store.Holds.shows_of_all {s : Store} {ns notes : List Note} (h : s.Holds ns)
    (hall : s.all = .ok notes) : s.Shows ns := by
  refine ⟨h, fun n hn => ?_⟩
  have hrow : Row.ofNote n ∈ s.ordered.filter fun _ => true := by
    rw [List.filter_true, Store.ordered, List.mem_mergeSort, h.tables]
    exact List.mem_map.2 ⟨n, hn, rfl⟩
  obtain ⟨m, hm⟩ := exists_mapM_ok_iff.1 ⟨notes, hall⟩ _ hrow
  exact ((h.readRow_eq_ok_iff hn).1 hm).2

namespace Reconcile

variable {discovered : List Comment} {scope : Option String} {ns : List Note} {d : Desk}
  {report : Report}

/-- A full pass that ends well has read all notes. -/
theorem exists_all_of_pass
    (hok : ((pass discovered none).run Desk.answer d).1 = .ok report) :
    ∃ notes, d.store.all = .ok notes := by
  have hlist : Desk.answer (.list none) d = (d.store.all, d.after d.store) := rfl
  rw [pass, Script.run, hlist] at hok
  cases hall : d.store.all with
  | ok notes => exact ⟨notes, rfl⟩
  | error e =>
    rw [hall] at hok
    cases hok

/-! ## The plan -/

/-- Notes that can be read have a place for every call of the plan made for them. -/
theorem allHome_plan {existing : Index Note} (hread : ∀ p n, Note.at? ns p = some n →
      n.TimesWithin 0 9999) (hknows : Knows existing scope ns) :
    Call.AllHome ns (plan (wantedEntries discovered scope) existing) := by
  refine ⟨fun c hc => ?_, apart_plan hknows⟩
  cases (mem_plan_iff hknows).1 hc with
  | create _ _ hat => exact hat
  | update _ _ hat _ => exact ⟨rfl, _, hat, hread _ _ hat⟩
  | delete => trivial

/-- Where a note is at every place that is wanted, the plan adds none. -/
theorem isChange_of_mem_plan {existing : Index Note} (hknows : Knows existing scope ns)
    (hnotes : ∀ p c, p.isIn scope → firstAt discovered p = some c →
      ∃ n, Note.at? ns p = some n)
    {c : Call} (hc : c ∈ plan (wantedEntries discovered scope) existing) : c.IsChange := by
  cases (mem_plan_iff hknows).1 hc with
  | create hscope hfirst hnone =>
    obtain ⟨n, hat⟩ := hnotes _ _ hscope hfirst
    cases hnone.symm.trans hat
  | update => trivial
  | delete => trivial

/-! ## The pass -/

/-- The listing of a pass tells it the notes in scope, and they have a place for every
call of the plan that it makes. -/
theorem exists_listing_home (h : d.store.Shows ns) (discovered : List Comment)
    (scope : Option String) :
    ∃ notes : List Note, Desk.answer (.list scope) d = (.ok notes, d.after d.store) ∧
      Knows (known notes) scope ns ∧
      Call.AllHome ns (plan (wantedEntries discovered scope) (known notes)) := by
  obtain ⟨notes, hlist, hperm⟩ := Desk.answer_list h scope
  have hknows := knows_known h.toHolds hperm
  refine ⟨notes, hlist, hknows, allHome_plan (fun p n hat => ?_) hknows⟩
  exact h.readable n (h.at?_eq_some_iff.1 hat).1

/-- What a pass that ends well leaves at its desk. -/
structure Serves (discovered : List Comment) (scope : Option String) (d : Desk)
    (ns : List Note) (d' : Desk) (ns' : List Note) : Prop where
  holds : d'.store.Holds ns'
  outcome : Outcome discovered scope ns ns'
  /-- no note is changed more than once -/
  room : ∀ moves, (∀ k, (d.draws k).now.HasRoom moves) →
    (∀ n ∈ ns, n.HasRoom (moves + 1)) → ∀ n ∈ ns', n.HasRoom moves

/-- A pass that is granted its plan ends well and brings its outcome about. -/
theorem serves_of_grants {notes : List Note} (h : d.store.Shows ns) (hclock : d.HasClock)
    (hlist : Desk.answer (.list scope) d = (.ok notes, d.after d.store))
    (hknows : Knows (known notes) scope ns)
    (hhome : Call.AllHome ns (plan (wantedEntries discovered scope) (known notes)))
    (hgrants : Clerk.Grants Desk.answer (plan (wantedEntries discovered scope) (known notes))
      (d.after d.store)) :
    ∃ report d' ns', (pass discovered scope).run Desk.answer d = (.ok report, d') ∧
      Serves discovered scope d ns d' ns' := by
  obtain ⟨hrun, -, -⟩ := (follows_plan discovered scope notes).run_eq hgrants
  obtain ⟨ns', hholds, hleads⟩ := Desk.holds_serve (d := d.after d.store) h.toHolds
    (fun n => hclock (n + 1)) hhome hgrants
  refine ⟨_, _, ns', (run_pass hlist).trans hrun, hholds, ?_, ?_⟩
  · exact outcome_of_leads (fun p n hat => (h.at?_eq_some_iff.1 hat).2) hknows hleads.leads
  · exact fun moves hnow hroom => hleads.hasRoom h.toHolds hholds (fun k => hnow (k + 1)) hroom

/-- A pass that ends well has brought its outcome about. -/
theorem serves_of_ok {d' : Desk} (h : d.store.Shows ns) (hclock : d.HasClock)
    (hrun : (pass discovered scope).run Desk.answer d = (.ok report, d')) :
    ∃ ns', Serves discovered scope d ns d' ns' := by
  obtain ⟨notes, hlist, hknows, hhome⟩ := exists_listing_home h discovered scope
  have hok : ((write (wantedEntries discovered scope) (known notes) .empty).run Desk.answer
      (d.after d.store)).1 = .ok report := by
    rw [← run_pass hlist, hrun]
  have hgrants := (follows_plan discovered scope notes).grants_of_ok (d := d.after d.store)
    h.toHolds (fun n => hclock (n + 1)) hhome hok
  obtain ⟨report', d'', ns', hrun', hserves⟩ :=
    serves_of_grants h hclock hlist hknows hhome hgrants
  rw [hrun] at hrun'
  cases hrun'
  exact ⟨ns', hserves⟩

/-- A pass that finds a note wherever it wants to write ends well. -/
theorem exists_serves (h : d.store.Shows ns) (hclock : d.HasClock)
    (hnotes : ∀ p c, p.isIn scope → firstAt discovered p = some c →
      ∃ n, Note.at? ns p = some n) :
    ∃ report d' ns', (pass discovered scope).run Desk.answer d = (.ok report, d') ∧
      Serves discovered scope d ns d' ns' := by
  obtain ⟨notes, hlist, hknows, hhome⟩ := exists_listing_home h discovered scope
  refine serves_of_grants h hclock hlist hknows hhome ?_
  exact Desk.grants_of_isChange (d := d.after d.store) h.toHolds (fun n => hclock (n + 1)) hhome
    fun c hc => isChange_of_mem_plan hknows hnotes hc

/-! ## A file that is gone -/

/-- Removing the notes of a file does what a pass over the file does that is told of no
comment. -/
theorem exists_serves_purge (h : d.store.Shows ns) (filepath : String) :
    ∃ keys d' ns', (purge filepath).run Desk.answer d = (.ok keys, d') ∧
      Serves [] (some filepath) d ns d' ns' := by
  obtain ⟨notes, hlist, -⟩ := Desk.answer_list h (some filepath)
  have hat := Store.Holds.at?_filter ns fun q => q.1 != filepath
  have hin : ∀ p : Location, p.isIn (some filepath) = (p.1 == filepath) := fun _ => rfl
  refine ⟨_, _, ns.filter fun n => n.filepath != filepath,
    by simp only [purge, Script.run, hlist]; rfl, h.toHolds.of_deleteFile filepath,
    ⟨fun p hout => ?_, fun p hscope _ => ?_, fun _ _ _ _ hfirst => (nomatch hfirst),
      fun _ _ _ _ hfirst => (nomatch hfirst), fun _ _ _ hfirst => (nomatch hfirst)⟩,
    fun moves _ hroom n hn => ?_⟩
  · rw [hin, beq_eq_false_iff_ne] at hout
    exact (hat p).trans (if_pos (bne_iff_ne.2 hout))
  · rw [hin, beq_iff_eq] at hscope
    exact (hat p).trans (if_neg (by simp [hscope]))
  · obtain ⟨hcreated, hupdated⟩ := hroom n (List.mem_filter.1 hn).1
    exact ⟨hcreated, hupdated.mono (Nat.le_succ moves)⟩

end Reconcile

end Marginalia
