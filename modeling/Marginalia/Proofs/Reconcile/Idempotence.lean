import Mathlib.Data.List.Dedup
import Marginalia.Proofs.Reconcile.Convergence

set_option autoImplicit false

/-!
# A second pass does nothing

After a pass every comment that counts is agreed with and nothing is stale, so a
pass over the same comments, in whatever order they come, has nothing left to
call.  It counts each place of a comment in scope as unchanged.
-/

namespace Marginalia.Reconcile

variable {discovered again : List Comment} {scope : Option String} {ns : List Note}
  {existing : Index Note}

/-! ## Settled notes -/

/-- Notes that a pass has nothing to do for: where a comment counts there is a note
that agrees with it, and elsewhere in scope there is none. -/
structure Settled (discovered : List Comment) (scope : Option String) (ns : List Note) :
    Prop where
  agreed : ∀ p c, p.isIn scope → firstAt discovered p = some c →
    ∃ n, Note.at? ns p = some n ∧ agrees n c = true
  bare : ∀ p, p.isIn scope → firstAt discovered p = none → Note.at? ns p = none

theorem Outcome.settled {ns ns' : List Note} (h : Outcome discovered scope ns ns') :
    Settled discovered scope ns' :=
  ⟨fun _ _ hscope hfirst => h.exists_agrees hscope hfirst, h.pruned⟩

theorem Settled.of_firstAt (h : Settled discovered scope ns)
    (hsame : ∀ p, firstAt again p = firstAt discovered p) : Settled again scope ns := by
  refine ⟨fun p c hscope hfirst => ?_, fun p hscope hfirst => ?_⟩
  · exact h.agreed p c hscope (hsame p ▸ hfirst)
  · exact h.bare p hscope (hsame p ▸ hfirst)

theorem Settled.changeable (h : Settled discovered scope ns) :
    Changeable discovered scope ns := by
  intro p c n hscope hfirst hat hagrees
  obtain ⟨m, hm, hagreed⟩ := h.agreed p c hscope hfirst
  rw [hat, Option.some.injEq] at hm
  rw [hm, hagreed] at hagrees
  cases hagrees

/-- The note under the key of a wanted comment agrees with it. -/
theorem Settled.exists_get? (h : Settled discovered scope ns) (hknows : Knows existing scope ns)
    {e : String × Comment} (he : e ∈ wantedEntries discovered scope) :
    ∃ n, existing.get? e.1 = some n ∧ agrees n e.2 = true := by
  obtain ⟨hkey, hscope, hfirst⟩ := mem_wanted.1 he
  rw [hkey, hknows.get?, if_pos hscope]
  exact h.agreed _ _ hscope hfirst

theorem Settled.stale_eq_nil (h : Settled discovered scope ns)
    (hknows : Knows existing scope ns) : stale (wantedEntries discovered scope) existing = [] := by
  refine List.eq_nil_iff_forall_not_mem.2 fun e he => ?_
  obtain ⟨hkey, hscope, hfirst⟩ := mem_stale hknows he
  have hget := (Index.mem_entries_iff existing e.1 e.2).1 (List.mem_filter.1 he).1
  rw [hkey, hknows.get?, if_pos hscope, h.bare _ hscope hfirst] at hget
  cases hget

theorem Settled.plan_eq_nil (h : Settled discovered scope ns) (hknows : Knows existing scope ns) :
    plan (wantedEntries discovered scope) existing = [] := by
  have hcalls : (wantedEntries discovered scope).filterMap (callFor? existing) = [] := by
    refine List.filterMap_eq_nil_iff.2 fun e he => ?_
    obtain ⟨n, hget, hagrees⟩ := h.exists_get? hknows he
    simp only [callFor?, hget, hagrees, if_true]
  rw [plan, hcalls, h.stale_eq_nil hknows]
  rfl

theorem Settled.tally_eq (h : Settled discovered scope ns) (hknows : Knows existing scope ns) :
    tally (wantedEntries discovered scope) existing =
      ⟨0, 0, (wantedEntries discovered scope).length, []⟩ := by
  rw [tally, h.stale_eq_nil hknows]
  simp only [Report.mk.injEq, List.map_nil, and_true]
  refine ⟨List.countP_eq_zero.2 fun e he => ?_, List.countP_eq_zero.2 fun e he => ?_,
    List.countP_eq_length.2 fun e he => ?_⟩
  all_goals
    obtain ⟨n, hget, hagrees⟩ := h.exists_get? hknows he
    simp [hget, hagrees]

/-! ## Counting places -/

/-- The places of the comments in scope, each once. -/
def placesIn (discovered : List Comment) (scope : Option String) : List Location :=
  ((discovered.filter (inScope scope)).map Comment.place).dedup

theorem mem_placesIn_iff {p : Location} :
    p ∈ placesIn discovered scope ↔ p.isIn scope ∧ ∃ c, firstAt discovered p = some c := by
  rw [placesIn, List.mem_dedup, List.mem_map, exists_firstAt_iff]
  constructor
  · rintro ⟨c, hc, rfl⟩
    obtain ⟨hmem, hscope⟩ := List.mem_filter.1 hc
    exact ⟨hscope, c, hmem, rfl⟩
  · rintro ⟨hscope, c, hmem, rfl⟩
    exact ⟨c, List.mem_filter.2 ⟨hmem, hscope⟩, rfl⟩

/-- A pass wants one comment for each place of a comment in scope. -/
theorem perm_places_wanted (discovered : List Comment) (scope : Option String) :
    ((wantedEntries discovered scope).map (·.2.place)).Perm (placesIn discovered scope) := by
  have hkeys : ∀ e ∈ wantedEntries discovered scope, e.1 = e.2.place.key :=
    fun _ => key_of_mem_wanted
  have hnodup := nodup_places hkeys (wanted discovered scope).nodup_keys
  refine (List.perm_ext_iff_of_nodup hnodup (List.nodup_dedup _)).2 fun p => ?_
  rw [mem_places_iff_key_mem hkeys, key_mem_wanted, ← mem_placesIn_iff, placesIn]

/-- What is first at each place tells how many comments a pass wants. -/
theorem length_wanted_congr (hsame : ∀ p, firstAt again p = firstAt discovered p)
    (scope : Option String) :
    (wantedEntries again scope).length = (placesIn discovered scope).length := by
  rw [← (perm_places_wanted discovered scope).length_eq, List.length_map]
  refine List.Perm.length_eq ?_
  refine (List.perm_ext_iff_of_nodup ?_ ?_).2 fun e => ?_
  · exact (wanted again scope).nodup_keys.of_map
  · exact (wanted discovered scope).nodup_keys.of_map
  · rw [mem_wanted, mem_wanted, hsame]

/-! ## The second pass -/

/-- A pass over settled notes calls nothing after its listing. -/
theorem run_of_settled {d : Desk} (h : d.store.Shows ns) (hsettled : Settled discovered scope ns) :
    (pass discovered scope).run Desk.answer d =
      (.ok ⟨0, 0, (wantedEntries discovered scope).length, []⟩, d.after d.store) := by
  obtain ⟨notes, hlist, hknows, -⟩ := exists_listing h hsettled.changeable
  have hfollows := follows_plan discovered scope notes
  rw [hsettled.plan_eq_nil hknows, hsettled.tally_eq hknows] at hfollows
  have hgrants : Clerk.Grants Desk.answer [] (d.after d.store) := trivial
  rw [run_pass hlist]
  exact (hfollows.run_eq hgrants).1

/-- After a pass over a reachable store, a pass over comments of which the same ones
are first at each place is a no-op: it reports every place in scope as unchanged and
leaves the tables as they are, whatever the clock shows and whichever identifiers
are drawn. -/
theorem second_pass_isNoop {d : Desk} (hreach : d.store.Reachable)
    (htimes : d.store.TimesWithin 0 9998)
    (hfair : (pass discovered scope).Always Desk.answer Desk.IsFair d)
    (hsame : ∀ p, firstAt again p = firstAt discovered p) :
    ∃ report d', (pass discovered scope).run Desk.answer d = (.ok report, d') ∧
      (∃ notes, d'.store.all = .ok notes) ∧
      ∀ draws, ∃ second d'',
        (pass again scope).run Desk.answer ⟨d'.store, draws⟩ = (.ok second, d'') ∧
        second.isNoop = true ∧
        second.unchanged =
          ((discovered.filter (inScope scope)).map Comment.place).dedup.length ∧
        d''.store = d'.store := by
  obtain ⟨ns, hshows, hchange⟩ := shows_of_reachable hreach htimes
  obtain ⟨report, d', ns', hrun, hshows', houtcome⟩ :=
    exists_outcome hshows (hchange discovered scope) hfair
  obtain ⟨notes, hall, -⟩ := exists_all hshows'
  refine ⟨report, d', hrun, ⟨notes, hall⟩, fun draws => ?_⟩
  have hsettled : Settled again scope ns' := houtcome.settled.of_firstAt hsame
  have hsecond := run_of_settled (d := ⟨d'.store, draws⟩) hshows' hsettled
  exact ⟨_, _, hsecond, rfl, length_wanted_congr hsame scope, rfl⟩

/-- A second small pass is a no-op, also when its comment is discovered twice. -/
theorem second_pass_isNoop_smallDesk :
    ∃ report d', (pass [newComment] none).run Desk.answer smallDesk = (.ok report, d') ∧
      (∃ notes, d'.store.all = .ok notes) ∧
      ∀ draws, ∃ second d'',
        (pass [newComment, newComment] none).run Desk.answer ⟨d'.store, draws⟩ =
          (.ok second, d'') ∧
        second.isNoop = true ∧
        second.unchanged =
          (([newComment].filter (inScope none)).map Comment.place).dedup.length ∧
        d''.store = d'.store :=
  second_pass_isNoop smallDesk_reachable smallDesk_timesWithin smallDesk_fair fun p => by
    simp only [firstAt, List.find?_cons, List.find?_nil]
    split <;> rfl

end Marginalia.Reconcile
