import Marginalia.Proofs.Reconcile.ByFile
import Marginalia.Proofs.Reconcile.Idempotence

set_option autoImplicit false

/-!
# The report of a pass

The counts of a pass and the keys that it lists tell how the stored notes differ from the
comments in scope: where a note is missing, where one says something else, and where one
has no comment any more.  So the report tells how many notes there are afterwards, and it
is that of a no-op exactly when every note is left as it was.
-/

namespace Marginalia.Reconcile

variable {discovered : List Comment} {scope : Option String} {ns ns' : List Note}
  {existing : Index Note}

/-! ## Counting places -/

/-- Counting the wanted comments by the notes under their keys is counting the places of the
comments in scope by the notes there. -/
theorem countP_wanted (hknows : Knows existing scope ns) (test : Option Note → Comment → Bool) :
    (wantedEntries discovered scope).countP (fun e => test (existing.get? e.1) e.2) =
      (placesIn discovered scope).countP fun p =>
        (firstAt discovered p).any (test (Note.at? ns p)) := by
  rw [← (perm_places_wanted discovered scope).countP_eq, List.countP_map]
  refine List.countP_congr fun e he => ?_
  obtain ⟨hkey, hscope, hfirst⟩ := mem_wanted.1 he
  rw [hkey, hknows.get?, if_pos hscope, Function.comp_apply, hfirst, Option.any_some]

theorem created_tally (hknows : Knows existing scope ns) :
    (tally (wantedEntries discovered scope) existing).created =
      (placesIn discovered scope).countP fun p => (Note.at? ns p).isNone := by
  refine (countP_wanted hknows fun n _ => n.isNone).trans (List.countP_congr fun p hp => ?_)
  obtain ⟨-, c, hfirst⟩ := mem_placesIn_iff.1 hp
  rw [hfirst, Option.any_some]

/-- A listing has the same note at each place as any other list of the notes. -/
theorem at?_of_perm {s : Store} {notes : List Note} (h : s.Holds ns) (hperm : notes.Perm ns)
    (p : Location) : Note.at? notes p = Note.at? ns p := by
  have hplaces : (notes.map Note.place).Nodup := (hperm.map Note.place).nodup_iff.2 h.places
  refine Option.ext fun n => ?_
  rw [h.at?_eq_some_iff, Note.at?, Keyed.find?_eq_some_iff hplaces, hperm.mem_iff]

/-! ## The number of notes -/

theorem mem_places_iff {p : Location} : p ∈ ns.map Note.place ↔ ∃ n, Note.at? ns p = some n := by
  rw [← Option.ne_none_iff_exists', Ne, Store.Holds.at?_eq_none_iff, not_not]

theorem mem_places_stale_iff {s : Store} (h : s.Holds ns) (hknows : Knows existing scope ns)
    {p : Location} :
    p ∈ (stale (wantedEntries discovered scope) existing).map (·.2.place) ↔
      p.isIn scope ∧ (∃ n, Note.at? ns p = some n) ∧ firstAt discovered p = none := by
  rw [List.mem_map]
  constructor
  · rintro ⟨e, he, rfl⟩
    obtain ⟨-, hscope, hat, hnone⟩ := (mem_stale_iff hknows).1 he
    exact ⟨hscope, ⟨_, hat⟩, hnone⟩
  · rintro ⟨hscope, ⟨n, hat⟩, hnone⟩
    obtain ⟨-, rfl⟩ := h.at?_eq_some_iff.1 hat
    exact ⟨(n.place.key, n), (mem_stale_iff hknows).2 ⟨rfl, hscope, hat, hnone⟩, rfl⟩

/-- The notes after a pass stand where notes stood before and where one was missing, but for
the places of stale notes. -/
theorem perm_places {s s' : Store} (hs : s.Holds ns) (hs' : s'.Holds ns')
    (hknows : Knows existing scope ns) (houtcome : Outcome discovered scope ns ns') :
    (ns'.map Note.place ++
        (stale (wantedEntries discovered scope) existing).map (·.2.place)).Perm
      (ns.map Note.place ++
        (placesIn discovered scope).filter fun p => (Note.at? ns p).isNone) := by
  have hstale : ((stale (wantedEntries discovered scope) existing).map (·.2.place)).Nodup :=
    nodup_places (fun _ he => (mem_stale hknows he).1)
      (Keyed.nodup_filter existing.nodup_keys _)
  have hleft : (ns'.map Note.place ++
      (stale (wantedEntries discovered scope) existing).map (·.2.place)).Nodup := by
    refine List.nodup_append.2 ⟨hs'.places, hstale, ?_⟩
    rintro p hp _ hp' rfl
    obtain ⟨m, hm⟩ := mem_places_iff.1 hp
    obtain ⟨hscope, -, hnone⟩ := (mem_places_stale_iff hs hknows).1 hp'
    rw [houtcome.pruned p hscope hnone] at hm
    cases hm
  have hright : (ns.map Note.place ++
      (placesIn discovered scope).filter fun p => (Note.at? ns p).isNone).Nodup := by
    refine List.nodup_append.2 ⟨hs.places, (List.nodup_dedup _).filter _, ?_⟩
    rintro p hp _ hmissing rfl
    obtain ⟨n, hn⟩ := mem_places_iff.1 hp
    rw [List.mem_filter, hn] at hmissing
    cases hmissing.2
  refine (List.perm_ext_iff_of_nodup hleft hright).2 fun p => ?_
  rw [List.mem_append, List.mem_append, List.mem_filter, mem_placesIn_iff, mem_places_iff,
    mem_places_iff, mem_places_stale_iff hs hknows, Option.isNone_iff_eq_none]
  cases hscope : p.isIn scope with
  | false => simp [houtcome.outside p hscope]
  | true =>
    cases hfirst : firstAt discovered p with
    | none => simp [houtcome.pruned p hscope hfirst]
    | some c =>
      -- a comment counts here, so there is a note afterwards, and there was one or none before
      obtain ⟨m, hm, -⟩ := houtcome.exists_agrees hscope hfirst
      cases hat : Note.at? ns p <;> simp [hm]

/-- The notes that are created and those that are pruned make up for each other. -/
theorem length_add_pruned {s s' : Store} (hs : s.Holds ns) (hs' : s'.Holds ns')
    (hknows : Knows existing scope ns) (houtcome : Outcome discovered scope ns ns') :
    ns'.length + (tally (wantedEntries discovered scope) existing).pruned.length =
      ns.length + (tally (wantedEntries discovered scope) existing).created := by
  have hlength := (perm_places hs hs' hknows houtcome).length_eq
  simp only [List.length_append, List.length_map] at hlength
  rw [created_tally hknows, List.countP_eq_length_filter, ← hlength, tally, List.length_map]

/-! ## No-ops -/

theorem Report.isNoop_iff (report : Report) :
    report.isNoop = true ↔ report.created = 0 ∧ report.updated = 0 ∧ report.pruned = [] := by
  simp only [Report.isNoop, Bool.and_eq_true, beq_iff_eq, List.isEmpty_iff, and_assoc]

theorem Settled.of_at? (h : Settled discovered scope ns')
    (hsame : ∀ p, Note.at? ns p = Note.at? ns' p) : Settled discovered scope ns := by
  refine ⟨fun p c hscope hfirst => ?_, fun p hscope hfirst => ?_⟩
  · rw [hsame p]
    exact h.agreed p c hscope hfirst
  · rw [hsame p]
    exact h.bare p hscope hfirst

/-- A pass reports a no-op when it has nothing to do for the notes. -/
theorem isNoop_tally_iff {s : Store} (h : s.Holds ns) (hknows : Knows existing scope ns) :
    (tally (wantedEntries discovered scope) existing).isNoop = true ↔
      Settled discovered scope ns := by
  constructor
  · intro hnoop
    obtain ⟨hcreated, hupdated, hpruned⟩ := (Report.isNoop_iff _).1 hnoop
    refine ⟨fun p c hscope hfirst => ?_, fun p hscope hfirst => ?_⟩
    · have hplace := mem_placesIn_iff.2 ⟨hscope, c, hfirst⟩
      have hthere := List.countP_eq_zero.1
        ((countP_wanted hknows fun n _ => n.isNone).symm.trans hcreated) p hplace
      have hsame := List.countP_eq_zero.1
        ((countP_wanted hknows fun n c => n.any (!agrees · c)).symm.trans hupdated) p hplace
      rw [hfirst, Option.any_some] at hthere hsame
      cases hat : Note.at? ns p with
      | none => simp [hat] at hthere
      | some n => exact ⟨n, rfl, by simpa [hat] using hsame⟩
    · refine Option.eq_none_iff_forall_ne_some.2 fun n hat => ?_
      have hstale := (mem_places_stale_iff h hknows).2 ⟨hscope, ⟨n, hat⟩, hfirst⟩
      rw [List.map_eq_nil_iff.1 hpruned] at hstale
      cases hstale
  · intro hsettled
    rw [hsettled.tally_eq hknows]
    rfl

/-! ## The report -/

/-- How a report relates to the comments of a pass and to the notes before and after. -/
structure TellsDifference (discovered : List Comment) (scope : Option String)
    (before after : List Note) (report : Report) : Prop where
  /-- counted as created: the places of comments in scope without a note -/
  created : report.created =
    (placesIn discovered scope).countP fun p => (Note.at? before p).isNone
  /-- counted as updated: those where the note has another text or kind than the first
  comment -/
  updated : report.updated =
    (placesIn discovered scope).countP fun p =>
      (firstAt discovered p).any fun c => (Note.at? before p).any fun n => !agrees n c
  /-- counted as unchanged: all others -/
  unchanged : report.created + report.updated + report.unchanged =
    (placesIn discovered scope).length
  /-- the keys of the pruned notes rise -/
  rising : report.pruned.Pairwise (· < ·)
  /-- they are those of the notes in scope at whose place there is no comment -/
  pruned : ∀ k, k ∈ report.pruned ↔
    ∃ n ∈ before, n.place.isIn scope ∧ n.key = k ∧ ∀ c ∈ discovered, c.place ≠ n.place
  /-- so many notes are there afterwards -/
  size : after.length + report.pruned.length = before.length + report.created
  /-- the pass is a no-op exactly when all notes are as before -/
  noop : report.isNoop = true ↔ after = before

/-- The report of a pass tells the difference between the comments and the notes that it
found. -/
theorem tellsDifference_tally {s s' : Store} {before after : List Note} (hs : s.Holds ns)
    (hs' : s'.Holds ns') (hbefore : before.Perm ns) (hafter : after.Perm ns')
    (hknows : Knows existing scope ns) (houtcome : Outcome discovered scope ns ns')
    (hnoop : Settled discovered scope ns → after = before) :
    TellsDifference discovered scope before after
      (tally (wantedEntries discovered scope) existing) := by
  have hsame := at?_of_perm hs hbefore
  refine ⟨?_, ?_, ?_, ?_, fun k => ?_, ?_, ?_⟩
  · rw [created_tally hknows]
    simp only [hsame]
  · simp only [hsame]
    exact countP_wanted hknows fun n c => n.any (!agrees · c)
  · rw [counts_tally]
    exact length_wanted_congr (fun _ => rfl) scope
  · exact List.pairwise_map.2 (existing.rising.filter _)
  · rw [tally, List.mem_map]
    constructor
    · rintro ⟨e, he, rfl⟩
      obtain ⟨hkey, hscope, hat, hnone⟩ := (mem_stale_iff hknows).1 he
      refine ⟨e.2, hbefore.mem_iff.2 (hs.at?_eq_some_iff.1 hat).1, hscope, hkey.symm, ?_⟩
      intro c hc hplace
      obtain ⟨first, hfirst⟩ := exists_firstAt_iff.2 ⟨c, hc, hplace⟩
      rw [hnone] at hfirst
      cases hfirst
    · rintro ⟨n, hn, hscope, rfl, hunasked⟩
      have hat := hs.mem_iff_at?.1 (hbefore.mem_iff.1 hn)
      have hnone : firstAt discovered n.place = none := by
        refine Option.eq_none_iff_forall_ne_some.2 fun c hc => ?_
        exact hunasked c (List.mem_of_find?_eq_some hc) (place_of_firstAt hc)
      exact ⟨(n.key, n), (mem_stale_iff hknows).2 ⟨rfl, hscope, hat, hnone⟩, rfl⟩
  · rw [hbefore.length_eq, hafter.length_eq]
    exact length_add_pruned hs hs' hknows houtcome
  · refine (isNoop_tally_iff hs hknows).trans ⟨hnoop, ?_⟩
    rintro rfl
    refine houtcome.settled.of_at? fun p => ?_
    rw [← at?_of_perm hs hbefore, ← at?_of_perm hs' hafter]

/-- A pass over a reachable store reports exactly how its notes differ from the comments in
scope, and a no-op leaves the tables as they are.  The stored times and the clock must leave
room in the years of four digits, and a new identifier must be nobody's. -/
theorem report_tells_difference {d : Desk} (hreach : d.store.Reachable)
    (htimes : d.store.TimesWithin 0 9998)
    (hfair : (pass discovered scope).Always Desk.answer Desk.IsFair d) :
    ∃ report d' before after,
      (pass discovered scope).run Desk.answer d = (.ok report, d') ∧
      d.store.all = .ok before ∧ d'.store.all = .ok after ∧
      d.store.count = before.length ∧ d'.store.count = after.length ∧
      TellsDifference discovered scope before after report ∧
      (report.isNoop = true → d'.store = d.store) := by
  obtain ⟨ns, hshows, hchange⟩ := shows_of_reachable hreach htimes
  obtain ⟨existing, d', ns', hknows, hrun, hshows', houtcome⟩ :=
    exists_tally hshows (hchange discovered scope) hfair
  obtain ⟨before, hbefore, hperm⟩ := exists_all hshows
  obtain ⟨after, hafter, hperm'⟩ := exists_all hshows'
  have hstore : Settled discovered scope ns → d'.store = d.store := by
    intro hsettled
    rw [run_of_settled hshows hsettled, Prod.mk.injEq] at hrun
    rw [← hrun.2]
    rfl
  refine ⟨_, d', before, after, hrun, hbefore, hafter, ?_, ?_, ?_, fun hnoop => ?_⟩
  · rw [hperm.length_eq, hshows.toHolds.count_eq]
  · rw [hperm'.length_eq, hshows'.toHolds.count_eq]
  · refine tellsDifference_tally hshows.toHolds hshows'.toHolds hperm hperm' hknows houtcome ?_
    intro hsettled
    rw [hstore hsettled, hbefore] at hafter
    exact (Except.ok.inj hafter).symm
  · exact hstore ((isNoop_tally_iff hshows.toHolds hknows).1 hnoop)

/-! ## Drifted notes

Of two notes one says something else than its comment and the other has lost its comment,
and one comment has no note yet. -/

/-- The comments from which the notes of two files have drifted. -/
def driftedComments : List Comment := [newComment, ⟨"b.c", "new", 2, .note, false⟩]

/-- The desk of the drifted notes. -/
def driftedDesk : Desk := ⟨twoFilesDesk.store, laterDraws⟩

/-- One note is created, one is updated and one is pruned. -/
theorem report_tells_difference_drifted :
    ∃ report d' before after,
      (pass driftedComments none).run Desk.answer driftedDesk = (.ok report, d') ∧
      driftedDesk.store.all = .ok before ∧ d'.store.all = .ok after ∧
      driftedDesk.store.count = before.length ∧ d'.store.count = after.length ∧
      TellsDifference driftedComments none before after report ∧
      (report.isNoop = true → d'.store = driftedDesk.store) := by
  obtain ⟨ns, hshows, hlength⟩ := twoFilesDesk_shows
  have hfresh : driftedDesk.Fresh (driftedComments.length + ns.length + 1) := by
    rw [hlength]
    exact ⟨by decide, by decide, by decide⟩
  exact report_tells_difference (d := driftedDesk) twoFilesDesk_reachable
    twoFilesDesk_timesWithin (always_pass_of_shows (d := driftedDesk) hshows hfresh none)

end Marginalia.Reconcile
