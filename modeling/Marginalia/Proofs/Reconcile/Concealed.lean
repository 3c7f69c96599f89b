import Marginalia.Proofs.Reconcile.Arrival
import Marginalia.Proofs.Reconcile.Idempotence
import Marginalia.Proofs.Store.Collision

set_option autoImplicit false

/-!
# Notes that a pass is not shown

A note that is stored while a pass is at work is not in its listing.  If there is a comment
in its place, the pass asks for a note there, is refused, and goes on.  So it leaves the
notes that it was not shown as they are, and makes of the others what a pass makes of them
that is shown all.
-/

namespace Marginalia.Reconcile

variable {discovered : List Comment} {scope : Option String} {existing : Index Note}
  {ns : List Note} {hidden : String → Bool}

/-! ## Past what is taken -/

/-- When no note is known at a place that is taken, none is found there. -/
theorem free_of_get? {taken : Location → Bool}
    (hknown : ∀ e ∈ existing.entries, e.1 = e.2.place.key ∧ taken e.2.place = false)
    {p : Location} {n : Note} (hget : existing.get? p.key = some n) : taken p = false := by
  obtain ⟨hplace, hfree⟩ := hknown _ ((Index.mem_entries_iff existing _ n).2 hget)
  rwa [← Location.key_inj.1 hplace] at hfree

/-- Writing what is wanted goes past the places that are taken, when no note is known
there. -/
theorem write_followsPast (taken : Location → Bool) {entries : List (String × Comment)}
    (h : (entries.map (·.1)).Nodup) (hplaces : ∀ e ∈ entries, e.1 = e.2.place.key)
    (hknown : ∀ e ∈ existing.entries, e.1 = e.2.place.key ∧ taken e.2.place = false)
    (report : Report) :
    (write entries existing report).FollowsPast taken
      (plan (entries.filter fun e => !taken e.2.place) existing)
      (report.plus (tally (entries.filter fun e => !taken e.2.place) existing)) := by
  have hlater : ∀ {key : String} {rest : List (String × Comment)}, key ∉ rest.map (·.1) →
      key ∉ (rest.filter fun e => !taken e.2.place).map (·.1) :=
    fun hkey hmem => hkey ((List.filter_sublist.map _).subset hmem)
  replace h := turns_of_nodup h existing
  induction h generalizing report with
  | done =>
    refine (write_nil_follows _ report).past ?_
    intro c hc p hp
    obtain ⟨e, he, rfl⟩ := List.mem_map.1 hc
    obtain rfl : e.2.place = p := Option.some.inj hp
    exact (hknown e (List.mem_filter.1 he).1).2
  | @create key c rest existing _ hget _ ih =>
    obtain ⟨-, hrest⟩ := List.forall_mem_cons.1 hplaces
    simp only [write, hget]
    cases htaken : taken c.place with
    | true =>
      rw [List.filter_cons_of_neg (by simp [htaken])]
      exact .past htaken fun _ _ => ih hrest hknown report
    | false =>
      rw [List.filter_cons_of_pos (by simp [htaken]), plan_cons_create hget,
        plus_tally_cons_create hget]
      refine .call ?_ fun _ => ih hrest hknown _
      intro p hp
      obtain rfl : c.place = p := Option.some.inj hp
      exact htaken
  | @keep key c rest existing n hkey hget hagrees _ ih =>
    obtain ⟨hown, hrest⟩ := List.forall_mem_cons.1 hplaces
    obtain rfl : key = c.place.key := hown
    have hfree := free_of_get? hknown hget
    rw [List.filter_cons_of_pos (by simp [hfree]), plan_cons_keep (hlater hkey) hget hagrees,
      plus_tally_cons_keep (hlater hkey) hget hagrees]
    simp only [write, hget, if_pos hagrees]
    exact ih hrest (fun e he => hknown e (List.mem_filter.1 he).1) _
  | @update key c rest existing n hkey hget hagrees _ ih =>
    obtain ⟨hown, hrest⟩ := List.forall_mem_cons.1 hplaces
    obtain rfl : key = c.place.key := hown
    have hfree := free_of_get? hknown hget
    rw [List.filter_cons_of_pos (by simp [hfree]), plan_cons_update (hlater hkey) hget hagrees,
      plus_tally_cons_update (hlater hkey) hget hagrees]
    simp only [write, hget, if_neg hagrees]
    refine .call ?_ fun _ => ih hrest (fun e he => hknown e (List.mem_filter.1 he).1) _
    intro p hp
    obtain rfl : c.place = p := Option.some.inj hp
    exact hfree

/-! ## What is shown -/

/-- The notes that are not hidden. -/
def shownNotes (hidden : String → Bool) (notes : List Note) : List Note :=
  notes.filter fun n => !hidden n.place.key

/-- The comments at whose places no note is hidden. -/
def besideHidden (hidden : String → Bool) (discovered : List Comment) : List Comment :=
  discovered.filter fun c => !hidden c.place.key

theorem at?_shownNotes (ns : List Note) (p : Location) :
    Note.at? (shownNotes hidden ns) p = if hidden p.key then none else Note.at? ns p := by
  rw [shownNotes, Store.Holds.at?_filter ns fun q => !hidden q.key]
  cases hidden p.key <;> rfl

theorem firstAt_besideHidden (discovered : List Comment) (p : Location) :
    firstAt (besideHidden hidden discovered) p =
      if hidden p.key then none else firstAt discovered p := by
  rw [besideHidden, firstAt_filter_place discovered fun q => !hidden q.key]
  cases hidden p.key <;> rfl

theorem at?_shownNotes_of_free {p : Location} (hfree : hidden p.key = false) :
    Note.at? (shownNotes hidden ns) p = Note.at? ns p := by
  rw [at?_shownNotes, hfree]
  exact if_neg Bool.false_ne_true

theorem firstAt_besideHidden_of_free {p : Location} (hfree : hidden p.key = false) :
    firstAt (besideHidden hidden discovered) p = firstAt discovered p := by
  rw [firstAt_besideHidden, hfree]
  exact if_neg Bool.false_ne_true

/-- A note that is shown is not hidden. -/
theorem free_of_at? {p : Location} {n : Note}
    (h : Note.at? (shownNotes hidden ns) p = some n) : hidden p.key = false := by
  rw [at?_shownNotes] at h
  split at h
  · cases h
  · rename_i hfree
    exact Bool.eq_false_iff.2 hfree

theorem free_of_firstAt {p : Location} {c : Comment}
    (h : firstAt (besideHidden hidden discovered) p = some c) : hidden p.key = false := by
  rw [firstAt_besideHidden] at h
  split at h
  · cases h
  · rename_i hfree
    exact Bool.eq_false_iff.2 hfree

/-- What a pass wants where no note is hidden. -/
theorem wantedEntries_besideHidden (hidden : String → Bool) (discovered : List Comment)
    (scope : Option String) :
    wantedEntries (besideHidden hidden discovered) scope =
      (wantedEntries discovered scope).filter fun e => !hidden e.2.place.key := by
  refine Index.eq_of_rising (wanted _ scope).rising ((wanted discovered scope).rising.filter _) ?_
  intro e
  rw [List.mem_filter, mem_wanted, mem_wanted, firstAt_besideHidden]
  cases hidden e.2.place.key <;> simp

/-- Where no note is hidden, a pass that is shown all brings about what one that is not
does. -/
theorem Outcome.shown {ns' : List Note} (h : Outcome discovered scope ns ns')
    (hidden : String → Bool) :
    Outcome (besideHidden hidden discovered) scope (shownNotes hidden ns)
      (shownNotes hidden ns') := by
  refine ⟨?_, ?_, ?_, ?_, ?_⟩
  · intro p hout
    rw [at?_shownNotes, at?_shownNotes, h.outside p hout]
  · intro p hscope hfirst
    cases hhidden : hidden p.key with
    | true => rw [at?_shownNotes, if_pos hhidden]
    | false =>
      rw [firstAt_besideHidden_of_free hhidden] at hfirst
      rw [at?_shownNotes_of_free hhidden]
      exact h.pruned p hscope hfirst
  · intro p c n hscope hfirst hat hagrees
    have hfree := free_of_firstAt hfirst
    rw [firstAt_besideHidden_of_free hfree] at hfirst
    rw [at?_shownNotes_of_free hfree] at hat ⊢
    exact h.kept p c n hscope hfirst hat hagrees
  · intro p c n hscope hfirst hat hagrees
    have hfree := free_of_firstAt hfirst
    rw [firstAt_besideHidden_of_free hfree] at hfirst
    rw [at?_shownNotes_of_free hfree] at hat ⊢
    exact h.updated p c n hscope hfirst hat hagrees
  · intro p c hscope hfirst hat
    have hfree := free_of_firstAt hfirst
    rw [firstAt_besideHidden_of_free hfree] at hfirst
    rw [at?_shownNotes_of_free hfree] at hat ⊢
    exact h.created p c hscope hfirst hat

theorem Changeable.shown (h : Changeable discovered scope ns) (hidden : String → Bool) :
    Changeable (besideHidden hidden discovered) scope (shownNotes hidden ns) := by
  intro p c n hscope hfirst hat hagrees
  have hfree := free_of_at? hat
  rw [firstAt_besideHidden_of_free hfree] at hfirst
  rw [at?_shownNotes_of_free hfree] at hat
  exact h p c n hscope hfirst hat hagrees

/-- After its listing a pass follows the plan for the notes that are shown, past those that
are hidden. -/
theorem followsPast_plan {notes : List Note}
    (hknows : Knows (known notes) scope (shownNotes hidden ns)) :
    (write (wantedEntries discovered scope) (known notes) .empty).FollowsPast
      (fun p => hidden p.key)
      (plan (wantedEntries (besideHidden hidden discovered) scope) (known notes))
      (tally (wantedEntries (besideHidden hidden discovered) scope) (known notes)) := by
  have hknown : ∀ e ∈ (known notes).entries,
      e.1 = e.2.place.key ∧ hidden e.2.place.key = false := by
    intro e he
    obtain ⟨hkey, -, hat⟩ := (hknows.mem_entries_iff e).1 he
    exact ⟨hkey, free_of_at? hat⟩
  have hfollows := write_followsPast (fun p => hidden p.key)
    (wanted discovered scope).nodup_keys (fun e he => key_of_mem_wanted he) hknown .empty
  rwa [← wantedEntries_besideHidden, Report.empty_plus] at hfollows

/-! ## The run -/

section Run

variable {d : Desk}

/-- A listing from which notes are hidden shows the others in its scope. -/
theorem exists_listing_concealed (h : d.store.Shows ns) (hidden : String → Bool)
    (scope : Option String) :
    ∃ notes : List Note,
      Clerk.concealing (fun n => hidden n.key) Desk.answer (.list scope) d =
        (.ok notes, d.after d.store) ∧
      notes.Perm ((shownNotes hidden ns).filter fun n => n.place.isIn scope) := by
  obtain ⟨notes, hlist, hperm⟩ := Desk.answer_list h scope
  refine ⟨notes.filter fun n => !hidden n.key, ?_, ?_⟩
  · simp only [Clerk.concealing, hlist]
    rfl
  · rw [shownNotes, List.filter_comm]
    exact hperm.filter _

/-- A pass from which notes are hidden ends well, reports the tally of the comments beside
them, leaves them as they are, and brings its outcome about on the notes that are shown. -/
theorem exists_tally_concealed (h : d.store.Shows ns)
    (hchange : Changeable discovered scope ns)
    (hstored : ∀ p : Location, hidden p.key = true → Note.at? ns p ≠ none)
    (hfair : (pass discovered scope).Always
      (Clerk.concealing (fun n => hidden n.key) Desk.answer) Desk.IsFair d) :
    ∃ existing d' ns', Knows existing scope (shownNotes hidden ns) ∧
      (pass discovered scope).run (Clerk.concealing (fun n => hidden n.key) Desk.answer) d =
        (.ok (tally (wantedEntries (besideHidden hidden discovered) scope) existing), d') ∧
      d'.store.Shows ns' ∧
      (∀ p : Location, hidden p.key = true → Note.at? ns' p = Note.at? ns p) ∧
      Outcome (besideHidden hidden discovered) scope (shownNotes hidden ns)
        (shownNotes hidden ns') := by
  obtain ⟨notes, hlist, hperm⟩ := exists_listing_concealed h hidden scope
  have hshown := h.filter fun n => !hidden n.place.key
  have hknows : Knows (known notes) scope (shownNotes hidden ns) := knows_known hshown hperm
  have hfollows : (write (wantedEntries discovered scope) (known notes) .empty).FollowsPast
      (fun p => hidden p.key) _ _ := followsPast_plan hknows
  have hkeep : ∀ c ∈ plan (wantedEntries (besideHidden hidden discovered) scope) (known notes),
      ∀ p, c.place? = some p → (!hidden p.key) = true := by
    intro c hc p hp
    rw [hfollows.free c hc p hp]
    rfl
  have hdue : Call.AllDue ns
      (plan (wantedEntries (besideHidden hidden discovered) scope) (known notes)) :=
    (allDue_plan hknows (hchange.shown hidden)).of_filter (fun p => !hidden p.key) hkeep
  have hwrite := hfair.2
  rw [hlist] at hwrite
  obtain ⟨d', ns', hrun, hshows, hleads⟩ := hfollows.run_spec (d := d.after d.store)
    (fun c p hp state => Clerk.concealing_eq _ _ hp state) h hdue hstored hwrite
  refine ⟨known notes, d', ns', hknows, (run_pass hlist).trans hrun, hshows, ?_, ?_⟩
  · intro p hp
    refine hleads.elsewhere p ?_
    intro c hc hplace
    have hfree := hfollows.free c hc p hplace
    rw [hp] at hfree
    cases hfree
  · refine outcome_of_leads ?_ hknows (hleads.filter (fun p => !hidden p.key) hkeep)
    intro p n hat
    exact (hshown.at?_eq_some_iff.1 hat).2

end Run

/-! ## What is spared -/

/-- How a pass from which notes are hidden treats them and the others. -/
structure Spares (hidden : String → Bool) (discovered : List Comment) (scope : Option String)
    (report : Report) (before after : List Note) : Prop where
  /-- a hidden note stays as it was, and no other one takes its place -/
  spared : ∀ n : Note, hidden n.key = true → (n ∈ after ↔ n ∈ before)
  /-- the notes that are shown converge to the comments at other places -/
  shown : Converges (besideHidden hidden discovered) scope (shownNotes hidden before)
    (shownNotes hidden after)
  pruned : ∀ k ∈ report.pruned, hidden k = false
  /-- the places of comments in scope are counted, but for those of hidden notes -/
  counts : report.created + report.updated + report.unchanged +
      ((discovered.filter (inScope scope)).map Comment.place).dedup.countP (hidden ·.key) =
    ((discovered.filter (inScope scope)).map Comment.place).dedup.length

/-- The places of comments in scope at which no note is hidden are as many as the comments
that a pass wants there. -/
theorem length_wanted_besideHidden (hidden : String → Bool) (discovered : List Comment)
    (scope : Option String) :
    (wantedEntries (besideHidden hidden discovered) scope).length +
        (placesIn discovered scope).countP (hidden ·.key) =
      (placesIn discovered scope).length := by
  have hplaces := perm_places_wanted discovered scope
  have hsplit := List.length_eq_length_filter_add (l := wantedEntries discovered scope)
    fun e => hidden e.2.place.key
  rw [← hplaces.countP_eq, ← hplaces.length_eq, List.countP_map, List.length_map, hsplit,
    wantedEntries_besideHidden, Nat.add_comm, List.countP_eq_length_filter]
  rfl

/-- A pass over a reachable store from which any stored notes are hidden succeeds and spares
them.  The notes that are shown end up as after a pass that is shown all, up to what each
draws. -/
theorem pass_spares_hidden (hidden : String → Bool) {d : Desk} {before : List Note}
    (hreach : d.store.Reachable) (htimes : d.store.TimesWithin 0 9998)
    (hall : d.store.all = .ok before)
    (hstored : ∀ k, hidden k = true → k ∈ before.map Note.key)
    (hfair : (pass discovered scope).Always
      (Clerk.concealing (fun n => hidden n.key) Desk.answer) Desk.IsFair d) :
    ∃ report d' after,
      (pass discovered scope).run (Clerk.concealing (fun n => hidden n.key) Desk.answer) d =
        (.ok report, d') ∧
      d'.store.all = .ok after ∧ Spares hidden discovered scope report before after ∧
      ∀ draws : Nat → Draw,
        (pass discovered scope).Always Desk.answer Desk.IsFair ⟨d.store, draws⟩ →
        ∃ report' d'' after',
          (pass discovered scope).run Desk.answer ⟨d.store, draws⟩ = (.ok report', d'') ∧
          d''.store.all = .ok after' ∧
          Alike (shownNotes hidden before) (shownNotes hidden after)
            (shownNotes hidden after') := by
  obtain ⟨ns, hshows, hchange⟩ := shows_of_reachable hreach htimes
  obtain ⟨_, hbefore, hperm⟩ := exists_all hshows
  obtain rfl := Except.ok.inj (hall.symm.trans hbefore)
  have hstored' : ∀ p : Location, hidden p.key = true → Note.at? ns p ≠ none := by
    intro p hp
    obtain ⟨n, hn, hkey⟩ := List.mem_map.1 (hstored p.key hp)
    rw [hshows.at?_eq_some_iff.2 ⟨hperm.mem_iff.1 hn, Location.key_injective hkey⟩]
    exact Option.some_ne_none n
  obtain ⟨existing, d', ns₁, hknows, hrun, hshows₁, hspared, houtcome⟩ :=
    exists_tally_concealed hshows (hchange discovered scope) hstored' hfair
  obtain ⟨after, hafter, hperm₁⟩ := exists_all hshows₁
  have hshown := hshows.filter fun n => !hidden n.place.key
  have hshown₁ := hshows₁.filter fun n => !hidden n.place.key
  refine ⟨_, d', after, hrun, hafter, ⟨?_, ?_, ?_, ?_⟩, ?_⟩
  · intro n hn
    rw [hperm.mem_iff, hperm₁.mem_iff, hshows.mem_iff_at?, hshows₁.mem_iff_at?,
      hspared n.place hn]
  · exact houtcome.converges hshown hshown₁ (hperm.filter _) (hperm₁.filter _)
  · intro k hk
    obtain ⟨e, he, rfl⟩ := List.mem_map.1 hk
    obtain ⟨hkey, -, hat, -⟩ := (mem_stale_iff hknows).1 he
    rw [hkey]
    exact free_of_at? hat
  · rw [counts_tally]
    exact length_wanted_besideHidden hidden discovered scope
  · intro draws hfair'
    obtain ⟨report', d'', ns₂, hrun', hshows₂, houtcome'⟩ :=
      exists_outcome (d := ⟨d.store, draws⟩) hshows (hchange discovered scope) hfair'
    obtain ⟨after', hafter', hperm₂⟩ := exists_all hshows₂
    refine ⟨report', d'', after', hrun', hafter', ?_⟩
    exact alike_of_at? hshown hshown₁ (hshows₂.filter fun n => !hidden n.place.key)
      (hperm.filter _) (hperm₁.filter _) (hperm₂.filter _)
      (houtcome.alikeAt (houtcome'.shown hidden))

/-! ## A small run

The note of the small store is hidden, and a comment of another file is discovered too. -/

theorem smallDesk_list_concealed :
    Clerk.concealing (fun n => n.key == oldNote.key) Desk.answer (.list none) smallDesk =
      (.ok [], smallDesk.after smallDesk.store) := by
  simp only [Clerk.concealing, smallDesk_list]
  refine Prod.ext (congrArg Except.ok ?_) rfl
  exact List.filter_eq_nil_iff.2 fun n hn => by simp [List.mem_singleton.1 hn]

/-- The note that is hidden stays, though a comment in its place says something else, and a
note is created for the other comment. -/
theorem pass_spares_hidden_oldNote :
    ∃ report d' after,
      (pass [newComment, otherComment] none).run
          (Clerk.concealing (fun n => n.key == oldNote.key) Desk.answer) smallDesk =
        (.ok report, d') ∧
      d'.store.all = .ok after ∧
      Spares (· == oldNote.key) [newComment, otherComment] none report [oldNote] after ∧
      ∀ draws : Nat → Draw,
        (pass [newComment, otherComment] none).Always Desk.answer Desk.IsFair
          ⟨smallDesk.store, draws⟩ →
        ∃ report' d'' after',
          (pass [newComment, otherComment] none).run Desk.answer ⟨smallDesk.store, draws⟩ =
            (.ok report', d'') ∧
          d''.store.all = .ok after' ∧
          Alike (shownNotes (· == oldNote.key) [oldNote]) (shownNotes (· == oldNote.key) after)
            (shownNotes (· == oldNote.key) after') := by
  have hall : smallDesk.store.all = .ok [oldNote] := congrArg Prod.fst smallDesk_list
  have hstored : ∀ k, (k == oldNote.key) = true → k ∈ [oldNote].map Note.key := by
    intro k hk
    exact List.mem_singleton.2 (beq_iff_eq.1 hk)
  have hfair : (pass [newComment, otherComment] none).Always
      (Clerk.concealing (fun n => n.key == oldNote.key) Desk.answer) Desk.IsFair smallDesk :=
    always_pass_of_fresh (Clerk.concealing_snd _ _) smallDesk_list_concealed
      (smallDesk_fresh.mono (by decide))
  exact pass_spares_hidden (· == oldNote.key) smallDesk_reachable smallDesk_timesWithin hall
    hstored hfair

end Marginalia.Reconcile
