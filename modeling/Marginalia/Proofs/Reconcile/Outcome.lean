import Marginalia.Proofs.Reconcile.Plan

set_option autoImplicit false

/-!
# What a pass makes of the notes

The calls of a plan are about places of their own, and the notes allow them.  So
a pass is granted all its calls, and afterwards the note at each place is told by
the comment that counts there and the note that was there.
-/

namespace Marginalia.Reconcile

open Marginalia.Time (Instant)

/-! ## What the listing says -/

theorem isIn_some_iff {filepath : String} {p : Location} :
    p.isIn (some filepath) = true ↔ p.1 = filepath := by
  simp only [Location.isIn, Option.all_some, beq_iff_eq]

/-- An index knows the notes in scope, each under the key of its place. -/
structure Knows (existing : Index Note) (scope : Option String) (ns : List Note) : Prop where
  get? : ∀ p : Location, existing.get? p.key = if p.isIn scope then Note.at? ns p else none
  key : ∀ e ∈ existing.entries, e.1 = e.2.place.key

theorem knows_known {s : Store} {ns notes : List Note} {scope : Option String} (h : s.Holds ns)
    (hperm : notes.Perm (ns.filter fun n => n.place.isIn scope)) :
    Knows (known notes) scope ns := by
  have hnodup : (notes.map Note.place).Nodup :=
    (hperm.map Note.place).nodup_iff.2 (Keyed.nodup_filter h.places _)
  have hmem : ∀ n, n ∈ notes ↔ n ∈ ns ∧ n.place.isIn scope := by
    intro n
    rw [hperm.mem_iff, List.mem_filter]
  refine ⟨fun p => Option.ext fun n => ?_, fun e he => ?_⟩
  · rw [get?_known hnodup, hmem, Note.key_eq, Location.key_inj]
    by_cases hp : p.isIn scope
    · rw [if_pos hp, h.at?_eq_some_iff]
      exact ⟨fun hn => ⟨hn.1.1, hn.2⟩, fun hn => ⟨⟨hn.1, hn.2 ▸ hp⟩, hn.2⟩⟩
    · rw [if_neg hp]
      refine ⟨fun hn => absurd (hn.2 ▸ hn.1.2) hp, fun hn => (nomatch hn)⟩
  · have := (get?_known hnodup).1 ((Index.mem_entries_iff _ e.1 e.2).1 he)
    exact this.2.symm

/-- The entries of an index that knows the notes are those of the notes in scope. -/
theorem Knows.mem_entries_iff {existing : Index Note} {scope : Option String} {ns : List Note}
    (h : Knows existing scope ns) (e : String × Note) :
    e ∈ existing.entries ↔
      e.1 = e.2.place.key ∧ e.2.place.isIn scope ∧ Note.at? ns e.2.place = some e.2 := by
  constructor
  · intro he
    have hkey := h.key e he
    have hfound := (Index.mem_entries_iff existing e.1 e.2).1 he
    rw [hkey, h.get?] at hfound
    split at hfound
    · exact ⟨hkey, by assumption, hfound⟩
    · cases hfound
  · rintro ⟨hkey, hscope, hat⟩
    refine (Index.mem_entries_iff existing e.1 e.2).2 ?_
    rw [hkey, h.get?, if_pos hscope, hat]

/-- There is only one index that knows the notes in scope. -/
theorem Knows.unique {existing existing' : Index Note} {scope : Option String} {ns : List Note}
    (h : Knows existing scope ns) (h' : Knows existing' scope ns) : existing = existing' :=
  Index.eq_of_mem_iff fun e => (h.mem_entries_iff e).trans (h'.mem_entries_iff e).symm

/-! ## The calls of the plan -/

section Calls

variable {discovered : List Comment} {scope : Option String} {ns : List Note}
  {existing : Index Note}

/-- The entries of the comments that a pass wants. -/
abbrev wantedEntries (discovered : List Comment) (scope : Option String) :
    List (String × Comment) :=
  (wanted discovered scope).entries

theorem key_mem_wanted (discovered : List Comment) (scope : Option String) (p : Location) :
    p.key ∈ (wantedEntries discovered scope).map (·.1) ↔
      p.isIn scope ∧ ∃ c, firstAt discovered p = some c := by
  rw [List.mem_map]
  constructor
  · rintro ⟨e, he, hkey⟩
    obtain ⟨hown, hscope, hfirst⟩ := mem_wanted.1 he
    have hplace : e.2.place = p := Location.key_injective (hown.symm.trans hkey)
    exact ⟨hplace ▸ hscope, e.2, hplace ▸ hfirst⟩
  · rintro ⟨hscope, c, hfirst⟩
    have hplace := place_of_firstAt hfirst
    exact ⟨(p.key, c), mem_wanted.2 ⟨by rw [hplace], by rwa [hplace], by rwa [hplace]⟩, rfl⟩

theorem place?_callFor? {e : String × Comment} {c : Call} (h : callFor? existing e = some c) :
    c.place? = some e.2.place := by
  obtain ⟨-, rfl⟩ | ⟨n, -, -, rfl⟩ := callFor?_cases h
  · rfl
  · rfl

/-- The stale entries are those of the notes in scope at whose place no comment counts. -/
theorem mem_stale_iff (hknows : Knows existing scope ns) {e : String × Note} :
    e ∈ stale (wantedEntries discovered scope) existing ↔
      e.1 = e.2.place.key ∧ e.2.place.isIn scope ∧ Note.at? ns e.2.place = some e.2 ∧
        firstAt discovered e.2.place = none := by
  rw [stale, List.mem_filter, hknows.mem_entries_iff, decide_eq_true_iff]
  constructor
  · rintro ⟨⟨hkey, hscope, hat⟩, hunasked⟩
    refine ⟨hkey, hscope, hat, Option.eq_none_iff_forall_ne_some.2 ?_⟩
    intro c hc
    rw [hkey, key_mem_wanted] at hunasked
    exact hunasked ⟨hscope, c, hc⟩
  · rintro ⟨hkey, hscope, hat, hnone⟩
    refine ⟨⟨hkey, hscope, hat⟩, ?_⟩
    rw [hkey, key_mem_wanted, hnone]
    rintro ⟨-, c, hc⟩
    cases hc

theorem mem_stale (hknows : Knows existing scope ns) {e : String × Note}
    (he : e ∈ stale (wantedEntries discovered scope) existing) :
    e.1 = e.2.place.key ∧ e.2.place.isIn scope ∧ firstAt discovered e.2.place = none := by
  obtain ⟨hkey, hscope, -, hnone⟩ := (mem_stale_iff hknows).1 he
  exact ⟨hkey, hscope, hnone⟩

/-- The calls of a plan are writes where a comment counts and removals elsewhere. -/
theorem mem_plan {c : Call} :
    c ∈ plan (wantedEntries discovered scope) existing ↔
      (∃ e ∈ wantedEntries discovered scope, callFor? existing e = some c) ∨
        ∃ e ∈ stale (wantedEntries discovered scope) existing, removal e = c := by
  rw [plan, List.mem_append, List.mem_filterMap, List.mem_map]

theorem apart_plan (hknows : Knows existing scope ns) :
    (plan (wantedEntries discovered scope) existing).Pairwise
      fun b c => b.place? ≠ c.place? := by
  refine List.pairwise_append.2 ⟨?_, ?_, ?_⟩
  · refine List.Pairwise.filterMap _ ?_ (List.Pairwise.and_mem.1 (wanted discovered scope).rising)
    rintro e e' ⟨he, he', hlt⟩ b hb c hc hplace
    rw [place?_callFor? hb, place?_callFor? hc, Option.some.injEq] at hplace
    rw [key_of_mem_wanted he, key_of_mem_wanted he', hplace] at hlt
    exact absurd hlt (String.lt_irrefl _)
  · refine List.pairwise_map.2 ?_
    refine (List.Pairwise.and_mem.1 (existing.rising.filter _)).imp ?_
    rintro e e' ⟨he, he', hlt⟩ hplace
    have hsame : e.2.place = e'.2.place := Option.some.inj hplace
    rw [(mem_stale hknows he).1, (mem_stale hknows he').1, hsame] at hlt
    exact absurd hlt (String.lt_irrefl _)
  · intro b hb c hc hplace
    obtain ⟨e, he, hcall⟩ := List.mem_filterMap.1 hb
    obtain ⟨e', he', rfl⟩ := List.mem_map.1 hc
    rw [place?_callFor? hcall] at hplace
    have hsame : e.2.place = e'.2.place := Option.some.inj hplace
    have hnone := (mem_stale hknows he').2.2
    rw [← hsame, (mem_wanted.1 he).2.2] at hnone
    cases hnone

/-- What is planned at a place, by the comment that counts there and the note that is
there. -/
inductive Planned (discovered : List Comment) (scope : Option String) (ns : List Note) :
    Call → Prop
  | create {c : Comment} (hscope : c.place.isIn scope)
      (hfirst : firstAt discovered c.place = some c) (hat : Note.at? ns c.place = none) :
      Planned discovered scope ns (.create (.ofComment c))
  | update {c : Comment} {n : Note} (hscope : c.place.isIn scope)
      (hfirst : firstAt discovered c.place = some c) (hat : Note.at? ns c.place = some n)
      (hagrees : agrees n c = false) :
      Planned discovered scope ns (.update c.filepath c.line (.ofComment c))
  | delete {n : Note} (hscope : n.place.isIn scope)
      (hfirst : firstAt discovered n.place = none) (hat : Note.at? ns n.place = some n) :
      Planned discovered scope ns (.delete n.filepath n.line)

/-- The plan made of an index that knows the notes holds what is planned at each place, and
nothing else. -/
theorem mem_plan_iff (hknows : Knows existing scope ns) {c : Call} :
    c ∈ plan (wantedEntries discovered scope) existing ↔ Planned discovered scope ns c := by
  have hget : ∀ {p}, p.isIn scope → existing.get? p.key = Note.at? ns p := by
    intro p hp
    rw [hknows.get?, if_pos hp]
  rw [mem_plan]
  constructor
  · rintro (⟨e, he, hcall⟩ | ⟨e, he, rfl⟩)
    · obtain ⟨hkey, hscope, hfirst⟩ := mem_wanted.1 he
      obtain ⟨hat, rfl⟩ | ⟨n, hat, hagrees, rfl⟩ := callFor?_cases hcall
      · rw [hkey, hget hscope] at hat
        exact .create hscope hfirst hat
      · rw [hkey, hget hscope] at hat
        exact .update hscope hfirst hat hagrees
    · obtain ⟨-, hscope, hat, hfirst⟩ := (mem_stale_iff hknows).1 he
      exact .delete hscope hfirst hat
  · intro h
    cases h with
    | @create c hscope hfirst hat =>
      refine .inl ⟨(c.place.key, c), mem_wanted.2 ⟨rfl, hscope, hfirst⟩, ?_⟩
      simp only [callFor?, hget hscope, hat]
    | @update c n hscope hfirst hat hagrees =>
      refine .inl ⟨(c.place.key, c), mem_wanted.2 ⟨rfl, hscope, hfirst⟩, ?_⟩
      simp only [callFor?, hget hscope, hat, hagrees, Bool.false_eq_true, if_false]
    | @delete n hscope hfirst hat =>
      exact .inr ⟨(n.place.key, n), (mem_stale_iff hknows).2 ⟨rfl, hscope, hat, hfirst⟩, rfl⟩

/-- What is planned is planned at a place in scope. -/
theorem Planned.exists_place {c : Call} (h : Planned discovered scope ns c) :
    ∃ p, c.place? = some p ∧ p.isIn scope := by
  cases h with
  | create hscope _ _ => exact ⟨_, rfl, hscope⟩
  | update hscope _ _ _ => exact ⟨_, rfl, hscope⟩
  | delete hscope _ _ => exact ⟨_, rfl, hscope⟩

/-- Whether the notes that a pass must update can still be changed. -/
def Changeable (discovered : List Comment) (scope : Option String) (ns : List Note) : Prop :=
  ∀ p c n, p.isIn scope → firstAt discovered p = some c → Note.at? ns p = some n →
    agrees n c = false → n.updatedAt.YearWithin 0 9998

theorem allDue_plan (hknows : Knows existing scope ns)
    (hchange : Changeable discovered scope ns) :
    Call.AllDue ns (plan (wantedEntries discovered scope) existing) := by
  refine ⟨fun c hc => ?_, apart_plan hknows⟩
  cases (mem_plan_iff hknows).1 hc with
  | create _ _ hat => exact hat
  | update hscope hfirst hat hagrees =>
    exact ⟨rfl, _, hat, hchange _ _ _ hscope hfirst hat hagrees⟩
  | delete => trivial

end Calls

/-! ## Place by place -/

/-- What a pass makes of notes: what was in scope is as the comments say, and what
was not is left alone. -/
structure Outcome (discovered : List Comment) (scope : Option String) (ns ns' : List Note) :
    Prop where
  outside : ∀ p, p.isIn scope = false → Note.at? ns' p = Note.at? ns p
  pruned : ∀ p, p.isIn scope → firstAt discovered p = none → Note.at? ns' p = none
  kept : ∀ p c n, p.isIn scope → firstAt discovered p = some c → Note.at? ns p = some n →
    agrees n c = true → Note.at? ns' p = some n
  updated : ∀ p c n, p.isIn scope → firstAt discovered p = some c → Note.at? ns p = some n →
    agrees n c = false → ∃ t, Note.at? ns' p = some (n.revise (.ofComment c) t)
  created : ∀ p c, p.isIn scope → firstAt discovered p = some c → Note.at? ns p = none →
    ∃ w : Draw, Note.at? ns' p = some ((Draft.ofComment c).toNote w.id w.now).cutTimes

section Places

variable {discovered : List Comment} {scope : Option String} {ns ns' : List Note}
  {existing : Index Note}

/-- Nothing is planned for a place where there is neither a comment nor a note. -/
theorem place?_ne_of_bare (hknows : Knows existing scope ns) {p : Location}
    (hfirst : firstAt discovered p = none) (hat : Note.at? ns p = none) {c : Call}
    (hc : c ∈ plan (wantedEntries discovered scope) existing) : c.place? ≠ some p := by
  intro hp
  cases (mem_plan_iff hknows).1 hc with
  | create _ hsome _ =>
    cases hp
    cases hfirst.symm.trans hsome
  | update _ hsome _ _ =>
    cases hp
    cases hfirst.symm.trans hsome
  | delete _ _ hsome =>
    cases hp
    cases hat.symm.trans hsome

/-- Nothing is planned for a place where the note agrees with the comment. -/
theorem place?_ne_of_agrees (hknows : Knows existing scope ns) {p : Location} {comment : Comment}
    {n : Note} (hfirst : firstAt discovered p = some comment) (hat : Note.at? ns p = some n)
    (hagrees : agrees n comment = true) {c : Call}
    (hc : c ∈ plan (wantedEntries discovered scope) existing) : c.place? ≠ some p := by
  intro hp
  cases (mem_plan_iff hknows).1 hc with
  | create _ _ hnone =>
    cases hp
    cases hat.symm.trans hnone
  | update _ hsome hold hdiffers =>
    cases hp
    cases hfirst.symm.trans hsome
    cases hat.symm.trans hold
    rw [hagrees] at hdiffers
    cases hdiffers
  | delete _ hnone _ =>
    cases hp
    cases hfirst.symm.trans hnone

/-- Serving its plan brings the outcome of a pass about. -/
theorem outcome_of_leads (hplaces : ∀ p n, Note.at? ns p = some n → n.place = p)
    (hknows : Knows existing scope ns)
    (hleads : Call.Leads (plan (wantedEntries discovered scope) existing) ns ns') :
    Outcome discovered scope ns ns' := by
  refine ⟨?_, ?_, ?_, ?_, ?_⟩
  · intro p hout
    refine hleads.elsewhere p fun c hc hp => ?_
    obtain ⟨q, hq, hscope⟩ := ((mem_plan_iff hknows).1 hc).exists_place
    cases hp.symm.trans hq
    rw [hout] at hscope
    cases hscope
  · intro p hscope hfirst
    cases hat : Note.at? ns p with
    | none => rw [hleads.elsewhere p fun c => place?_ne_of_bare hknows hfirst hat, hat]
    | some n =>
      obtain rfl := hplaces p n hat
      have hmem := (mem_plan_iff hknows).2 (.delete hscope hfirst hat)
      obtain ⟨w, hw⟩ := hleads.effects _ hmem n.place rfl
      exact hw
  · intro p c n hscope hfirst hat hagrees
    rw [hleads.elsewhere p fun c => place?_ne_of_agrees hknows hfirst hat hagrees, hat]
  · intro p c n hscope hfirst hat hagrees
    obtain rfl := place_of_firstAt hfirst
    have hmem := (mem_plan_iff hknows).2 (.update hscope hfirst hat hagrees)
    obtain ⟨w, hw⟩ := hleads.effects _ hmem c.place rfl
    rw [hat] at hw
    exact ⟨_, hw⟩
  · intro p c hscope hfirst hat
    obtain rfl := place_of_firstAt hfirst
    have hmem := (mem_plan_iff hknows).2 (.create hscope hfirst hat)
    obtain ⟨w, hw⟩ := hleads.effects _ hmem c.place rfl
    exact ⟨w, hw⟩

end Places

/-! ## The run of a pass -/

section Run

variable {discovered : List Comment} {scope : Option String} {ns : List Note} {d : Desk}

/-- The listing of a pass tells it the notes in scope, and the plan that it makes of
them is one that the notes allow. -/
theorem exists_listing (h : d.store.Shows ns) (hchange : Changeable discovered scope ns) :
    ∃ notes : List Note, Desk.answer (.list scope) d = (.ok notes, d.after d.store) ∧
      Knows (known notes) scope ns ∧
      Call.AllDue ns (plan (wantedEntries discovered scope) (known notes)) := by
  obtain ⟨notes, hlist, hperm⟩ := Desk.answer_list h scope
  have hknows := knows_known h.toHolds hperm
  exact ⟨notes, hlist, hknows, allDue_plan hknows hchange⟩

/-- After its listing a pass follows its plan. -/
theorem follows_plan (discovered : List Comment) (scope : Option String) (notes : List Note) :
    (write (wantedEntries discovered scope) (known notes) .empty).Follows
      (plan (wantedEntries discovered scope) (known notes))
      (tally (wantedEntries discovered scope) (known notes)) := by
  have hfollows := write_follows (wanted discovered scope).nodup_keys (known notes) .empty
  rwa [Report.empty_plus] at hfollows

/-- A pass whose draws are fair draws for its plan only. -/
theorem fairFor_plan (h : d.store.Shows ns) {notes : List Note}
    (hlist : Desk.answer (.list scope) d = (.ok notes, d.after d.store))
    (hdue : Call.AllDue ns (plan (wantedEntries discovered scope) (known notes)))
    (hfair : (pass discovered scope).Always Desk.answer Desk.IsFair d) :
    Desk.FairFor (plan (wantedEntries discovered scope) (known notes)) (d.after d.store) := by
  have hwrite := hfair.2
  rw [hlist] at hwrite
  exact (follows_plan discovered scope notes).fairFor (d := d.after d.store) h hdue hwrite

theorem run_pass {σ : Type} {clerk : Clerk σ} {state state' : σ} {notes : List Note}
    (hlist : clerk (.list scope) state = (.ok notes, state')) :
    (pass discovered scope).run clerk state =
      (write (wantedEntries discovered scope) (known notes) .empty).run clerk state' := by
  rw [pass, Script.run, hlist]

theorem calls_pass {σ : Type} {clerk : Clerk σ} {state state' : σ} {notes : List Note}
    (hlist : clerk (.list scope) state = (.ok notes, state')) :
    (pass discovered scope).calls clerk state = .list scope ::
      (write (wantedEntries discovered scope) (known notes) .empty).calls clerk state' := by
  rw [pass, Script.calls, hlist]

theorem granted_pass {σ : Type} {clerk : Clerk σ} {state state' : σ} {notes : List Note}
    (hlist : clerk (.list scope) state = (.ok notes, state')) :
    (pass discovered scope).granted clerk state = .list scope ::
      (write (wantedEntries discovered scope) (known notes) .empty).granted clerk state' := by
  simp only [pass, Script.granted, hlist]

/-- A pass whose draws are fair reports the tally of its plan and brings its outcome
about. -/
theorem exists_tally (h : d.store.Shows ns) (hchange : Changeable discovered scope ns)
    (hfair : (pass discovered scope).Always Desk.answer Desk.IsFair d) :
    ∃ existing d' ns', Knows existing scope ns ∧
      (pass discovered scope).run Desk.answer d =
        (.ok (tally (wantedEntries discovered scope) existing), d') ∧
      d'.store.Shows ns' ∧ Outcome discovered scope ns ns' := by
  obtain ⟨notes, hlist, hknows, hdue⟩ := exists_listing h hchange
  have hplan := fairFor_plan h hlist hdue hfair
  obtain ⟨hgrants, ns', hshows, hleads⟩ := Desk.serve_spec (d := d.after d.store) h hdue hplan
  obtain ⟨hrun, -, -⟩ := (follows_plan discovered scope notes).run_eq hgrants
  refine ⟨known notes, _, ns', hknows, (run_pass hlist).trans hrun, hshows, ?_⟩
  exact outcome_of_leads (fun p n hat => (h.at?_eq_some_iff.1 hat).2) hknows hleads

/-- A pass whose draws are fair succeeds and brings its outcome about. -/
theorem exists_outcome (h : d.store.Shows ns) (hchange : Changeable discovered scope ns)
    (hfair : (pass discovered scope).Always Desk.answer Desk.IsFair d) :
    ∃ report d' ns', (pass discovered scope).run Desk.answer d = (.ok report, d') ∧
      d'.store.Shows ns' ∧ Outcome discovered scope ns ns' := by
  obtain ⟨existing, d', ns', -, hrun, hshows, houtcome⟩ := exists_tally h hchange hfair
  exact ⟨_, d', ns', hrun, hshows, houtcome⟩

/-- In a reachable store whose times end with the year 9998, every note can be read
and every one can be changed once more. -/
theorem shows_of_reachable {s : Store} (hreach : s.Reachable) (htimes : s.TimesWithin 0 9998) :
    ∃ ns, s.Shows ns ∧ ∀ (discovered : List Comment) (scope : Option String),
      Changeable discovered scope ns := by
  obtain ⟨ns, h⟩ := hreach.holds
  have hyears := h.timesWithin htimes
  refine ⟨ns, ⟨h, fun n hn => ?_⟩, ?_⟩
  · exact ⟨(hyears n hn).1.mono (Int.le_refl 0) (by omega),
      (hyears n hn).2.mono (Int.le_refl 0) (by omega)⟩
  · intro discovered scope p c n _ _ hat _
    exact (hyears n (h.at?_eq_some_iff.1 hat).1).2

end Run

/-! ## A small pass

A store with one note, and a comment that now says something else in its place. -/

/-- A note on the first line of a file. -/
def oldNoteIn (filepath : String) : Note :=
  { filepath := filepath, line := 1, kind := .note, text := "old", username := none, email := none
    id := default, createdAt := ⟨0, 0⟩, updatedAt := ⟨0, 0⟩ }

/-- The store with such a note. -/
def oneNote (filepath : String) : Store := .ofNotes [oldNoteIn filepath]

/-- The note of the small pass. -/
def oldNote : Note := oldNoteIn "a.c"

/-- The comment of the small pass. -/
def newComment : Comment := ⟨"a.c", "TODO new", 1, .todo, false⟩

/-- The desk of the small pass. -/
def smallDesk : Desk := ⟨.ofNotes [oldNote], fun n => ⟨.ofRandom n, ⟨n, 0⟩⟩⟩

section OneNote

variable (filepath : String)

theorem timesWithin_oldNoteIn {last : Int} (h : 1970 ≤ last) :
    (oldNoteIn filepath).TimesWithin 0 last := by
  have hyear : (Instant.mk 0 0).YearWithin 0 last :=
    ⟨by decide, (show (Instant.mk 0 0).year ≤ 1970 by decide).trans h⟩
  exact ⟨hyear, hyear⟩

theorem oneNote_reachable : (oneNote filepath).Reachable :=
  have hproper : (Instant.mk 0 0).IsProper := by decide
  .create .empty (n := oldNoteIn filepath) hproper hproper rfl

theorem oneNote_timesWithin : (oneNote filepath).TimesWithin 0 9998 := by
  have hread : Instant.read? (Instant.toStoredText ⟨0, 0⟩).toList = some ⟨0, 0⟩ :=
    Instant.read?_toStoredText (by decide) (by decide)
  intro r hr
  rw [List.mem_singleton.1 hr]
  exact ⟨⟨_, hread, by decide⟩, _, hread, by decide⟩

theorem oneNote_shows : (oneNote filepath).Shows [oldNoteIn filepath] :=
  { tables := rfl
    ids := List.nodup_singleton _
    places := List.nodup_singleton _
    kept := fun n hn => by
      have htime : (Instant.mk 0 0).IsKept := ⟨by decide, by decide⟩
      rw [List.mem_singleton.1 hn]
      exact ⟨htime, htime⟩
    readable := fun n hn => by
      rw [List.mem_singleton.1 hn]
      exact timesWithin_oldNoteIn filepath (by decide) }

end OneNote

theorem smallDesk_reachable : smallDesk.store.Reachable := oneNote_reachable "a.c"

theorem smallDesk_timesWithin : smallDesk.store.TimesWithin 0 9998 := oneNote_timesWithin "a.c"

theorem smallDesk_shows : smallDesk.store.Shows [oldNote] := oneNote_shows "a.c"

theorem smallDesk_list :
    Desk.answer (.list none) smallDesk = (.ok [oldNote], smallDesk.after smallDesk.store) := by
  have hall := smallDesk_shows.select_eq smallDesk_shows.readable fun _ => true
  rw [List.mergeSort_singleton] at hall
  exact Prod.ext hall rfl

/-- After its listing the small pass makes one call, which changes the note. -/
theorem write_newComment :
    write (wantedEntries [newComment] none) (known [oldNote]) .empty =
      .call (.update newComment.filepath newComment.line (.ofComment newComment)) fun
        | .ok _ => .done (.ok ⟨0, 1, 0, []⟩)
        | .error e => .done (.error e) := by
  have hget : (known [oldNote]).get? newComment.key = some oldNote :=
    (get?_known (show ([oldNote].map Note.place).Nodup from List.nodup_singleton _)).2
      ⟨List.mem_singleton.2 rfl, rfl⟩
  have hrest : ((known [oldNote]).erase newComment.key).entries = [] :=
    List.filter_eq_nil_iff.2 fun e he => by
      rw [List.mem_singleton.1 (show e ∈ [(newComment.key, oldNote)] from he)]
      simp
  have hagrees : agrees oldNote newComment = false := by decide
  change write [(newComment.key, newComment)] (known [oldNote]) .empty = _
  simp only [write, hget, hagrees, Bool.false_eq_true, if_false, hrest]
  refine congrArg (Script.call _) (funext fun reply => ?_)
  cases reply <;> rfl

theorem smallDesk_fair :
    (pass [newComment] none).Always Desk.answer Desk.IsFair smallDesk := by
  refine ⟨trivial, ?_⟩
  rw [smallDesk_list]
  simp only [write_newComment]
  refine ⟨⟨by decide, by decide⟩, ?_⟩
  rcases Desk.answer (.update newComment.filepath newComment.line (.ofComment newComment))
    (smallDesk.after smallDesk.store) with ⟨_ | _, _⟩ <;> trivial

theorem smallDesk_calls :
    .update newComment.filepath newComment.line (.ofComment newComment) ∈
      (pass [newComment] none).calls Desk.answer smallDesk := by
  rw [calls_pass smallDesk_list, write_newComment]
  exact List.mem_cons_of_mem _ List.mem_cons_self

end Marginalia.Reconcile
