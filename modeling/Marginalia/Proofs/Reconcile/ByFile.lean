import Marginalia.Proofs.Reconcile.Arrival

set_option autoImplicit false

/-!
# A pass file by file

Passes over single files have nothing to do with each other: each makes calls about
places of its own file and asks for the notes and the comments there only.  So passes over
all files in turn, in any order, make of the notes what one pass over everything makes of
them, and their reports add up to its report.
-/

namespace Marginalia

/-- Reports that add up to a report; what they say was removed may be in another order. -/
structure Report.AddUp (reports : List Report) (whole : Report) : Prop where
  created : (reports.map (·.created)).sum = whole.created
  updated : (reports.map (·.updated)).sum = whole.updated
  unchanged : (reports.map (·.unchanged)).sum = whole.unchanged
  pruned : (reports.flatMap (·.pruned)).Perm whole.pruned

namespace Reconcile

variable {discovered : List Comment} {scope : Option String} {files : List String}
  {ns cur : List Note} {existing existing' : Index Note}

/-- A pass over each of some files in turn, as long as none fails. -/
def passEach (discovered : List Comment) : List String → Attempt (List Report)
  | [] => .done (.ok [])
  | filepath :: files => (pass discovered (some filepath)).andThen fun
    | .error e => .done (.error e)
    | .ok report => (passEach discovered files).andThen fun
      | .error e => .done (.error e)
      | .ok reports => .done (.ok (report :: reports))

/-! ## Sorting by file -/

/-- A list sorted into the places of a list of keys, when every member has its place. -/
theorem perm_flatMap_filter {α κ : Type} [BEq κ] [LawfulBEq κ] (key : α → κ) {keys : List κ}
    (hkeys : keys.Nodup) {l : List α} (hcovers : ∀ a ∈ l, key a ∈ keys) :
    (keys.flatMap fun k => l.filter (key · == k)).Perm l := by
  induction keys generalizing l with
  | nil =>
    rw [List.flatMap_nil, List.eq_nil_iff_forall_not_mem.2 fun a ha => nomatch hcovers a ha]
  | cons k keys ih =>
    obtain ⟨hk, hrest⟩ := List.nodup_cons.1 hkeys
    have hothers : ∀ a ∈ l.filter (fun a => !(key a == k)), key a ∈ keys := by
      intro a ha
      obtain ⟨ha, hne⟩ := List.mem_filter.1 ha
      refine (List.mem_cons.1 (hcovers a ha)).resolve_left ?_
      simpa using hne
    have hsame : (keys.flatMap fun j => l.filter (key · == j)) =
        keys.flatMap fun j => (l.filter fun a => !(key a == k)).filter (key · == j) := by
      refine List.flatMap_congr fun j hj => ?_
      rw [List.filter_filter]
      refine List.filter_congr fun a _ => ?_
      rw [Bool.eq_iff_iff, Bool.and_eq_true, Bool.not_eq_true', beq_eq_false_iff_ne, beq_iff_eq]
      exact ⟨fun ha => ⟨ha, fun hak => hk (hak ▸ ha ▸ hj)⟩, fun ha => ha.1⟩
    rw [List.flatMap_cons, hsame]
    exact ((ih hrest hothers).append_left _).trans (List.filter_append_perm _ _)

theorem sum_countP_filter {α : Type} (filepath : α → String) (hfiles : files.Nodup) {l : List α}
    (hcovers : ∀ a ∈ l, filepath a ∈ files) (test : α → Bool) :
    (files.map fun f => (l.filter (filepath · == f)).countP test).sum = l.countP test := by
  rw [← (perm_flatMap_filter filepath hfiles hcovers).countP_eq, List.countP_flatMap]
  rfl

/-! ## The share of a file -/

/-- The share of a file in what a pass reports. -/
def share (entries : List (String × Comment)) (existing : Index Note) (filepath : String) :
    Report :=
  let own := entries.filter (·.2.filepath == filepath)
  { created := own.countP fun e => (existing.get? e.1).isNone
    updated := own.countP fun e => (existing.get? e.1).any (!agrees · e.2)
    unchanged := own.countP fun e => (existing.get? e.1).any (agrees · e.2)
    pruned := ((stale entries existing).filter (·.2.filepath == filepath)).map (·.1) }

/-- The shares of all files add up to the report of the pass. -/
theorem addUp_share (hfiles : files.Nodup) {entries : List (String × Comment)}
    (hentries : ∀ e ∈ entries, e.2.filepath ∈ files)
    (hnotes : ∀ e ∈ existing.entries, e.2.filepath ∈ files) :
    Report.AddUp (files.map (share entries existing)) (tally entries existing) := by
  have hstale : ∀ e ∈ stale entries existing, e.2.filepath ∈ files := by
    intro e he
    exact hnotes e (List.mem_filter.1 he).1
  have hcount := sum_countP_filter (fun e : String × Comment => e.2.filepath) hfiles hentries
  refine ⟨?_, ?_, ?_, ?_⟩
  · rw [List.map_map]
    exact hcount _
  · rw [List.map_map]
    exact hcount _
  · rw [List.map_map]
    exact hcount _
  · have hperm := (perm_flatMap_filter (fun e : String × Note => e.2.filepath) hfiles hstale).map
      (·.1)
    rw [List.map_flatMap] at hperm
    rw [List.flatMap_map]
    exact hperm

/-- A pass over one file wants what a full pass wants there. -/
theorem wantedEntries_some (discovered : List Comment) (filepath : String) :
    wantedEntries discovered (some filepath) =
      (wantedEntries discovered none).filter (·.2.filepath == filepath) := by
  refine Index.eq_of_rising (wanted discovered (some filepath)).rising
    ((wanted discovered none).rising.filter _) ?_
  intro e
  rw [List.mem_filter, mem_wanted, mem_wanted, isIn_some_iff, beq_iff_eq]
  constructor
  · rintro ⟨hkey, hfile, hfirst⟩
    exact ⟨⟨hkey, rfl, hfirst⟩, hfile⟩
  · rintro ⟨⟨hkey, -, hfirst⟩, hfile⟩
    exact ⟨hkey, hfile, hfirst⟩

/-- A pass over one file finds stale what a full pass finds stale there. -/
theorem stale_some {filepath : String} (hknows : Knows existing none ns)
    (hknows' : Knows existing' (some filepath) cur)
    (hsame : ∀ p : Location, p.1 = filepath → Note.at? cur p = Note.at? ns p) :
    stale (wantedEntries discovered (some filepath)) existing' =
      (stale (wantedEntries discovered none) existing).filter (·.2.filepath == filepath) := by
  refine Index.eq_of_rising (existing'.rising.filter _)
    ((existing.rising.filter _).filter _) ?_
  intro e
  rw [List.mem_filter, mem_stale_iff hknows, mem_stale_iff hknows', isIn_some_iff, beq_iff_eq]
  constructor
  · rintro ⟨hkey, hfile, hat, hnone⟩
    rw [hsame _ hfile] at hat
    exact ⟨⟨hkey, rfl, hat, hnone⟩, hfile⟩
  · rintro ⟨⟨hkey, -, hat, hnone⟩, hfile⟩
    refine ⟨hkey, hfile, ?_, hnone⟩
    rw [hsame e.2.place hfile]
    exact hat

/-- A pass over one file reports the share of the file, if its notes are those that a
full pass would find. -/
theorem tally_some {filepath : String} (hknows : Knows existing none ns)
    (hknows' : Knows existing' (some filepath) cur)
    (hsame : ∀ p : Location, p.1 = filepath → Note.at? cur p = Note.at? ns p) :
    tally (wantedEntries discovered (some filepath)) existing' =
      share (wantedEntries discovered none) existing filepath := by
  have hget : ∀ e ∈ wantedEntries discovered (some filepath),
      existing'.get? e.1 = existing.get? e.1 := by
    intro e he
    obtain ⟨hkey, hfile, -⟩ := mem_wanted.1 he
    have hat := hsame e.2.place (isIn_some_iff.1 hfile)
    rw [hkey, hknows.get?, hknows'.get?, if_pos hfile, hat]
    rfl
  have hcount : ∀ test : Option Note → Comment → Bool,
      (wantedEntries discovered (some filepath)).countP
          (fun e => test (existing'.get? e.1) e.2) =
        (wantedEntries discovered (some filepath)).countP
          fun e => test (existing.get? e.1) e.2 := by
    intro test
    refine List.countP_congr fun e he => ?_
    rw [hget e he]
  rw [tally, share, ← wantedEntries_some, stale_some hknows hknows' hsame, Report.mk.injEq]
  exact ⟨hcount fun n _ => n.isNone, hcount fun n c => n.any (!agrees · c),
    hcount fun n c => n.any (agrees · c), rfl⟩

/-! ## One file after the other -/

/-- Passes over files in turn report the shares of the files and make of the notes there
what a full pass makes of them; all other notes stay. -/
theorem exists_passEach (hfiles : files.Nodup) {d : Desk} (hknows : Knows existing none ns)
    (hchange : Changeable discovered none ns) (h : d.store.Shows cur)
    (hsame : ∀ p : Location, p.1 ∈ files → Note.at? cur p = Note.at? ns p)
    (hfair : (passEach discovered files).Always Desk.answer Desk.IsFair d) :
    ∃ d' ns', (passEach discovered files).run Desk.answer d =
        (.ok (files.map (share (wantedEntries discovered none) existing)), d') ∧
      d'.store.Shows ns' ∧
      (∀ p : Location, p.1 ∉ files → Note.at? ns' p = Note.at? cur p) ∧
      ∀ p : Location, p.1 ∈ files →
        Becomes (Note.at? ns p) (Note.at? ns' p) (firstAt discovered p) := by
  induction files generalizing d cur with
  | nil => exact ⟨d, cur, rfl, h, fun _ _ => rfl, fun _ hp => (nomatch hp)⟩
  | cons filepath files ih =>
    obtain ⟨hfile, hrest⟩ := List.nodup_cons.1 hfiles
    have hown : ∀ p : Location, p.1 = filepath → Note.at? cur p = Note.at? ns p := by
      intro p hp
      exact hsame p (hp ▸ List.mem_cons_self)
    have hchange' : Changeable discovered (some filepath) cur := by
      intro p c n hscope hfirst hat
      rw [hown p (isIn_some_iff.1 hscope)] at hat
      exact hchange p c n rfl hfirst hat
    rw [passEach, Script.always_andThen] at hfair
    obtain ⟨existing', d₁, ns₁, hknows', hrun, hshows, houtcome⟩ :=
      exists_tally h hchange' hfair.1
    have hout : ∀ p : Location, p.1 ≠ filepath → Note.at? ns₁ p = Note.at? cur p := by
      intro p hp
      exact houtcome.outside p (Bool.eq_false_iff.2 fun hin => hp (isIn_some_iff.1 hin))
    have hsame' : ∀ p : Location, p.1 ∈ files → Note.at? ns₁ p = Note.at? ns p := by
      intro p hp
      rw [hout p fun heq => hfile (heq ▸ hp)]
      exact hsame p (List.mem_cons_of_mem _ hp)
    have hfair' := hfair.2
    rw [hrun, Script.always_andThen] at hfair'
    obtain ⟨d', ns', hrun', hshows', hframe, hbecomes⟩ := ih hrest hshows hsame' hfair'.1
    refine ⟨d', ns', ?_, hshows', ?_, ?_⟩
    · rw [passEach, Script.run_andThen, hrun, Script.run_andThen, hrun',
        tally_some hknows hknows' hown]
      rfl
    · intro p hp
      rw [hframe p fun hin => hp (List.mem_cons_of_mem _ hin),
        hout p fun heq => hp (heq ▸ List.mem_cons_self)]
    · intro p hp
      rcases List.mem_cons.1 hp with heq | hin
      · -- the passes that come after leave the file alone
        have hbecome := houtcome.becomes (isIn_some_iff.2 heq)
        rwa [← hframe p (heq ▸ hfile), hown p heq] at hbecome
      · exact hbecomes p hin

/-- Passes over single files in turn, over each file of a note or a comment once, report
and leave what one pass over everything does, up to what each run draws. -/
theorem passEach_alike {d : Desk} {draws : Nat → Draw} (hreach : d.store.Reachable)
    (htimes : d.store.TimesWithin 0 9998) (hfiles : files.Nodup)
    (hstored : ∀ r ∈ d.store.notes, r.filepath ∈ files)
    (hdiscovered : ∀ c ∈ discovered, c.filepath ∈ files)
    (hfair : (pass discovered none).Always Desk.answer Desk.IsFair d)
    (hfair' : (passEach discovered files).Always Desk.answer Desk.IsFair ⟨d.store, draws⟩) :
    ∃ report reports d' d'' before after after',
      (pass discovered none).run Desk.answer d = (.ok report, d') ∧
      (passEach discovered files).run Desk.answer ⟨d.store, draws⟩ = (.ok reports, d'') ∧
      Report.AddUp reports report ∧
      d.store.all = .ok before ∧ d'.store.all = .ok after ∧ d''.store.all = .ok after' ∧
      Alike before after after' := by
  obtain ⟨ns, hshows, hchange⟩ := shows_of_reachable hreach htimes
  have hnotes : ∀ n ∈ ns, n.filepath ∈ files := by
    intro n hn
    refine hstored (.ofNote n) ?_
    rw [hshows.tables]
    exact List.mem_map.2 ⟨n, hn, rfl⟩
  obtain ⟨existing, d', ns₁, hknows, hrun, hshows₁, houtcome⟩ :=
    exists_tally hshows (hchange discovered none) hfair
  obtain ⟨d'', ns₂, hrun', hshows₂, hframe, hbecomes⟩ :=
    exists_passEach (d := ⟨d.store, draws⟩) hfiles hknows (hchange discovered none) hshows
      (fun _ _ => rfl) hfair'
  obtain ⟨before, hbefore, hperm⟩ := exists_all hshows
  obtain ⟨after, hafter, hperm₁⟩ := exists_all hshows₁
  obtain ⟨after', hafter', hperm₂⟩ := exists_all hshows₂
  refine ⟨_, _, d', d'', before, after, after', hrun, hrun', ?_, hbefore, hafter, hafter', ?_⟩
  · refine addUp_share hfiles ?_ ?_
    · intro e he
      exact hdiscovered e.2 (List.mem_of_find?_eq_some (mem_wanted.1 he).2.2)
    · intro e he
      exact hnotes e.2 (hshows.at?_eq_some_iff.1 ((hknows.mem_entries_iff e).1 he).2.2).1
  · refine alike_of_at? hshows.toHolds hshows₁.toHolds hshows₂.toHolds hperm hperm₁ hperm₂ ?_
    intro p
    have hone := houtcome.becomes (p := p) rfl
    by_cases hp : p.1 ∈ files
    · exact hone.alikeAt (hbecomes p hp)
    · -- where there is neither a note nor a comment, both leave nothing
      have hnone : firstAt discovered p = none := by
        refine Option.eq_none_iff_forall_ne_some.2 fun c hc => hp ?_
        rw [← place_of_firstAt hc]
        exact hdiscovered c (List.mem_of_find?_eq_some hc)
      have hbare : Note.at? ns p = none := by
        refine Option.eq_none_iff_forall_ne_some.2 fun n hat => hp ?_
        obtain ⟨hn, hplace⟩ := hshows.at?_eq_some_iff.1 hat
        rw [← hplace]
        exact hnotes n hn
      rw [hnone, hbare] at hone
      rw [hframe p hp, hbare, show Note.at? ns₁ p = none from hone]
      exact alikeAt_self none

/-! ## Two files

A note of one file is written over, and one of another file is removed. -/

/-- A note where there is no comment any more. -/
def strayNote : Note :=
  { oldNote with filepath := "b.c", id := .ofRandom 4 }

/-- The desk with the notes of two files. -/
def twoFilesDesk : Desk := ⟨.ofNotes [oldNote, strayNote], smallDesk.draws⟩

theorem twoFilesDesk_reachable : twoFilesDesk.store.Reachable :=
  .create (n := strayNote) smallDesk_reachable (by decide) (by decide) rfl

theorem twoFilesDesk_timesWithin : twoFilesDesk.store.TimesWithin 0 9998 := by
  intro r hr
  rcases List.mem_cons.1 hr with rfl | hr
  · exact smallDesk_timesWithin _ List.mem_cons_self
  · rw [List.mem_singleton.1 hr]
    exact smallDesk_timesWithin (.ofNote oldNote) List.mem_cons_self

theorem twoFilesDesk_shows : ∃ ns, twoFilesDesk.store.Shows ns ∧ ns.length = 2 := by
  obtain ⟨ns, hshows, -⟩ := shows_of_reachable twoFilesDesk_reachable twoFilesDesk_timesWithin
  refine ⟨ns, hshows, ?_⟩
  have hrows : twoFilesDesk.store.notes.length = (ns.map Row.ofNote).length :=
    congrArg (·.notes.length) hshows.tables
  exact (List.length_map _).symm.trans hrows.symm

theorem passEach_twoFiles_fair :
    (passEach [newComment] ["a.c", "b.c"]).Always Desk.answer Desk.IsFair
      ⟨twoFilesDesk.store, laterDraws⟩ := by
  obtain ⟨ns, hshows, hlength⟩ := twoFilesDesk_shows
  have hfresh : Desk.Fresh ([newComment].length + ns.length + 1)
      ⟨twoFilesDesk.store, laterDraws⟩ := by
    rw [hlength]
    exact ⟨by decide, by decide, by decide⟩
  rw [passEach, Script.always_andThen]
  refine ⟨always_pass_of_shows (d := ⟨twoFilesDesk.store, laterDraws⟩) hshows hfresh _, ?_⟩
  split
  · trivial
  · rw [passEach, Script.always_andThen, Script.always_andThen]
    refine ⟨⟨always_pass_of_unasked (by decide) _, ?_⟩, ?_⟩
    · split <;> trivial
    · split <;> trivial

/-- The passes over the two files together write over one note and remove the other one,
as one pass over everything does. -/
theorem passEach_alike_twoFiles :
    ∃ report reports d' d'' before after after',
      (pass [newComment] none).run Desk.answer twoFilesDesk = (.ok report, d') ∧
      (passEach [newComment] ["a.c", "b.c"]).run Desk.answer ⟨twoFilesDesk.store, laterDraws⟩ =
        (.ok reports, d'') ∧
      Report.AddUp reports report ∧
      twoFilesDesk.store.all = .ok before ∧ d'.store.all = .ok after ∧
      d''.store.all = .ok after' ∧ Alike before after after' := by
  obtain ⟨ns, hshows, hlength⟩ := twoFilesDesk_shows
  have hfresh : twoFilesDesk.Fresh ([newComment].length + ns.length + 1) := by
    rw [hlength]
    exact ⟨by decide, by decide, by decide⟩
  exact passEach_alike twoFilesDesk_reachable twoFilesDesk_timesWithin (by decide) (by decide)
    (by decide) (always_pass_of_shows hshows hfresh none) passEach_twoFiles_fair

end Reconcile

end Marginalia
