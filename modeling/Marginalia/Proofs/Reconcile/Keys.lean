import Marginalia.Proofs.Reconcile.Convergence
import Marginalia.Proofs.Reconcile.Emptying

set_option autoImplicit false

/-!
# Notes and comments meet at places

A pass has its notes and its comments by key and not by place.  Since a key names one
place, and no listing of stored notes shows two for one place, the index of the notes has
each of them; and at every turn of a pass, whichever keys were taken out by then, the note
that is found for a comment is the one at its place.  So in every run, whatever happens
between its calls, a pass writes over notes and removes them by their places.
-/

namespace Marginalia

/-! ## Notes of files with colons -/

namespace Operation

/-- Two notes whose keys are the same but for a colon: the name of one file ends in what is
a line in the other. -/
def colonNotes : List (Operation × Mishaps) :=
  creating [{ strayNote with filepath := "a", line := 11 },
    { strayNote with filepath := "a:1", line := 1, id := .ofRandom 1 }]

theorem isReadable_colonNotes : (run colonNotes).IsReadable := isReadable_creating _ (by decide)

end Operation

namespace Reconcile

variable {notes : List Note}

/-! ## The notes of a listing -/

/-- An index of notes for different places has each of them. -/
theorem size_known (h : (notes.map Note.place).Nodup) : (known notes).size = notes.length := by
  rw [← (perm_known h).length_eq, List.length_map, Index.size]

/-- At every turn of a pass the note that is found for a comment is the one at its place. -/
theorem get?_turn (h : (notes.map Note.place).Nodup) (gone : List String) (c : Comment)
    (n : Note) :
    (gone.foldl Index.erase (known notes)).get? c.key = some n ↔
      c.key ∉ gone ∧ n ∈ notes ∧ n.place = c.place := by
  rw [Index.get?_foldl_erase]
  split
  · rename_i hgone
    exact iff_of_false (fun hfound => nomatch hfound) fun hright => hright.1 hgone
  · rename_i hgone
    rw [get?_known h, Note.key_eq, Comment.key_eq, Location.key_inj]
    exact (and_iff_right hgone).symm

/-! ## The calls of a run -/

/-- Whether a call fits what was listed and what was discovered, place by place: a comment
is added where no note was listed, or written over the note listed at its place, and a note
is removed where none of the comments in scope is. -/
def MeetsAt (discovered : List Comment) (scope : Option String) (notes : List Note) : Call → Prop
  | .create d => ∃ c ∈ discovered, d = .ofComment c ∧ ∀ n ∈ notes, n.place ≠ c.place
  | .update filepath line d => ∃ c ∈ discovered, d = .ofComment c ∧ c.place = (filepath, line) ∧
      ∃ n ∈ notes, n.place = (filepath, line)
  | .delete filepath line => (∃ n ∈ notes, n.place = (filepath, line)) ∧
      ∀ c ∈ discovered, inScope scope c → c.place ≠ (filepath, line)
  | .list _ | .deleteFile _ => False

section Calls

variable {discovered : List Comment} {scope : Option String}

theorem meetsAt_of_callFor? (h : (notes.map Note.place).Nodup) {e : String × Comment}
    (he : e ∈ wantedEntries discovered scope) {call : Call}
    (hcall : callFor? (known notes) e = some call) : MeetsAt discovered scope notes call := by
  obtain ⟨hkey, -, hfirst⟩ := mem_wanted.1 he
  have hc : e.2 ∈ discovered := List.mem_of_find?_eq_some hfirst
  obtain ⟨hnone, rfl⟩ | ⟨n, hfound, -, rfl⟩ := callFor?_cases hcall
  · refine ⟨e.2, hc, rfl, fun n hn hplace => ?_⟩
    have hfound := (get?_known h).2 ⟨hn, (congrArg Location.key hplace).trans hkey.symm⟩
    rw [hnone] at hfound
    cases hfound
  · obtain ⟨hn, hnkey⟩ := (get?_known h).1 hfound
    exact ⟨e.2, hc, rfl, rfl, n, hn, Location.key_injective (hnkey.trans hkey)⟩

theorem meetsAt_removal (h : (notes.map Note.place).Nodup) {e : String × Note}
    (he : e ∈ stale (wantedEntries discovered scope) (known notes)) :
    MeetsAt discovered scope notes (removal e) := by
  obtain ⟨hknown, hunasked⟩ := List.mem_filter.1 he
  obtain ⟨hn, hkey⟩ := (mem_known h).1 hknown
  refine ⟨⟨e.2, hn, rfl⟩, fun c hc hscope hplace => ?_⟩
  refine of_decide_eq_true hunasked ?_
  rw [← hkey, Note.key_eq, key_mem_wanted, exists_firstAt_iff]
  have hsame : c.place = e.2.place := hplace
  exact ⟨hsame ▸ hscope, c, hc, hsame⟩

/-- Whatever a pass is answered after its listing, each of its calls fits. -/
theorem meetsAt_of_mem_calls {σ : Type} (clerk : Clerk σ) (h : (notes.map Note.place).Nodup)
    (report : Report) (state : σ) {call : Call}
    (hcall : call ∈ (write (wantedEntries discovered scope) (known notes) report).calls clerk
      state) : MeetsAt discovered scope notes call := by
  have hkeys := (wanted discovered scope).nodup_keys
  have hplan := (isPrefix_calls_write clerk hkeys (known notes) report state).subset hcall
  rcases mem_plan.1 hplan with ⟨e, he, hfor⟩ | ⟨e, he, rfl⟩
  · exact meetsAt_of_callFor? h he hfor
  · exact meetsAt_removal h he

end Calls

/-! ## All keys, listings and runs -/

/-- A key names one place.  So the index of the notes that a store lists has each of them
under its key, at every turn of a pass over them the note that is found for a comment is
the one at its place, and each call of a run fits place by place, whatever is answered
between the calls. -/
theorem keys_tell_places :
    (∀ f g k l, locationKey f k = locationKey g l → f = g ∧ k = l) ∧
    ∀ ops test notes, (Operation.run ops).select test = .ok notes →
      (known notes).size = notes.length ∧
      (∀ n ∈ notes, (known notes).get? n.key = some n) ∧
      (∀ (gone : List String) (c : Comment) n,
        (gone.foldl Index.erase (known notes)).get? c.key = some n ↔
          c.key ∉ gone ∧ n ∈ notes ∧ n.place = c.place) ∧
      ∀ (σ : Type) (clerk : Clerk σ) (state state' : σ) discovered scope,
        clerk (.list scope) state = (.ok notes, state') →
        ∃ later, (pass discovered scope).calls clerk state = .list scope :: later ∧
          ∀ call ∈ later, MeetsAt discovered scope notes call := by
  refine ⟨fun _ _ _ _ => locationKey_inj, fun ops test notes hlisted => ?_⟩
  have hplaces := (Operation.intact_run ops).nodup_places_of_select hlisted
  refine ⟨size_known hplaces, fun n hn => (get?_known hplaces).2 ⟨hn, rfl⟩, get?_turn hplaces, ?_⟩
  intro σ clerk state state' discovered scope hlist
  exact ⟨_, calls_pass hlist, fun call => meetsAt_of_mem_calls clerk hplaces .empty state'⟩

/-- Both notes are in the index, and once one was taken out a comment at the place of the
other still finds it. -/
theorem keys_tell_places_colons :
    ∃ notes, (Operation.run Operation.colonNotes).all = .ok notes ∧ (known notes).size = 2 ∧
      ∃ n ∈ notes, n.place = ("a:1", 1) ∧
        ∀ c : Comment, c.place = ("a:1", 1) →
          ([locationKey "a" 11].foldl Index.erase (known notes)).get? c.key = some n := by
  obtain ⟨notes, hall⟩ := Operation.isReadable_colonNotes
  obtain ⟨htells, hlistings⟩ := keys_tell_places
  obtain ⟨hsize, -, hfound, -⟩ := hlistings Operation.colonNotes (fun _ => true) notes hall
  have htwo : (Operation.run Operation.colonNotes).notes.length = 2 := rfl
  have hlength := (Store.perm_of_all hall).length_eq
  rw [List.length_map, List.length_map, htwo] at hlength
  have hthere : ((Operation.run Operation.colonNotes).get "a:1" 1).toOption ≠ none := by
    decide +kernel
  cases hget : (Operation.run Operation.colonNotes).get "a:1" 1 with
  | error e => exact absurd (congrArg Except.toOption hget) hthere
  | ok n =>
    obtain ⟨hn, hplace⟩ :=
      ((Operation.intact_run Operation.colonNotes).get_eq_ok_iff_of_all hall).1 hget
    refine ⟨notes, hall, hsize.trans hlength.symm, n, hn, hplace, fun c hc => ?_⟩
    refine (hfound _ c n).2 ⟨?_, hn, hplace.trans hc.symm⟩
    rw [Comment.key_eq, hc, List.mem_singleton]
    exact fun hkey => absurd (htells _ _ _ _ hkey).1 (by decide)

end Reconcile

end Marginalia
