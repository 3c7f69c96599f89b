import Marginalia.Proofs.Reconcile.Outcome
import Marginalia.Proofs.Store.Listing

set_option autoImplicit false

/-!
# Emptying a file

The notes of a file go by a purge, by a pass that finds no comments in the file, or one by
one.  A purge takes all rows out at once by the name of the file, the other two look each
row up by its place.  On whole tables they leave the same store, and the purge and the pass
name the same keys in the same order.
-/

namespace Marginalia

/-! ## Deleting one after the other -/

namespace Store

/-- The store after the notes at some places are deleted one after the other. -/
def deleteEach (s : Store) (places : List Location) : Store :=
  places.foldl (fun s p => s.delete p.1 p.2) s

/-- What is taken out in two steps is taken out in one. -/
theorem besides_or (s : Store) (first second : String → Bool) :
    (s.besides first).besides second = s.besides fun id => first id || second id := by
  simp only [besides, List.filter_filter, Bool.not_or, Bool.and_comm]

theorem addressed_besides (s : Store) (gone : String → Bool) (filepath : String) (line : UInt32)
    (id : String) : (s.besides gone).addressed filepath line id =
      (!gone id && s.addressed filepath line id) := by
  rw [Bool.eq_iff_iff, Bool.and_eq_true, addressed, addressed, List.any_eq_true, List.any_eq_true]
  simp only [besides, List.mem_filter, Bool.and_eq_true, beq_iff_eq]
  constructor
  · rintro ⟨r, ⟨hr, hstays⟩, hat, rfl⟩
    exact ⟨hstays, r, hr, hat, rfl⟩
  · rintro ⟨hstays, r, hr, hat, rfl⟩
    exact ⟨r, ⟨hr, hstays⟩, hat, rfl⟩

namespace Intact

variable {s : Store}

/-- Deleting one after the other takes out what belongs to the places, and nothing else. -/
theorem deleteEach_eq (h : s.Intact) (places : List Location) :
    s.deleteEach places = s.besides fun id => places.any fun p => s.addressed p.1 p.2 id := by
  induction places generalizing s with
  | nil => exact s.besides_none.symm
  | cons p places ih =>
    have hafter : (s.delete p.1 p.2).Intact := h.delete_eq p.1 p.2 ▸ h.besides _
    rw [deleteEach, List.foldl_cons]
    refine (ih hafter).trans ?_
    simp only [h.delete_eq, besides_or, addressed_besides, List.any_cons]
    refine congrArg s.besides (funext fun id => ?_)
    -- what the first deletion took out is not there for the others to take out
    cases s.addressed p.1 p.2 id <;> simp

/-- The rows at the places of the notes of a file are the rows of the file. -/
theorem any_addressed_eq (h : s.Intact) {all notes : List Note} (hall : s.all = .ok all)
    {filepath : String} (hfile : s.byFile filepath = .ok notes) (id : String) :
    (notes.map Note.place).any (fun p => s.addressed p.1 p.2 id) = s.idsInFile filepath id := by
  rw [byFile_of_all hall] at hfile
  obtain rfl := Except.ok.inj hfile
  rw [Bool.eq_iff_iff, idsInFile, List.any_map, List.any_eq_true, List.any_eq_true]
  simp only [List.mem_filter, Function.comp_apply, addressed, List.any_eq_true, Bool.and_eq_true,
    beq_iff_eq]
  constructor
  · rintro ⟨n, ⟨-, hn⟩, r, hr, hat, hid⟩
    have hplace := ((h.written r hr).isAt_iff _ _).1 hat
    exact ⟨r, hr, (Prod.mk.inj hplace).1.trans hn, hid⟩
  · rintro ⟨r, hr, hfile, hid⟩
    obtain ⟨n, hread⟩ := exists_readRow_iff.2 (isReadable_iff.1 ⟨all, hall⟩ r hr)
    have hplace := h.place_eq hr hread
    refine ⟨n, ⟨(mem_of_all hall).2 ⟨r, hr, hread⟩, ?_⟩, r, hr,
      ((h.written r hr).isAt_iff _ _).2 hplace, hid⟩
    exact (Prod.mk.inj hplace).1.symm.trans hfile

/-- Deleting the notes of a file one after the other, in any order, deletes the file. -/
theorem deleteEach_file (h : s.Intact) {all notes order : List Note} (hall : s.all = .ok all)
    {filepath : String} (hfile : s.byFile filepath = .ok notes) (horder : order.Perm notes) :
    s.deleteEach (order.map Note.place) = s.deleteFile filepath := by
  rw [h.deleteEach_eq, h.deleteFile_eq]
  refine congrArg s.besides (funext fun id => ?_)
  rw [(horder.map Note.place).any_eq, h.any_addressed_eq hall hfile]

end Intact

end Store

/-! ## At a desk -/

/-- The call that deletes the note at a place. -/
def Location.deletion (p : Location) : Call := .delete p.1 p.2

namespace Desk

/-- Deletions are all granted and make the deletions in the store. -/
theorem serve_deletions (places : List Location) (d : Desk) :
    Clerk.Grants answer (places.map Location.deletion) d ∧
      (Clerk.serve answer (places.map Location.deletion) d).store =
        d.store.deleteEach places := by
  induction places generalizing d with
  | nil => exact ⟨trivial, rfl⟩
  | cons p places ih =>
    obtain ⟨hgrants, hstore⟩ := ih (d.after (d.store.delete p.1 p.2))
    exact ⟨⟨⟨(), rfl⟩, hgrants⟩, hstore⟩

end Desk

namespace Reconcile

/-! ## The two lists of keys -/

section Keys

variable {notes : List Note}

theorem mem_known (h : (notes.map Note.place).Nodup) {e : String × Note} :
    e ∈ (known notes).entries ↔ e.2 ∈ notes ∧ e.2.key = e.1 :=
  (Index.mem_entries_iff _ _ _).trans (get?_known h)

/-- The notes that a pass knows are those that are listed, each once. -/
theorem perm_known (h : (notes.map Note.place).Nodup) :
    ((known notes).entries.map (·.2)).Perm notes := by
  have hplaces : ((known notes).entries.map fun e => e.2.place).Nodup :=
    nodup_places (fun e he => ((mem_known h).1 he).2.symm) (known notes).nodup_keys
  have hnodup : ((known notes).entries.map (·.2)).Nodup := by
    refine List.Nodup.of_map Note.place ?_
    rwa [List.map_map]
  refine (List.perm_ext_iff_of_nodup hnodup h.of_map).2 fun n => ?_
  rw [List.mem_map]
  constructor
  · rintro ⟨e, he, rfl⟩
    exact ((mem_known h).1 he).1
  · intro hn
    exact ⟨(n.key, n), (mem_known h).2 ⟨hn, rfl⟩, rfl⟩

/-- The keys of the notes that a pass knows are those of the notes in rising order. -/
theorem keys_known (h : (notes.map Note.place).Nodup) :
    (known notes).entries.map (·.1) = (notes.map Note.key).mergeSort fun a b => decide (a ≤ b) := by
  have hkeys :
      ((known notes).entries.map (·.2)).map Note.key = (known notes).entries.map (·.1) := by
    rw [List.map_map]
    exact List.map_congr_left fun e he => ((mem_known h).1 he).2
  have hperm : ((known notes).entries.map (·.1)).Perm
      ((notes.map Note.key).mergeSort fun a b => decide (a ≤ b)) := by
    rw [← hkeys]
    exact ((perm_known h).map Note.key).trans (List.mergeSort_perm _ _).symm
  have hrising : ((known notes).entries.map (·.1)).Pairwise (· ≤ ·) :=
    List.pairwise_map.2 ((known notes).rising.imp fun hlt => Std.le_of_lt hlt)
  have hsorted : ((notes.map Note.key).mergeSort fun a b => decide (a ≤ b)).Pairwise (· ≤ ·) := by
    refine (List.pairwise_mergeSort ?_ ?_ _).imp decide_eq_true_iff.1
    · intro a b c
      simpa only [decide_eq_true_iff] using String.le_trans
    · intro a b
      simpa only [Bool.or_eq_true, decide_eq_true_iff] using String.le_total a b
  exact hperm.eq_of_pairwise (fun a b _ _ => String.le_antisymm) hrising hsorted

end Keys

/-! ## The three ways -/

/-- Tables with the rows of a file and their texts taken out, and nothing else. -/
structure IsEmptied (filepath : String) (s s' : Store) : Prop where
  notes : s'.notes = s.notes.filter (·.filepath != filepath)
  texts : s'.texts = s.texts.filter fun t =>
    !s.notes.any fun r => r.filepath == filepath && r.id == t.noteId

section Ways

variable {d : Desk} {notes : List Note} {filepath : String}

theorem run_purge (hlist : d.store.byFile filepath = .ok notes) :
    ∃ d', (purge filepath).run Desk.answer d =
        (.ok ((notes.map Note.key).mergeSort fun a b => decide (a ≤ b)), d') ∧
      d'.store = d.store.deleteFile filepath := by
  have hanswer : Desk.answer (.list (some filepath)) d = (.ok notes, d.after d.store) :=
    Prod.ext hlist rfl
  refine ⟨(d.after d.store).after (d.store.deleteFile filepath), ?_, rfl⟩
  rw [purge, Script.run, hanswer]
  rfl

/-- A pass that finds no comments in a file deletes the notes that are listed for it, one
after the other. -/
theorem run_bare (hlist : d.store.byFile filepath = .ok notes) :
    ∃ d', (pass [] (some filepath)).run Desk.answer d =
        (.ok ⟨0, 0, 0, (known notes).entries.map (·.1)⟩, d') ∧
      d'.store = d.store.deleteEach ((known notes).entries.map fun e => e.2.place) := by
  have hanswer : Desk.answer (.list (some filepath)) d = (.ok notes, d.after d.store) :=
    Prod.ext hlist rfl
  obtain ⟨hgrants, hstore⟩ := Desk.serve_deletions
    ((known notes).entries.map fun e => e.2.place) (d.after d.store)
  rw [List.map_map] at hgrants hstore
  have hprune := (prune_follows (known notes).entries .empty).run_eq hgrants
  refine ⟨_, (run_pass hanswer).trans ?_, hstore⟩
  exact hprune.1

end Ways

/-- A purge of a file, a pass that finds no comments in it and deletions of its notes in any
order all succeed and leave the same store: the one without the rows of the file and their
texts.  The pass prunes the keys that the purge names, in the same order. -/
theorem emptyings_agree (ops : List (Operation × Mishaps)) (draws : Nat → Draw)
    (h : (Operation.run ops).IsReadable) (filepath : String) :
    ∃ notes keys purged passed, (Operation.run ops).byFile filepath = .ok notes ∧
      (purge filepath).run Desk.answer ⟨Operation.run ops, draws⟩ = (.ok keys, purged) ∧
      (pass [] (some filepath)).run Desk.answer ⟨Operation.run ops, draws⟩ =
        (.ok ⟨0, 0, 0, keys⟩, passed) ∧
      keys.Perm (notes.map Note.key) ∧ IsEmptied filepath (Operation.run ops) purged.store ∧
      passed.store = purged.store ∧
      ∀ order : List Note, order.Perm notes →
        Clerk.Grants Desk.answer (order.map (·.place.deletion)) ⟨Operation.run ops, draws⟩ ∧
          (Clerk.serve Desk.answer (order.map (·.place.deletion))
            ⟨Operation.run ops, draws⟩).store = purged.store := by
  obtain ⟨all, hall⟩ := h
  have hintact := Operation.intact_run ops
  have hlist := Store.byFile_of_all hall filepath
  have hplaces : ((all.filter (·.filepath == filepath)).map Note.place).Nodup := by
    refine Keyed.nodup_filter (List.nodup_iff_pairwise_ne.2 ?_) _
    exact (hintact.pairwise_of_all hall).imp fun hlt => hlt.ne
  have hempty : ∀ order : List Note, order.Perm (all.filter (·.filepath == filepath)) →
      (Operation.run ops).deleteEach (order.map Note.place) =
        (Operation.run ops).deleteFile filepath :=
    fun order => hintact.deleteEach_file hall hlist
  obtain ⟨purged, hpurge, hpurged⟩ := run_purge (d := ⟨Operation.run ops, draws⟩) hlist
  obtain ⟨passed, hpass, hpassed⟩ := run_bare (d := ⟨Operation.run ops, draws⟩) hlist
  rw [keys_known hplaces] at hpass
  refine ⟨_, _, purged, passed, hlist, hpurge, hpass, List.mergeSort_perm _ _, ?_, ?_, ?_⟩
  · rw [hpurged]
    exact ⟨rfl, rfl⟩
  · have hknown := hempty _ (perm_known hplaces)
    rw [List.map_map] at hknown
    rw [hpassed, hpurged]
    exact hknown
  · intro order horder
    obtain ⟨hgrants, hstore⟩ :=
      Desk.serve_deletions (order.map Note.place) ⟨Operation.run ops, draws⟩
    rw [List.map_map] at hgrants hstore
    refine ⟨hgrants, hstore.trans ?_⟩
    rw [hpurged]
    exact hempty order horder

/-- A file with two notes, whose keys are in another order than their lines. -/
theorem emptyings_agree_twoNotes :
    (Operation.run Operation.twoNotes).IsReadable ∧
    ∃ notes keys purged passed, (Operation.run Operation.twoNotes).byFile "a.c" = .ok notes ∧
      (purge "a.c").run Desk.answer ⟨Operation.run Operation.twoNotes, fun _ => default⟩ =
        (.ok keys, purged) ∧
      (pass [] (some "a.c")).run Desk.answer
        ⟨Operation.run Operation.twoNotes, fun _ => default⟩ = (.ok ⟨0, 0, 0, keys⟩, passed) ∧
      passed.store = purged.store ∧
      (Clerk.serve Desk.answer (notes.reverse.map (·.place.deletion))
        ⟨Operation.run Operation.twoNotes, fun _ => default⟩).store = purged.store := by
  obtain ⟨notes, keys, purged, passed, hlist, hpurge, hpass, -, -, hsame, horder⟩ :=
    emptyings_agree Operation.twoNotes (fun _ => default) Operation.isReadable_twoNotes "a.c"
  exact ⟨Operation.isReadable_twoNotes, notes, keys, purged, passed, hlist, hpurge, hpass, hsame,
    (horder _ (List.reverse_perm notes)).2⟩

end Reconcile

end Marginalia
