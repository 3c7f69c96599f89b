import Marginalia.Proofs.Note.Id
import Marginalia.Proofs.Store.Row
import Marginalia.Proofs.Store.Transaction
import Mathlib.Data.List.Nodup

set_option autoImplicit false

/-!
# The integrity of the tables

Whatever operations are tried on a store, and whether they succeed or fail, its
rows are told apart by their identifiers and by their places, and every row has
one text.  On such tables an operation that succeeds leaves all rows and texts
alone but those of the note it is about.
-/

namespace Marginalia

open Marginalia.Time (Instant)

/-! ## Whole tables -/

namespace Row

/-- A row as the store writes it. -/
structure IsWritten (r : Row) : Prop where
  id : ∃ id : NoteId, r.id = id.toText
  line : ∃ line : UInt32, r.line = .ofLine line

/-- Where a row is. -/
def place (r : Row) : String × LineCell := (r.filepath, r.line)

theorem isWritten_ofNote (n : Note) : (ofNote n).IsWritten := ⟨⟨n.id, rfl⟩, n.line, rfl⟩

theorem IsWritten.revise {r : Row} (h : r.IsWritten) (d : Draft) (t : Instant) :
    (r.revise d t).IsWritten :=
  ⟨h.id, d.line, rfl⟩

/-- A written row is at one location only. -/
theorem IsWritten.isAt_iff {r : Row} (h : r.IsWritten) (filepath : String) (line : UInt32) :
    r.isAt filepath (.ofLine line) = true ↔ r.place = (filepath, .ofLine line) := by
  obtain ⟨l, hl⟩ := h.line
  rw [isAt, place, hl, Bool.and_eq_true, beq_iff_eq, beq_iff_eq, compare_ofLine_eq_iff,
    Prod.mk.injEq]
  refine and_congr_right fun _ => ⟨fun h => h ▸ rfl, fun h => ?_⟩
  rw [← compare_ofLine_eq_iff, h]
  exact (compare_ofLine_eq_iff line line).2 rfl

/-- A written row is read back under its own identifier. -/
theorem IsWritten.toText_id {r : Row} (h : r.IsWritten) {text : Option String} {n : Note}
    (hread : r.read text = .ok n) : n.id.toText = r.id := by
  obtain ⟨id, hid⟩ := h.id
  have hsame := (read_eq_ok_iff.1 hread).1.1
  rw [hid, NoteId.read?_toText] at hsame
  rw [hid, Option.some.inj hsame]

end Row

namespace Store

/-- Tables in which rows are told apart by identifier and by place, and the texts
are those of the rows. -/
structure Intact (s : Store) : Prop where
  written : ∀ r ∈ s.notes, r.IsWritten
  ids : (s.notes.map (·.id)).Nodup
  places : (s.notes.map Row.place).Nodup
  texts : s.texts.map (·.noteId) = s.notes.map (·.id)

/-- Tables without the rows and texts of some identifiers. -/
def besides (s : Store) (gone : String → Bool) : Store :=
  ⟨s.notes.filter fun r => !gone r.id, s.texts.filter fun t => !gone t.noteId⟩

theorem besides_besides (s : Store) (gone : String → Bool) :
    (s.besides gone).besides gone = s.besides gone := by
  simp only [besides, List.filter_filter, Bool.and_self]

/-- Members that are changed under their keys leave the others as they are. -/
theorem filter_map_eq {α : Type} {f : α → α} {p : α → Bool} (hkept : ∀ a, p (f a) = p a)
    (hsame : ∀ a, p a = true → f a = a) (l : List α) : (l.map f).filter p = l.filter p := by
  rw [List.filter_map, show p ∘ f = p from funext hkept]
  exact (List.map_congr_left fun a ha => hsame a (List.mem_filter.1 ha).2).trans (List.map_id' _)

/-- The identifiers of the rows at a location. -/
def addressed (s : Store) (filepath : String) (line : UInt32) (id : String) : Bool :=
  s.notes.any fun r => r.isAt filepath (.ofLine line) && r.id == id

/-- The identifiers of the rows of a file. -/
def idsInFile (s : Store) (filepath : String) (id : String) : Bool :=
  s.notes.any fun r => r.filepath == filepath && r.id == id

theorem besides_none (s : Store) : s.besides (fun _ => false) = s := by
  simp [besides]

theorem mem_of_rowAt? {s : Store} {filepath : String} {line : UInt32} {r : Row}
    (h : s.rowAt? filepath line = some r) :
    r ∈ s.notes ∧ r.isAt filepath (.ofLine line) = true :=
  ⟨List.mem_of_find?_eq_some h,
    List.find?_some (p := fun q : Row => q.isAt filepath (.ofLine line)) h⟩

namespace Intact

variable {s s' : Store}

theorem empty : Store.empty.Intact :=
  ⟨fun _ hr => absurd hr List.not_mem_nil, List.nodup_nil, List.nodup_nil, rfl⟩

/-- Two rows with one identifier are the same. -/
theorem eq_of_id (h : s.Intact) {q r : Row} (hq : q ∈ s.notes) (hr : r ∈ s.notes)
    (hid : q.id = r.id) : q = r :=
  List.inj_on_of_nodup_map h.ids hq hr hid

/-- Two rows at one place are the same. -/
theorem eq_of_place (h : s.Intact) {q r : Row} (hq : q ∈ s.notes) (hr : r ∈ s.notes)
    (hplace : q.place = r.place) : q = r :=
  List.inj_on_of_nodup_map h.places hq hr hplace

theorem any_noteId (h : s.Intact) (id : String) :
    s.texts.any (·.noteId == id) = s.notes.any (·.id == id) := by
  have htexts := congrArg (List.any · (· == id)) h.texts
  simpa only [List.any_map, Function.comp_def] using htexts

theorem besides (h : s.Intact) (gone : String → Bool) : (s.besides gone).Intact := by
  refine ⟨fun r hr => h.written r (List.mem_filter.1 hr).1,
    h.ids.sublist (List.filter_sublist.map _), h.places.sublist (List.filter_sublist.map _), ?_⟩
  have htexts := congrArg (List.filter fun id => !gone id) h.texts
  simpa only [Store.besides, List.filter_map, Function.comp_def] using htexts

/-! ## One operation -/

theorem of_create (h : s.Intact) {n : Note} (hcreate : s.create n = .ok s') :
    s'.Intact ∧ s'.besides (· == n.id.toText) = s.besides (· == n.id.toText) := by
  unfold create at hcreate
  dsimp only at hcreate
  split at hcreate
  · cases hcreate
  rename_i hplace
  split at hcreate
  · cases hcreate
  rename_i hid
  split at hcreate
  · cases hcreate
  obtain rfl := Except.ok.inj hcreate
  refine ⟨⟨?_, ?_, ?_, ?_⟩, ?_⟩
  · intro r hr
    rcases List.mem_append.1 hr with hr | hr
    · exact h.written r hr
    · rw [List.mem_singleton.1 hr]
      exact Row.isWritten_ofNote n
  · rw [List.map_append]
    refine h.ids.append (List.nodup_singleton _) fun id hleft hright => hid ?_
    obtain ⟨r, hr, hrid⟩ := List.mem_map.1 hleft
    rw [List.map_singleton, List.mem_singleton] at hright
    exact List.any_eq_true.2 ⟨r, hr, beq_iff_eq.2 (hrid.trans hright)⟩
  · rw [List.map_append]
    refine h.places.append (List.nodup_singleton _) fun place hleft hright => hplace ?_
    obtain ⟨r, hr, hrplace⟩ := List.mem_map.1 hleft
    rw [List.map_singleton, List.mem_singleton] at hright
    exact List.any_eq_true.2 ⟨r, hr, ((h.written r hr).isAt_iff _ _).2 (hrplace.trans hright)⟩
  · simp only [List.map_append, h.texts, List.map_singleton]
  · simp [Store.besides, Row.ofNote]

/-- The row that an update is about, and what the update makes of the tables. -/
theorem exists_of_update (h : s.Intact) {filepath : String} {line : UInt32} {d : Draft}
    {now : Instant} (hupdate : s.update filepath line d now = .ok s') :
    ∃ r ∈ s.notes, r.place = (filepath, .ofLine line) ∧
      (∀ q ∈ s.notes, q.id ≠ r.id → q.place ≠ (d.filepath, .ofLine d.line)) ∧
      ∃ t, s' = ⟨Statement.reviseRows s.notes r.id d t,
        s.texts.map fun x => if x.noteId == r.id then ⟨r.id, d.text⟩ else x⟩ := by
  cases hrow : s.rowAt? filepath line with
  | none =>
    rw [update, get, hrow] at hupdate
    cases hupdate
  | some r =>
    obtain ⟨hr, hplace⟩ := mem_of_rowAt? hrow
    have hknown : s.notes.any (·.id == r.id) = true :=
      List.any_eq_true.2 ⟨r, hr, beq_self_eq_true _⟩
    have hput : s.putText r.id d.text =
        .ok (s.texts.map fun x => if x.noteId == r.id then ⟨r.id, d.text⟩ else x) :=
      if_pos ((h.any_noteId r.id).trans hknown)
    cases hread : s.readRow r with
    | error e =>
      rw [update, get, hrow] at hupdate
      simp only [hread] at hupdate
      cases hupdate
    | ok existing =>
      have hid : existing.id.toText = r.id :=
        (h.written r hr).toText_id (readRow_eq_ok_iff.1 hread)
      rw [update, get, hrow] at hupdate
      simp only [hread, bind, Except.bind, hid, hknown, Bool.and_true, hput] at hupdate
      split at hupdate
      · cases hupdate
      · rename_i hfree
        refine ⟨r, hr, ((h.written r hr).isAt_iff _ _).1 hplace, fun q hq hne hplace => ?_, _,
          (Except.ok.inj hupdate).symm⟩
        refine hfree (List.any_eq_true.2 ⟨q, hq, ?_⟩)
        rw [Bool.and_eq_true, bne_iff_ne]
        exact ⟨hne, ((h.written q hq).isAt_iff _ _).2 hplace⟩

/-- Rows with a draft written over one of them are still told apart, if no other row is
where the draft is for. -/
theorem nodup_places_reviseRows (h : s.Intact) {r : Row} {d : Draft} {t : Instant}
    (hfree : ∀ q ∈ s.notes, q.id ≠ r.id → q.place ≠ (d.filepath, .ofLine d.line)) :
    ((Statement.reviseRows s.notes r.id d t).map Row.place).Nodup := by
  rw [Statement.reviseRows, List.map_map]
  refine List.Nodup.map_on ?_ h.ids.of_map
  intro a ha b hb hab
  simp only [Function.comp_apply, beq_iff_eq] at hab
  by_cases hra : a.id = r.id
  · by_cases hrb : b.id = r.id
    · exact h.eq_of_id ha hb (hra.trans hrb.symm)
    · rw [if_pos hra, if_neg hrb] at hab
      exact absurd hab.symm (hfree b hb hrb)
  · by_cases hrb : b.id = r.id
    · rw [if_neg hra, if_pos hrb] at hab
      exact absurd hab (hfree a ha hra)
    · rw [if_neg hra, if_neg hrb] at hab
      exact h.eq_of_place ha hb hab

theorem of_update (h : s.Intact) {filepath : String} {line : UInt32} {d : Draft}
    {now : Instant} (hupdate : s.update filepath line d now = .ok s') :
    s'.Intact ∧ s'.besides (addressed s filepath line) = s.besides (addressed s filepath line) := by
  obtain ⟨r, hr, hplace, hfree, t, rfl⟩ := h.exists_of_update hupdate
  have hgone : s.addressed filepath line r.id = true := by
    refine List.any_eq_true.2 ⟨r, hr, ?_⟩
    rw [Bool.and_eq_true, beq_iff_eq]
    exact ⟨((h.written r hr).isAt_iff _ _).2 hplace, rfl⟩
  have htext : ∀ x : TextRow,
      (if x.noteId == r.id then ⟨r.id, d.text⟩ else x : TextRow).noteId = x.noteId := by
    intro x
    split
    · rename_i hid
      exact (beq_iff_eq.1 hid).symm
    · rfl
  have hids := Statement.map_id_reviseRows s.notes r.id d t
  refine ⟨⟨?_, hids ▸ h.ids, h.nodup_places_reviseRows hfree, ?_⟩, ?_⟩
  · intro q hq
    obtain ⟨a, ha, rfl⟩ := List.mem_map.1 hq
    split
    · exact (h.written a ha).revise d t
    · exact h.written a ha
  · rw [hids, ← h.texts, List.map_map]
    exact List.map_congr_left fun x _ => htext x
  · refine congrArg₂ Store.mk (filter_map_eq (fun q => ?_) (fun q hq => ?_) _)
      (filter_map_eq (fun x => ?_) (fun x hx => ?_) _)
    · rw [Statement.id_revised]
    · refine if_neg fun hid => ?_
      rw [beq_iff_eq.1 hid, hgone] at hq
      cases hq
    · rw [htext]
    · refine if_neg fun hid => ?_
      rw [beq_iff_eq.1 hid, hgone] at hx
      cases hx

/-- A deletion takes out what belongs to the location, and nothing else. -/
theorem delete_eq (h : s.Intact) (filepath : String) (line : UInt32) :
    s.delete filepath line = s.besides (s.addressed filepath line) := by
  have hsame : ∀ id, s.addressed filepath line id =
      ((s.rowAt? filepath line).map (·.id)).any (id == ·) := by
    intro id
    rw [Bool.eq_iff_iff, addressed, List.any_eq_true]
    cases hrow : s.rowAt? filepath line with
    | none =>
      have hnone := List.find?_eq_none.1 hrow
      simp only [Option.map_none, Option.any_none, Bool.false_eq_true, iff_false]
      rintro ⟨q, hq, hboth⟩
      exact hnone q hq (Bool.and_eq_true_iff.1 hboth).1
    | some r =>
      obtain ⟨hr, hplace⟩ := mem_of_rowAt? hrow
      simp only [Option.map_some, Option.any_some, beq_iff_eq, Bool.and_eq_true]
      constructor
      · rintro ⟨q, hq, hqplace, hid⟩
        rw [← hid, h.eq_of_place hq hr]
        rw [((h.written q hq).isAt_iff _ _).1 hqplace, ((h.written r hr).isAt_iff _ _).1 hplace]
      · rintro rfl
        exact ⟨r, hr, hplace, rfl⟩
  unfold delete
  cases hrow : s.rowAt? filepath line with
  | none =>
    have hnone : s.addressed filepath line = fun _ => false :=
      funext fun id => by rw [hsame, hrow]; rfl
    rw [hnone, besides_none]
  | some r =>
    have hone : s.addressed filepath line = (· == r.id) :=
      funext fun id => by rw [hsame, hrow]; rfl
    rw [hone]
    rfl

/-- The deletion of a file takes out what belongs to the file, and nothing else. -/
theorem deleteFile_eq (h : s.Intact) (filepath : String) :
    s.deleteFile filepath = s.besides (s.idsInFile filepath) := by
  refine congrArg₂ Store.mk (List.filter_congr fun r hr => ?_) rfl
  rw [bne, idsInFile, Bool.not_eq_eq_eq_not, Bool.not_not, Bool.eq_iff_iff, List.any_eq_true,
    beq_iff_eq]
  constructor
  · intro hfile
    exact ⟨r, hr, by simp [hfile]⟩
  · rintro ⟨q, hq, hboth⟩
    rw [Bool.and_eq_true, beq_iff_eq, beq_iff_eq] at hboth
    rw [← h.eq_of_id hq hr hboth.2]
    exact hboth.1

end Intact

end Store

/-! ## Every run -/

namespace Operation

open Store (Intact)

variable {s s' : Store}

/-- The identifiers of the notes that an operation is about. -/
def addresses : Operation → Store → String → Bool
  | .create n, _ => (· == n.id.toText)
  | .update filepath line _ _, s => s.addressed filepath line
  | .delete filepath line, s => s.addressed filepath line
  | .deleteFile filepath, s => s.idsInFile filepath
  | .reopen, _ => fun _ => false

/-- One operation that succeeds keeps the tables intact, and leaves all that it is
not about. -/
theorem intact_of_apply (h : s.Intact) {op : Operation} (happly : op.apply s = .ok s') :
    s'.Intact ∧ s'.besides (op.addresses s) = s.besides (op.addresses s) := by
  cases op with
  | create n => exact h.of_create happly
  | update filepath line d now => exact h.of_update happly
  | delete filepath line =>
    rw [← Except.ok.inj happly, h.delete_eq]
    exact ⟨h.besides _, s.besides_besides _⟩
  | deleteFile filepath =>
    rw [← Except.ok.inj happly, h.deleteFile_eq]
    exact ⟨h.besides _, s.besides_besides _⟩
  | reopen => exact ⟨Except.ok.inj happly ▸ h, Except.ok.inj happly ▸ rfl⟩

/-- One operation keeps the tables intact, whatever its reply and whatever stops it. -/
theorem intact_perform (h : s.Intact) (op : Operation) (mishaps : Mishaps) :
    (op.perform mishaps s).2.Intact := by
  cases hreply : (op.perform mishaps s).1 with
  | ok => exact (intact_of_apply h (apply_of_ok hreply)).1
  | error e => exact (tables_of_error hreply).symm ▸ h

/-- The tables after operations, one after the other, whatever their replies and whatever
stops them. -/
def performAll (ops : List (Operation × Mishaps)) (s : Store) : Store :=
  ops.foldl (fun s op => (op.1.perform op.2 s).2) s

theorem intact_performAll (h : s.Intact) (ops : List (Operation × Mishaps)) :
    (performAll ops s).Intact := by
  induction ops generalizing s with
  | nil => exact h
  | cons op ops ih => exact ih (intact_perform h op.1 op.2)

/-- The tables after operations on a new store, whatever their replies and whatever
stops them. -/
def run (ops : List (Operation × Mishaps)) : Store :=
  ops.foldl (fun s op => (op.1.perform op.2 s).2) (.opened none)

theorem intact_run (ops : List (Operation × Mishaps)) : (run ops).Intact :=
  intact_performAll .empty ops

/-- Every run leaves tables in which rows are told apart by identifier and by place
and have one text each.  Statement by statement an operation does on any tables what
it does as one step, unless a mishap stops it; and if it fails, wherever that is, it
does nothing.  One that succeeds after a run leaves all rows and texts but those of the
notes it is about. -/
theorem tables_stay_whole :
    (∀ ops, (run ops).Intact) ∧
      (∀ op s, perform op [] s = s.settle (op.apply s)) ∧
      (∀ op mishaps s e, (perform op mishaps s).1 = .error e → (perform op mishaps s).2 = s) ∧
      ∀ ops op mishaps, (perform op mishaps (run ops)).1 = .ok () →
        (perform op mishaps (run ops)).2.besides (op.addresses (run ops)) =
          (run ops).besides (op.addresses (run ops)) := by
  refine ⟨intact_run, perform_nil, fun op mishaps s e h => tables_of_error h, ?_⟩
  exact fun ops op mishaps hok => (intact_of_apply (intact_run ops) (apply_of_ok hok)).2

/-- A note, for tables with something wrong. -/
def strayNote : Note :=
  { filepath := "a.c", line := 1, kind := .todo, text := "TODO", username := none, email := none
    id := default, createdAt := default, updatedAt := default }

/-- Tables in which a text was left behind without a note. -/
def strayTables : Store := ⟨[], [⟨strayNote.id.toText, "left behind"⟩]⟩

/-- The row of the note is in the tables already when its text turns out to be there, and
it goes again; on new tables it goes again when the transaction cannot be committed. -/
theorem tables_stay_whole_stray :
    (perform (.create strayNote) [] strayTables).1 = .error (.backend (.unique .textId)) ∧
      (perform (.create strayNote) [] strayTables).2 = strayTables ∧
      (perform (.create strayNote) [none, none, none, some (.corrupt "disk full")] (run [])).1 =
        .error (.corrupt "disk full") ∧
      (perform (.create strayNote) [none, none, none, some (.corrupt "disk full")] (run [])).2 =
        run [] ∧
      (perform (.create strayNote) [] (run [])).1 = .ok () ∧
      (perform (.create strayNote) [] (run [])).2.besides (· == strayNote.id.toText) =
        (run []).besides (· == strayNote.id.toText) := by
  have hfails : (perform (.create strayNote) [] strayTables).1 =
      .error (.backend (.unique .textId)) := by
    rw [perform_nil]
    rfl
  have hstopped : (perform (.create strayNote) [none, none, none, some (.corrupt "disk full")]
      (run [])).1 = .error (.corrupt "disk full") :=
    rfl
  have hworks : (perform (.create strayNote) [] (run [])).1 = .ok () := by
    rw [perform_nil]
    rfl
  exact ⟨hfails, tables_stay_whole.2.2.1 _ _ _ _ hfails,
    hstopped, tables_stay_whole.2.2.1 _ _ _ _ hstopped,
    hworks, tables_stay_whole.2.2.2 [] (.create strayNote) [] hworks⟩

end Operation

end Marginalia
