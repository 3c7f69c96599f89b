import Marginalia.Proofs.Store.Change
import Marginalia.Proofs.Store.Transaction

set_option autoImplicit false

/-!
# Stores that can be read

A listing fails when one row cannot be read, and nothing looks at what is written.  What a
row holds besides its times is written so that it can be read; a time is written so only
if its year has four digits.  So an operation that succeeds leaves a store that can be read
exactly when the times that it writes are of such years.  Those of an update need not be,
though the clock shows such a year: they may be a microsecond after the last one.
-/

namespace Marginalia

open Marginalia.Time (Instant)

/-! ## Rows -/

namespace Row

/-- Whether every column of a row can be read. -/
structure IsReadable (r : Row) : Prop where
  id : (NoteId.read? r.id).isSome = true
  line : ∃ line, r.line.read = .ok line
  kind : (Kind.ofName? r.kind).isSome = true
  createdAt : (Instant.read? r.createdAt.toList).isSome = true
  updatedAt : (Instant.read? r.updatedAt.toList).isSome = true

/-- Whether a row is read depends on its columns only, whatever the text is. -/
theorem exists_read_iff {r : Row} (text : Option String) :
    (∃ n, r.read text = .ok n) ↔ r.IsReadable := by
  constructor
  · rintro ⟨n, hn⟩
    obtain ⟨⟨hid, hline, hkind, hcreated, hupdated⟩, -⟩ := read_eq_ok_iff.1 hn
    exact ⟨Option.isSome_of_eq_some hid, ⟨_, hline⟩, Option.isSome_of_eq_some hkind,
      Option.isSome_of_eq_some hcreated, Option.isSome_of_eq_some hupdated⟩
  · intro h
    obtain ⟨id, hid⟩ := Option.isSome_iff_exists.1 h.id
    obtain ⟨line, hline⟩ := h.line
    obtain ⟨kind, hkind⟩ := Option.isSome_iff_exists.1 h.kind
    obtain ⟨createdAt, hcreated⟩ := Option.isSome_iff_exists.1 h.createdAt
    obtain ⟨updatedAt, hupdated⟩ := Option.isSome_iff_exists.1 h.updatedAt
    exact ⟨⟨⟨r.filepath, line, kind, text.getD "", r.username, r.email⟩, id, createdAt, updatedAt⟩,
      read_eq_ok_iff.2 ⟨⟨hid, hline, hkind, hcreated, hupdated⟩, rfl, rfl, rfl, rfl⟩⟩

theorem isSome_ofName?_name (kind : Kind) : (Kind.ofName? kind.name).isSome = true :=
  Option.isSome_of_eq_some ((Kind.ofName?_eq_some_iff _ _).2 rfl)

/-- The row of a note can be read when the years of its times have four digits. -/
theorem isReadable_ofNote_iff {n : Note} (hc : n.createdAt.IsRepresentable)
    (hu : n.updatedAt.IsRepresentable) : (ofNote n).IsReadable ↔ n.TimesWithin 0 9999 := by
  constructor
  · intro h
    exact ⟨(Instant.isSome_read?_toStoredText_iff hc).1 h.createdAt,
      (Instant.isSome_read?_toStoredText_iff hu).1 h.updatedAt⟩
  · rintro ⟨hcreated, hupdated⟩
    exact ⟨Option.isSome_of_eq_some (NoteId.read?_toText n.id), ⟨n.line, read_ofLine n.line⟩,
      isSome_ofName?_name n.kind, (Instant.isSome_read?_toStoredText_iff hc).2 hcreated,
      (Instant.isSome_read?_toStoredText_iff hu).2 hupdated⟩

/-- A row that a draft is written over can be read when the year of the change has four
digits. -/
theorem IsReadable.revise_iff {r : Row} (h : r.IsReadable) {d : Draft} {t : Instant}
    (ht : t.IsRepresentable) : (r.revise d t).IsReadable ↔ t.YearWithin 0 9999 := by
  constructor
  · intro hrevised
    exact (Instant.isSome_read?_toStoredText_iff ht).1 hrevised.updatedAt
  · intro hyear
    exact ⟨h.id, ⟨d.line, read_ofLine d.line⟩, isSome_ofName?_name d.kind, h.createdAt,
      (Instant.isSome_read?_toStoredText_iff ht).2 hyear⟩

end Row

/-! ## Tables -/

namespace Store

/-- Whether all notes can be listed. -/
def IsReadable (s : Store) : Prop := ∃ notes, s.all = .ok notes

variable {s s' : Store}

theorem exists_readRow_iff {r : Row} : (∃ n, s.readRow r = .ok n) ↔ r.IsReadable := by
  rw [← Row.exists_read_iff (s.textOf? r.id), readRow]
  cases r.read (s.textOf? r.id) <;> simp

/-- One row that cannot be read spoils the listing of all. -/
theorem isReadable_iff : s.IsReadable ↔ ∀ r ∈ s.notes, r.IsReadable := by
  rw [IsReadable, all, select, exists_mapM_ok_iff, List.filter_true, ordered]
  simp only [List.mem_mergeSort, exists_readRow_iff]

/-- Fewer rows can be read when all can. -/
theorem IsReadable.of_subset (h : s.IsReadable) (hsub : ∀ r ∈ s'.notes, r ∈ s.notes) :
    s'.IsReadable :=
  isReadable_iff.2 fun r hr => isReadable_iff.1 h r (hsub r hr)

theorem IsReadable.create_iff (h : s.IsReadable) {n : Note} (hc : n.createdAt.IsRepresentable)
    (hu : n.updatedAt.IsRepresentable) (hcreate : s.create n = .ok s') :
    s'.IsReadable ↔ n.TimesWithin 0 9999 := by
  rw [isReadable_iff, notes_of_create hcreate, List.forall_mem_append, List.forall_mem_singleton,
    Row.isReadable_ofNote_iff hc hu]
  exact and_iff_right (isReadable_iff.1 h)

/-- What is read of the time of the last change of a note can be represented. -/
theorem isRepresentable_of_get {filepath : String} {line : UInt32} {n : Note}
    (h : s.get filepath line = .ok n) : n.updatedAt.IsRepresentable := by
  unfold get at h
  split at h
  · have hread := readRow_eq_ok_iff.1 h
    exact Instant.isRepresentable_of_read? (Row.read_eq_ok_iff.1 hread).1.2.2.2.2
  · cases h

/-- Whether the year of the time that an update writes has four digits, if there is a row
to write it to. -/
def UpdatesWithinYears (s : Store) (filepath : String) (line : UInt32) (now : Instant) : Prop :=
  ∀ existing, s.get filepath line = .ok existing →
    (∃ r ∈ s.notes, r.id = existing.id.toText) →
      (now.latest existing.updatedAt.nextMicro).YearWithin 0 9999

theorem IsReadable.update_iff (h : s.IsReadable) {filepath : String} {line : UInt32} {d : Draft}
    {now : Instant} (hnow : now.IsRepresentable)
    (hupdate : s.update filepath line d now = .ok s') :
    s'.IsReadable ↔ s.UpdatesWithinYears filepath line now := by
  obtain ⟨existing, hget, hnotes⟩ := notes_of_update hupdate
  have hlatest := hnow.latest (isRepresentable_of_get hget).nextMicro
  have hrows := isReadable_iff.1 h
  rw [isReadable_iff, hnotes, Statement.reviseRows, List.forall_mem_map]
  constructor
  · rintro hall existing' hget' ⟨r, hr, hid⟩
    cases hget.symm.trans hget'
    have hrevised := hall r hr
    rw [if_pos (beq_iff_eq.2 hid)] at hrevised
    exact ((hrows r hr).revise_iff hlatest).1 hrevised
  · intro hyears r hr
    split
    · rename_i hid
      refine ((hrows r hr).revise_iff hlatest).2 ?_
      exact hyears existing hget ⟨r, hr, beq_iff_eq.1 hid⟩
    · exact hrows r hr

theorem subset_of_delete {filepath : String} {line : UInt32} :
    ∀ r ∈ (s.delete filepath line).notes, r ∈ s.notes := by
  intro r hr
  unfold delete at hr
  split at hr
  · exact List.mem_of_mem_filter hr
  · exact hr

end Store

/-! ## Operations -/

namespace Operation

variable {s s' : Store} {op : Operation}

/-- Whether the times that an operation is given can be represented. -/
def TakesTimes : Operation → Prop
  | .create n => n.createdAt.IsRepresentable ∧ n.updatedAt.IsRepresentable
  | .update _ _ _ now => now.IsRepresentable
  | .delete _ _ | .deleteFile _ | .reopen => True

/-- Whether the years of the times that an operation writes have four digits. -/
def WritesYears (s : Store) : Operation → Prop
  | .create n => n.TimesWithin 0 9999
  | .update filepath line _ now => s.UpdatesWithinYears filepath line now
  | .delete _ _ | .deleteFile _ | .reopen => True

theorem readable_apply_iff (h : s.IsReadable) (htimes : op.TakesTimes)
    (happly : op.apply s = .ok s') : s'.IsReadable ↔ op.WritesYears s := by
  cases op with
  | create n => exact h.create_iff htimes.1 htimes.2 happly
  | update filepath line d now => exact h.update_iff htimes happly
  | delete filepath line =>
    rw [← Except.ok.inj happly]
    exact iff_of_true (h.of_subset Store.subset_of_delete) trivial
  | deleteFile filepath =>
    rw [← Except.ok.inj happly]
    exact iff_of_true (h.of_subset fun r hr => List.mem_of_mem_filter hr) trivial
  | reopen =>
    rw [← Except.ok.inj happly]
    exact iff_of_true h trivial

/-- What an operation does to a store that can be read, whatever its reply and whatever stops
it. -/
theorem readable_perform (h : s.IsReadable) (htimes : op.TakesTimes) (hyears : op.WritesYears s)
    (mishaps : Mishaps) : (op.perform mishaps s).2.IsReadable := by
  cases hreply : (op.perform mishaps s).1 with
  | ok => exact (readable_apply_iff h htimes (apply_of_ok hreply)).2 hyears
  | error e =>
    rw [tables_of_error hreply]
    exact h

/-- Whether all times that operations take and write, one after the other, are good. -/
def StayWithinYears : List (Operation × Mishaps) → Store → Prop
  | [], _ => True
  | (op, mishaps) :: ops, s =>
    (op.TakesTimes ∧ op.WritesYears s) ∧ StayWithinYears ops (op.perform mishaps s).2

/-- A store can be read as long as no operation has written a time of another year. -/
theorem readable_run {ops : List (Operation × Mishaps)} (h : s.IsReadable)
    (hyears : StayWithinYears ops s) :
    (ops.foldl (fun s op => (op.1.perform op.2 s).2) s).IsReadable := by
  induction ops generalizing s with
  | nil => exact h
  | cons op ops ih =>
    obtain ⟨⟨htimes, hop⟩, hrest⟩ := hyears
    exact ih (readable_perform h htimes hop op.2) hrest

/-- An operation that succeeds on a store that can be read leaves one that can be read
exactly when the years of the times that it writes have four digits; one that fails always
does. -/
theorem stays_readable_iff (h : s.IsReadable) :
    (∀ (op : Operation) mishaps, op.TakesTimes → (op.perform mishaps s).1 = .ok () →
      ((op.perform mishaps s).2.IsReadable ↔ op.WritesYears s)) ∧
    ∀ (op : Operation) mishaps e, (op.perform mishaps s).1 = .error e →
      (op.perform mishaps s).2.IsReadable := by
  refine ⟨?_, ?_⟩
  · intro op mishaps htimes hok
    exact readable_apply_iff h htimes (apply_of_ok hok)
  · intro op mishaps e herror
    rw [tables_of_error herror]
    exact h

/-! ## The ends of the years of four digits -/

/-- A note that was changed in the last microsecond of the year 9999. -/
def lastNote : Note :=
  { filepath := "a.c", line := 1, kind := .note, text := "last", username := none, email := none
    id := default, createdAt := ⟨0, 0⟩, updatedAt := ⟨253402300799, 999999000⟩ }

/-- A note of the first second of the year 10000. -/
def lateNote : Note :=
  { lastNote with createdAt := ⟨253402300800, 0⟩, updatedAt := ⟨253402300800, 0⟩ }

theorem lastNote_holds : (Store.ofNotes [lastNote]).Holds [lastNote] :=
  { tables := rfl
    ids := List.nodup_singleton _
    places := List.nodup_singleton _
    kept := fun n hn => by
      rw [List.mem_singleton.1 hn]
      exact ⟨⟨by decide, by decide⟩, by decide, by decide⟩ }

theorem lastNote_isReadable : (Store.ofNotes [lastNote]).IsReadable := by
  have hrow := (Row.isReadable_ofNote_iff (n := lastNote) (by decide) (by decide)).2 (by decide)
  exact Store.isReadable_iff.2 (List.forall_mem_singleton.2 hrow)

/-- A change of the note succeeds, whenever it is made, and the note cannot be read any
more. -/
theorem stays_readable_iff_lastNote :
    (Store.ofNotes [lastNote]).IsReadable ∧
      (perform (.update "a.c" 1 lastNote.toDraft ⟨0, 0⟩) [] (.ofNotes [lastNote])).1 = .ok () ∧
      ¬(perform (.update "a.c" 1 lastNote.toDraft ⟨0, 0⟩) []
        (.ofNotes [lastNote])).2.IsReadable := by
  have hat : Note.at? [lastNote] ("a.c", 1) = some lastNote := rfl
  have hget : (Store.ofNotes [lastNote]).get "a.c" 1 = .ok lastNote :=
    lastNote_holds.get_eq_ok_iff.2 ⟨hat, by decide⟩
  have hok : (perform (.update "a.c" 1 lastNote.toDraft ⟨0, 0⟩) []
      (.ofNotes [lastNote])).1 = .ok () := by
    rw [perform_nil, apply, lastNote_holds.update_eq hat (by decide), if_neg (by decide)]
    rfl
  refine ⟨lastNote_isReadable, hok, ?_⟩
  have hnow : (Operation.update "a.c" 1 lastNote.toDraft ⟨0, 0⟩).TakesTimes :=
    show Instant.IsRepresentable ⟨0, 0⟩ by decide
  rw [(stays_readable_iff lastNote_isReadable).1 _ [] hnow hok]
  intro hyears
  have hlate := hyears lastNote hget ⟨.ofNote lastNote, List.mem_singleton.2 rfl, rfl⟩
  revert hlate
  decide

/-- A note of a later year is added to the store without notes, which cannot be listed any
more. -/
theorem create_spoils_listing :
    Store.empty.IsReadable ∧ (Operation.create lateNote).TakesTimes ∧
      (perform (.create lateNote) [] .empty).1 = .ok () ∧
      ¬(perform (.create lateNote) [] .empty).2.IsReadable := by
  have hempty : Store.empty.IsReadable :=
    Store.isReadable_iff.2 fun r hr => absurd hr List.not_mem_nil
  have htimes : (Operation.create lateNote).TakesTimes := ⟨by decide, by decide⟩
  have hok : (perform (.create lateNote) [] .empty).1 = .ok () := by
    rw [perform_nil]
    rfl
  refine ⟨hempty, htimes, hok, ?_⟩
  have hlate : ¬lateNote.TimesWithin 0 9999 := by decide
  rw [readable_apply_iff hempty htimes (apply_of_ok hok)]
  exact hlate

end Operation

end Marginalia
