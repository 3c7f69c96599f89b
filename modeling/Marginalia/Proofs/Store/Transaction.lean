import Marginalia.Store.Basic

set_option autoImplicit false

/-!
# Operations as transactions

An operation of the store is a transaction: statements run one after the other on
a connection, and only the last step commits.  A statement may fail by a rule of the
tables, and any step may be stopped by a mishap that has nothing to do with the
tables.  What a transaction leaves when it ends without a commit are the tables it
began with.  So nothing stays of an operation that fails, whatever the tables were
and wherever it was stopped; and an operation that succeeds leaves what the tables
become when it is taken as one step.
-/

namespace Marginalia

open Marginalia.Time (Instant)

/-! ## Statements -/

/-- A statement makes new tables and tells how many rows it was about, or it fails
by a rule of the tables. -/
abbrev Statement : Type := Store → Except BackendFault (Nat × Store)

namespace Statement

/-- Adds the row of a note, unless there is a row at its place. -/
def insertNote (n : Note) : Statement := fun s =>
  let row := Row.ofNote n
  if s.notes.any (·.isAt row.filepath row.line) then .ok (0, s)
  else if s.notes.any (·.id == row.id) then .error (.unique .noteId)
  else .ok (1, { s with notes := s.notes ++ [row] })

/-- Adds a text. -/
def insertText (id text : String) : Statement := fun s =>
  if s.texts.any (·.noteId == id) then .error (.unique .textId)
  else if s.notes.any (·.id == id) then .ok (1, { s with texts := s.texts ++ [⟨id, text⟩] })
  else .error .foreignKey

/-- Rows with a draft written over those that have an identifier. -/
def reviseRows (rows : List Row) (id : String) (d : Draft) (updatedAt : Instant) : List Row :=
  rows.map fun r => if r.id == id then r.revise d updatedAt else r

/-- A row keeps its identifier, whether a draft is written over it or not. -/
theorem id_revised (id : String) (d : Draft) (t : Instant) (r : Row) :
    (if r.id == id then r.revise d t else r).id = r.id := by
  split <;> rfl

theorem map_id_reviseRows (rows : List Row) (id : String) (d : Draft) (t : Instant) :
    (reviseRows rows id d t).map (·.id) = rows.map (·.id) := by
  rw [reviseRows, List.map_map]
  exact List.map_congr_left fun r _ => id_revised id d t r

theorem any_id_reviseRows (rows : List Row) (id : String) (d : Draft) (t : Instant) :
    (reviseRows rows id d t).any (·.id == id) = rows.any (·.id == id) := by
  have hids := congrArg (List.any · (· == id)) (map_id_reviseRows rows id d t)
  simpa only [List.any_map, Function.comp_def] using hids

/-- Writes a draft over the row that has an identifier. -/
def reviseNote (id : String) (d : Draft) (updatedAt : Instant) : Statement := fun s =>
  let taken := s.notes.any fun r => r.id != id && r.isAt d.filepath (.ofLine d.line)
  if taken && s.notes.any (·.id == id) then .error (.unique .location)
  else
    .ok (s.notes.countP (·.id == id), { s with notes := reviseRows s.notes id d updatedAt })

/-- Puts a text in the place of the one under an identifier, or adds it. -/
def putText (id text : String) : Statement := fun s =>
  if s.texts.any (·.noteId == id) then
    .ok (1, { s with texts := s.texts.map fun t => if t.noteId == id then ⟨id, text⟩ else t })
  else if s.notes.any (·.id == id) then .ok (1, { s with texts := s.texts ++ [⟨id, text⟩] })
  else .error .foreignKey

/-- Takes out the texts whose identifiers are told by the tables. -/
def deleteTexts (gone : Store → String → Bool) : Statement := fun s =>
  .ok (s.texts.countP (gone s ·.noteId),
    { s with texts := s.texts.filter fun t => !gone s t.noteId })

/-- Takes out rows, none of which may have a text left. -/
def deleteNotes (gone : Row → Bool) : Statement := fun s =>
  if s.notes.any fun r => gone r && s.texts.any (·.noteId == r.id) then .error .foreignKey
  else .ok (s.notes.countP gone, { s with notes := s.notes.filter fun r => !gone r })

end Statement

/-! ## Transactions -/

/-- What a connection has in hand. -/
structure Connection where
  tables : Store
  /-- the tables as they were when the open transaction began -/
  begun : Option Store

/-- How each of the next steps is stopped from outside, if it is.  Beyond the end of
the list no step is stopped. -/
abbrev Mishaps : Type := List (Option StoreError)

/-- Work on a connection.  An error ends the work and undoes nothing. -/
abbrev Work (α : Type) : Type := ExceptT StoreError (StateM (Connection × Mishaps)) α

namespace Work

/-- One step, which does nothing when it is stopped from outside. -/
def step {α : Type} (act : Connection → Except StoreError α × Connection) : Work α :=
  ExceptT.mk fun (c, mishaps) =>
    match mishaps.head?.join with
    | some e => (.error e, c, mishaps.tail)
    | none => ((act c).1, (act c).2, mishaps.tail)

/-- Opens a transaction. -/
def start : Work Unit := step fun c => (.ok (), { c with begun := some c.tables })

/-- Reads the tables. -/
def query {α : Type} (read : Store → Except StoreError α) : Work α :=
  step fun c => (read c.tables, c)

/-- Runs a statement.  One that fails leaves the tables as they are. -/
def execute (statement : Statement) (complain : BackendFault → StoreError) : Work Nat :=
  step fun c =>
    match statement c.tables with
    | .ok (touched, tables) => (.ok touched, { c with tables := tables })
    | .error f => (.error (complain f), c)

/-- Makes the changes of the open transaction last. -/
def commit : Work Unit := step fun c => (.ok (), { c with begun := none })

/-- Adds a note and its text. -/
def create (n : Note) : Work Unit := do
  let inserted ← execute (.insertNote n) .backend
  if inserted = 0 then throw (.alreadyExists n.filepath n.line)
  let _ ← execute (.insertText n.id.toText n.text) .backend
  commit

/-- How a statement that moves a note fails: a rule of the tables stands for a
place that is taken. -/
def takenBy (d : Draft) : BackendFault → StoreError
  | .unique _ | .foreignKey => .alreadyExists d.filepath d.line
  | .column f => .backend (.column f)

/-- Writes a draft over the note at a location. -/
def update (filepath : String) (line : UInt32) (d : Draft) (now : Instant) : Work Unit := do
  let existing ← query (·.get filepath line)
  let id := existing.id.toText
  let _ ← execute (.reviseNote id d (now.latest existing.updatedAt.nextMicro)) (takenBy d)
  let _ ← execute (.putText id d.text) .backend
  commit

/-- Takes out the note at a location, if there is one, its text first. -/
def delete (filepath : String) (line : UInt32) : Work Unit := do
  let found ← query fun s => .ok ((s.rowAt? filepath line).map (·.id))
  if let some id := found then
    let _ ← execute (.deleteTexts fun _ noteId => noteId == id) .backend
    let _ ← execute (.deleteNotes (·.id == id)) .backend
  commit

/-- Takes out the notes of a file, their texts first. -/
def deleteFile (filepath : String) : Work Unit := do
  let _ ← execute (.deleteTexts fun s noteId =>
    s.notes.any fun r => r.filepath == filepath && r.id == noteId) .backend
  let _ ← execute (.deleteNotes (·.filepath == filepath)) .backend
  commit

/-- The reply of work on a connection, the connection after it, and the mishaps that
are still to come. -/
def on {α : Type} (work : Work α) (c : Connection) (mishaps : Mishaps) :
    Except StoreError α × Connection × Mishaps :=
  work.run.run (c, mishaps)

/-- Runs work as a transaction on tables: the reply, and the tables that last. -/
def transact (work : Work Unit) (mishaps : Mishaps) (s : Store) :
    Except StoreError Unit × Store :=
  let (reply, c, _) := (start >>= fun _ => work).on ⟨s, none⟩ mishaps
  (reply, c.begun.getD c.tables)

/-! ## Steps of work -/

section Steps

variable {α β : Type} {c : Connection}

theorem on_bind (work : Work α) (f : α → Work β) (c : Connection) (mishaps : Mishaps) :
    (work >>= f).on c mishaps =
      match work.on c mishaps with
      | (.ok a, c', rest) => (f a).on c' rest
      | (.error e, c', rest) => (.error e, c', rest) := by
  simp only [on, ExceptT.run_bind]
  rw [StateT.run_bind]
  rcases h : work.run.run (c, mishaps) with ⟨reply, c', rest⟩
  cases reply <;> rfl

theorem on_step (act : Connection → Except StoreError α × Connection) (c : Connection)
    (mishaps : Mishaps) :
    (step act).on c mishaps =
      match mishaps.head?.join with
      | some e => (.error e, c, mishaps.tail)
      | none => ((act c).1, (act c).2, mishaps.tail) :=
  rfl

theorem on_query_of_ok {r : Store → Except StoreError α} {a : α} (h : r c.tables = .ok a)
    (f : α → Work β) : (query r >>= f).on c [] = (f a).on c [] := by
  rw [on_bind, show (query r).on c [] = (r c.tables, c, []) from rfl, h]

theorem on_query_of_error {r : Store → Except StoreError α} {e : StoreError}
    (h : r c.tables = .error e) (f : α → Work β) :
    (query r >>= f).on c [] = (.error e, c, []) := by
  rw [on_bind, show (query r).on c [] = (r c.tables, c, []) from rfl, h]

theorem on_execute_of_ok {statement : Statement} {complain : BackendFault → StoreError}
    {touched : Nat} {tables : Store} (h : statement c.tables = .ok (touched, tables))
    (f : Nat → Work β) :
    (execute statement complain >>= f).on c [] = (f touched).on { c with tables := tables } [] := by
  rw [on_bind, execute, on_step]
  simp only [h]
  rfl

/-- A statement that fails ends the work and leaves the tables as they are. -/
theorem on_execute_of_error {statement : Statement} {complain : BackendFault → StoreError}
    {fault : BackendFault} (h : statement c.tables = .error fault) (f : Nat → Work β) :
    (execute statement complain >>= f).on c [] = (.error (complain fault), c, []) := by
  rw [on_bind, execute, on_step]
  simp only [h]
  rfl

end Steps

end Work

/-! ## Operations -/

/-- What a caller may do with a store. -/
inductive Operation where
  /-- adds a note -/
  | create (n : Note)
  /-- writes a draft, perhaps for another location, over the note at a location -/
  | update (filepath : String) (line : UInt32) (d : Draft) (now : Instant)
  /-- takes out the note at a location -/
  | delete (filepath : String) (line : UInt32)
  /-- takes out the notes of a file -/
  | deleteFile (filepath : String)
  /-- closes the store and opens it again -/
  | reopen
  deriving DecidableEq, Repr, Inhabited

namespace Store

/-- Opening makes the tables where there are none yet. -/
def opened (found : Option Store) : Store := found.getD .empty

/-- The reply to an operation that makes new tables or fails, and the tables after
it. -/
def settle (s : Store) : Except StoreError Store → Except StoreError Unit × Store
  | .ok s' => (.ok (), s')
  | .error e => (.error e, s)

theorem readRow_eq_ok_iff {s : Store} {r : Row} {n : Note} :
    s.readRow r = .ok n ↔ r.read (s.textOf? r.id) = .ok n := by
  rw [readRow]
  cases r.read (s.textOf? r.id) <;> simp

/-- A note that is added, and its text, are added behind the others. -/
theorem eq_of_create {s s' : Store} {n : Note} (h : s.create n = .ok s') :
    s' = ⟨s.notes ++ [.ofNote n], s.texts ++ [⟨n.id.toText, n.text⟩]⟩ := by
  unfold create at h
  dsimp only at h
  split at h
  · cases h
  · split at h
    · cases h
    · split at h
      · cases h
      · cases h
        rfl

theorem notes_of_create {s s' : Store} {n : Note} (h : s.create n = .ok s') :
    s'.notes = s.notes ++ [.ofNote n] :=
  congrArg notes (eq_of_create h)

/-- A draft is written over the rows under the identifier of the note at the location. -/
theorem notes_of_update {s s' : Store} {filepath : String} {line : UInt32} {d : Draft}
    {now : Instant} (h : s.update filepath line d now = .ok s') :
    ∃ existing, s.get filepath line = .ok existing ∧
      s'.notes = Statement.reviseRows s.notes existing.id.toText d
        (now.latest existing.updatedAt.nextMicro) := by
  cases hget : s.get filepath line with
  | error e =>
    rw [update, hget] at h
    cases h
  | ok existing =>
    rw [update, hget] at h
    simp only [bind, Except.bind] at h
    split at h
    · cases h
    · split at h
      · cases h
      · cases h
        exact ⟨existing, rfl, rfl⟩

end Store

namespace Operation

/-- Carries an operation out statement by statement: the reply, and the tables that
last. -/
def perform : Operation → Mishaps → Store → Except StoreError Unit × Store
  | .create n, mishaps, s => (Work.create n).transact mishaps s
  | .update filepath line d now, mishaps, s => (Work.update filepath line d now).transact mishaps s
  | .delete filepath line, mishaps, s => (Work.delete filepath line).transact mishaps s
  | .deleteFile filepath, mishaps, s => (Work.deleteFile filepath).transact mishaps s
  | .reopen, mishaps, s =>
    match mishaps.head?.join with
    | some e => (.error e, s)
    | none => (.ok (), .opened (some s))

/-- An operation as one step. -/
def apply : Operation → Store → Except StoreError Store
  | .create n, s => s.create n
  | .update filepath line d now, s => s.update filepath line d now
  | .delete filepath line, s => .ok (s.delete filepath line)
  | .deleteFile filepath, s => .ok (s.deleteFile filepath)
  | .reopen, s => .ok s

end Operation

namespace Work

/-- Without mishaps a transaction is open when the work begins. -/
theorem transact_nil (work : Work Unit) (s : Store) :
    work.transact [] s =
      ((work.on ⟨s, some s⟩ []).1,
        (work.on ⟨s, some s⟩ []).2.1.begun.getD (work.on ⟨s, some s⟩ []).2.1.tables) := by
  rw [transact, on_bind]
  rfl

theorem transact_of_ok {work : Work Unit} {s s' : Store}
    (h : work.on ⟨s, some s⟩ [] = (.ok (), ⟨s', none⟩, [])) :
    work.transact [] s = (.ok (), s') := by
  rw [transact_nil, h]
  rfl

/-- Work that fails before it commits leaves the tables it began with. -/
theorem transact_of_error {work : Work Unit} {s : Store} {e : StoreError} (s' : Store)
    (h : work.on ⟨s, some s⟩ [] = (.error e, ⟨s', some s⟩, [])) :
    work.transact [] s = (.error e, s) := by
  rw [transact_nil, h]
  rfl

/-- The row of a note goes again when its text cannot be added: one may have been
left behind under its identifier. -/
theorem transact_create (n : Note) (s : Store) :
    (create n).transact [] s = s.settle (s.create n) := by
  by_cases hplace : s.notes.any (·.isAt n.filepath (.ofLine n.line)) = true
  · have hinsert : Statement.insertNote n s = .ok (0, s) := if_pos hplace
    rw [show s.create n = .error (.alreadyExists n.filepath n.line) from if_pos hplace]
    refine transact_of_error s ?_
    rw [create, on_execute_of_ok hinsert]
    rfl
  by_cases hid : s.notes.any (·.id == n.id.toText) = true
  · have hinsert : Statement.insertNote n s = .error (.unique .noteId) :=
      (if_neg hplace).trans (if_pos hid)
    rw [show s.create n = .error (.backend (.unique .noteId)) from
      (if_neg hplace).trans (if_pos hid)]
    refine transact_of_error s ?_
    rw [create, on_execute_of_error hinsert]
  -- from here on the row is in the tables of the connection
  have hinsert : Statement.insertNote n s = .ok (1, ⟨s.notes ++ [.ofNote n], s.texts⟩) :=
    (if_neg hplace).trans (if_neg hid)
  have hrest : (create n).on ⟨s, some s⟩ [] =
      (execute (.insertText n.id.toText n.text) .backend >>= fun _ => commit).on
        ⟨⟨s.notes ++ [.ofNote n], s.texts⟩, some s⟩ [] := by
    rw [create, on_execute_of_ok hinsert]
    rfl
  by_cases htext : s.texts.any (·.noteId == n.id.toText) = true
  · have hadd : Statement.insertText n.id.toText n.text ⟨s.notes ++ [.ofNote n], s.texts⟩ =
        .error (.unique .textId) := if_pos htext
    rw [show s.create n = .error (.backend (.unique .textId)) from
      (if_neg hplace).trans ((if_neg hid).trans (if_pos htext))]
    refine transact_of_error ⟨s.notes ++ [.ofNote n], s.texts⟩ ?_
    rw [hrest, on_execute_of_error hadd]
  · have hrow : (s.notes ++ [Row.ofNote n]).any (·.id == n.id.toText) = true := by
      simp [Row.ofNote]
    have hadd : Statement.insertText n.id.toText n.text ⟨s.notes ++ [.ofNote n], s.texts⟩ =
        .ok (1, ⟨s.notes ++ [.ofNote n], s.texts ++ [⟨n.id.toText, n.text⟩]⟩) :=
      (if_neg htext).trans (if_pos hrow)
    rw [show s.create n = .ok ⟨s.notes ++ [.ofNote n], s.texts ++ [⟨n.id.toText, n.text⟩]⟩ from
      (if_neg hplace).trans ((if_neg hid).trans (if_neg htext))]
    refine transact_of_ok ?_
    rw [hrest, on_execute_of_ok hadd]
    rfl

/-- Whether a text can be put into the tables does not depend on what else the rows
say. -/
theorem putText_reviseRows (s : Store) (id text : String) (d : Draft) (t : Instant) :
    Statement.putText id text ⟨Statement.reviseRows s.notes id d t, s.texts⟩ =
      match s.putText id text with
      | .ok texts => .ok (1, ⟨Statement.reviseRows s.notes id d t, texts⟩)
      | .error _ => .error .foreignKey := by
  rw [Statement.putText, Store.putText]
  simp only [Statement.any_id_reviseRows]
  split
  · rfl
  · split <;> rfl

theorem putText_error {s : Store} {id text : String} {e : StoreError}
    (h : s.putText id text = .error e) : e = .backend .foreignKey := by
  unfold Store.putText at h
  split at h
  · cases h
  · split at h
    · cases h
    · exact (Except.error.inj h).symm

/-- The draft is written over the row before it is known whether the text can be
put beside it. -/
theorem transact_update (filepath : String) (line : UInt32) (d : Draft) (now : Instant)
    (s : Store) :
    (update filepath line d now).transact [] s = s.settle (s.update filepath line d now) := by
  cases hget : s.get filepath line with
  | error e =>
    rw [show s.update filepath line d now = .error e by rw [Store.update, hget]; rfl]
    refine transact_of_error s ?_
    rw [update, on_query_of_error hget]
  | ok existing =>
    obtain ⟨id, hid⟩ : ∃ id, existing.id.toText = id := ⟨_, rfl⟩
    obtain ⟨t, ht⟩ : ∃ t, now.latest existing.updatedAt.nextMicro = t := ⟨_, rfl⟩
    have hrest : (update filepath line d now).on ⟨s, some s⟩ [] =
        (execute (.reviseNote id d t) (takenBy d) >>= fun _ =>
          execute (.putText id d.text) .backend >>= fun _ => commit).on ⟨s, some s⟩ [] := by
      rw [update, on_query_of_ok hget, ← hid, ← ht]
    have hstep : s.update filepath line d now =
        if (s.notes.any fun r => r.id != id && r.isAt d.filepath (.ofLine d.line)) &&
            s.notes.any (·.id == id) then
          .error (.alreadyExists d.filepath d.line)
        else s.putText id d.text >>= fun texts =>
          .ok ⟨Statement.reviseRows s.notes id d t, texts⟩ := by
      rw [Store.update, hget, ← hid, ← ht]
      rfl
    rw [hstep]
    split
    · rename_i htaken
      refine transact_of_error s ?_
      rw [hrest, on_execute_of_error (if_pos htaken)]
      rfl
    · rename_i hfree
      have hrevise : Statement.reviseNote id d t s =
          .ok (s.notes.countP (·.id == id), ⟨Statement.reviseRows s.notes id d t, s.texts⟩) :=
        if_neg hfree
      have hput := putText_reviseRows s id d.text d t
      cases hstore : s.putText id d.text with
      | ok texts =>
        rw [hstore] at hput
        refine transact_of_ok ?_
        rw [hrest, on_execute_of_ok hrevise, on_execute_of_ok hput]
        rfl
      | error e =>
        obtain rfl := putText_error hstore
        rw [hstore] at hput
        refine transact_of_error ⟨Statement.reviseRows s.notes id d t, s.texts⟩ ?_
        rw [hrest, on_execute_of_ok hrevise, on_execute_of_error hput]

/-- Rows can be taken out once no text is left under their identifiers. -/
theorem deleteNotes_of_apart {s : Store} (gone : Row → Bool)
    (h : ∀ r ∈ s.notes, gone r = true → ∀ t ∈ s.texts, t.noteId ≠ r.id) :
    Statement.deleteNotes gone s =
      .ok (s.notes.countP gone, ⟨s.notes.filter fun r => !gone r, s.texts⟩) := by
  refine if_neg fun hleft => ?_
  obtain ⟨r, hr, hboth⟩ := List.any_eq_true.1 hleft
  obtain ⟨hgone, htext⟩ := Bool.and_eq_true_iff.1 hboth
  obtain ⟨t, ht, hid⟩ := List.any_eq_true.1 htext
  exact h r hr hgone t ht (beq_iff_eq.1 hid)

theorem transact_delete (filepath : String) (line : UInt32) (s : Store) :
    (delete filepath line).transact [] s = (.ok (), s.delete filepath line) := by
  refine transact_of_ok ?_
  rw [Store.delete, delete,
    on_query_of_ok (r := fun s => .ok ((s.rowAt? filepath line).map (·.id))) rfl]
  cases hrow : s.rowAt? filepath line with
  | none => rfl
  | some r =>
    have hnotes := deleteNotes_of_apart (·.id == r.id)
      (s := ⟨s.notes, s.texts.filter fun t => !(t.noteId == r.id)⟩) (by
        intro q _ hq t ht hid
        have hleft := (List.mem_filter.1 ht).2
        rw [hid, hq] at hleft
        cases hleft)
    show ((execute (.deleteTexts fun _ noteId => noteId == r.id) .backend >>= fun _ =>
      execute (.deleteNotes (·.id == r.id)) .backend >>= fun _ => commit).on ⟨s, some s⟩ []) = _
    rw [on_execute_of_ok rfl, on_execute_of_ok hnotes]
    rfl

theorem transact_deleteFile (filepath : String) (s : Store) :
    (deleteFile filepath).transact [] s = (.ok (), s.deleteFile filepath) := by
  have hnotes := deleteNotes_of_apart (·.filepath == filepath)
    (s := ⟨s.notes, s.texts.filter fun t =>
      !s.notes.any fun r => r.filepath == filepath && r.id == t.noteId⟩) (by
      intro r hr hfile t ht hid
      have hleft := (List.mem_filter.1 ht).2
      rw [Bool.not_eq_true', List.any_eq_false] at hleft
      exact hleft r hr (Bool.and_eq_true_iff.2 ⟨hfile, beq_iff_eq.2 hid.symm⟩))
  refine transact_of_ok ?_
  rw [deleteFile, on_execute_of_ok rfl, on_execute_of_ok hnotes]
  rfl

/-! ## Mishaps -/

/-- Whether mishaps do nothing to work in an open transaction but stop it while the
transaction is open. -/
def StopsOpen (work : Work Unit) : Prop :=
  ∀ tables s mishaps,
    (∃ rest, work.on ⟨tables, some s⟩ mishaps =
      ((work.on ⟨tables, some s⟩ []).1, (work.on ⟨tables, some s⟩ []).2.1, rest)) ∨
    ∃ e tables' rest, work.on ⟨tables, some s⟩ mishaps = (.error e, ⟨tables', some s⟩, rest)

theorem stopsOpen_commit : StopsOpen commit := by
  intro tables s mishaps
  rw [commit, on_step]
  cases mishaps.head?.join with
  | some e => exact .inr ⟨e, tables, mishaps.tail, rfl⟩
  | none => exact .inl ⟨mishaps.tail, rfl⟩

theorem stopsOpen_throw {α : Type} (e : StoreError) (f : α → Work Unit) :
    StopsOpen (throw e >>= f) :=
  fun _ _ mishaps => .inl ⟨mishaps, rfl⟩

/-- One more step in front, which may not close the transaction. -/
theorem stopsOpen_step {α : Type} {act : Connection → Except StoreError α × Connection}
    (hopen : ∀ tables s, (act ⟨tables, some s⟩).2.begun = some s) {f : α → Work Unit}
    (h : ∀ a, StopsOpen (f a)) : StopsOpen (step act >>= f) := by
  intro tables s mishaps
  rw [on_bind, on_bind, on_step, on_step]
  cases mishaps.head?.join with
  | some e => exact .inr ⟨e, tables, mishaps.tail, rfl⟩
  | none =>
    have hbegun := hopen tables s
    rcases hact : act ⟨tables, some s⟩ with ⟨_ | a, tables', begun⟩
    · exact .inl ⟨mishaps.tail, rfl⟩
    · rw [hact] at hbegun
      obtain rfl : begun = some s := hbegun
      exact h a tables' s mishaps.tail

theorem stopsOpen_query {α : Type} (r : Store → Except StoreError α) {f : α → Work Unit}
    (h : ∀ a, StopsOpen (f a)) : StopsOpen (query r >>= f) :=
  stopsOpen_step (fun _ _ => rfl) h

theorem stopsOpen_execute (statement : Statement) (complain : BackendFault → StoreError)
    {f : Nat → Work Unit} (h : ∀ n, StopsOpen (f n)) :
    StopsOpen (execute statement complain >>= f) := by
  refine stopsOpen_step (fun tables s => ?_) h
  dsimp only
  split <;> rfl

theorem stopsOpen_create (n : Note) : StopsOpen (create n) := by
  refine stopsOpen_execute _ _ fun inserted => ?_
  split
  · exact stopsOpen_throw _ _
  · exact stopsOpen_execute _ _ fun _ => stopsOpen_commit

theorem stopsOpen_update (filepath : String) (line : UInt32) (d : Draft) (now : Instant) :
    StopsOpen (update filepath line d now) :=
  stopsOpen_query _ fun _ => stopsOpen_execute _ _ fun _ => stopsOpen_execute _ _ fun _ =>
    stopsOpen_commit

theorem stopsOpen_delete (filepath : String) (line : UInt32) :
    StopsOpen (delete filepath line) := by
  refine stopsOpen_query _ fun found => ?_
  split
  · exact stopsOpen_execute _ _ fun _ => stopsOpen_execute _ _ fun _ => stopsOpen_commit
  · exact stopsOpen_commit

theorem stopsOpen_deleteFile (filepath : String) : StopsOpen (deleteFile filepath) :=
  stopsOpen_execute _ _ fun _ => stopsOpen_execute _ _ fun _ => stopsOpen_commit

/-- A mishap stops a transaction with an error and the tables it began with, or it comes
too late for the transaction. -/
theorem transact_mishaps {work : Work Unit} (h : StopsOpen work) (mishaps : Mishaps) (s : Store) :
    work.transact mishaps s = work.transact [] s ∨
      ∃ e, work.transact mishaps s = (.error e, s) := by
  rw [transact_nil, transact, on_bind, start, on_step]
  cases mishaps.head?.join with
  | some e => exact .inr ⟨e, rfl⟩
  | none =>
    rcases h s s mishaps.tail with ⟨rest, hon⟩ | ⟨e, tables', rest, hon⟩
    · refine .inl ?_
      simp only [hon]
    · refine .inr ⟨e, ?_⟩
      simp only [hon]
      rfl

end Work

namespace Operation

/-- Statement by statement, an operation does what it does as one step, and nothing
if it fails. -/
theorem perform_nil (op : Operation) (s : Store) : op.perform [] s = s.settle (op.apply s) := by
  cases op with
  | create n => exact Work.transact_create n s
  | update filepath line d now => exact Work.transact_update filepath line d now s
  | delete filepath line => exact Work.transact_delete filepath line s
  | deleteFile filepath => exact Work.transact_deleteFile filepath s
  | reopen => rfl

theorem perform_mishaps (op : Operation) (mishaps : Mishaps) (s : Store) :
    op.perform mishaps s = op.perform [] s ∨ ∃ e, op.perform mishaps s = (.error e, s) := by
  cases op with
  | create n => exact Work.transact_mishaps (Work.stopsOpen_create n) mishaps s
  | update filepath line d now =>
    exact Work.transact_mishaps (Work.stopsOpen_update filepath line d now) mishaps s
  | delete filepath line =>
    exact Work.transact_mishaps (Work.stopsOpen_delete filepath line) mishaps s
  | deleteFile filepath =>
    exact Work.transact_mishaps (Work.stopsOpen_deleteFile filepath) mishaps s
  | reopen =>
    simp only [perform]
    cases mishaps.head?.join with
    | some e => exact .inr ⟨e, rfl⟩
    | none => exact .inl rfl

/-- Whatever happens, an operation does what it does as one step, or it fails and does
nothing. -/
theorem perform_cases (op : Operation) (mishaps : Mishaps) (s : Store) :
    op.perform mishaps s = s.settle (op.apply s) ∨ ∃ e, op.perform mishaps s = (.error e, s) :=
  perform_nil op s ▸ perform_mishaps op mishaps s

/-- An operation that fails leaves the tables as they were. -/
theorem tables_of_error {op : Operation} {mishaps : Mishaps} {s : Store} {e : StoreError}
    (h : (op.perform mishaps s).1 = .error e) : (op.perform mishaps s).2 = s := by
  rcases perform_cases op mishaps s with hstep | ⟨e', hstep⟩
  · rw [hstep] at h ⊢
    cases happly : op.apply s with
    | ok s' =>
      rw [happly] at h
      cases h
    | error e' => rfl
  · rw [hstep]

/-- An operation that succeeds makes the tables that it makes as one step. -/
theorem apply_of_ok {op : Operation} {mishaps : Mishaps} {s : Store}
    (h : (op.perform mishaps s).1 = .ok ()) : op.apply s = .ok (op.perform mishaps s).2 := by
  rcases perform_cases op mishaps s with hstep | ⟨e, hstep⟩
  · rw [hstep] at h ⊢
    cases happly : op.apply s with
    | ok s' => rfl
    | error e =>
      rw [happly] at h
      cases h
  · rw [hstep] at h
    cases h

end Operation

end Marginalia
