import Marginalia.Proofs.Store.ReadBack
import Marginalia.Proofs.Store.Readable

set_option autoImplicit false

/-!
# A note over its life

What is read of a note is its identifier, the time of its creation and the time of its last
change, beside what was written last.  Only an update that succeeds touches these, wherever
it moves the note: it leaves the identifier and the time of creation, and whatever the clock
shows, the time of the change that is read afterwards is later than the one before.  So it is
over every run as long as the note exists.  The times may be any that can be read, whoever
wrote them.
-/

namespace Marginalia

open Marginalia.Time (Instant)

/-! ## Notes -/

/-- What a note becomes by some number of changes: its identifier and the time of its
creation stay, and so does the time of its last change as long as there is no change;
with any change that time is later. -/
structure Note.Becomes (n : Note) (changes : Nat) (m : Note) : Prop where
  id : m.id = n.id
  createdAt : m.createdAt = n.createdAt
  kept : changes = 0 → m.updatedAt = n.updatedAt
  changed : 0 < changes → n.updatedAt.IsBefore m.updatedAt

namespace Note.Becomes

variable {n m k : Note} {i j : Nat}

theorem of_same (hid : m.id = n.id) (hcreated : m.createdAt = n.createdAt)
    (hupdated : m.updatedAt = n.updatedAt) : n.Becomes 0 m :=
  ⟨hid, hcreated, fun _ => hupdated, fun h => absurd h (Nat.lt_irrefl 0)⟩

theorem of_later (hid : m.id = n.id) (hcreated : m.createdAt = n.createdAt)
    (hupdated : n.updatedAt.IsBefore m.updatedAt) : n.Becomes 1 m :=
  ⟨hid, hcreated, fun h => absurd h Nat.one_ne_zero, fun _ => hupdated⟩

theorem trans (hi : n.Becomes i m) (hj : m.Becomes j k) : n.Becomes (i + j) k := by
  refine ⟨hj.id.trans hi.id, hj.createdAt.trans hi.createdAt, fun hnone => ?_, fun hsome => ?_⟩
  · rw [hj.kept (by omega), hi.kept (by omega)]
  · rcases Nat.eq_zero_or_pos i with hzero | hpos
    · exact hi.kept hzero ▸ hj.changed (by omega)
    · rcases Nat.eq_zero_or_pos j with hzero | hpos'
      · exact (hj.kept hzero).symm ▸ hi.changed hpos
      · exact (hi.changed hpos).trans (hj.changed hpos')

end Note.Becomes

/-! ## Rows -/

/-- The text is the only part of a note that its row does not tell. -/
theorem Row.read_of_read {r : Row} {text : Option String} {n : Note} (h : r.read text = .ok n)
    (text' : Option String) : r.read text' = .ok { n with text := text'.getD "" } := by
  obtain ⟨hcolumns, hfile, -, husername, hemail⟩ := read_eq_ok_iff.1 h
  exact read_eq_ok_iff.2 ⟨hcolumns, hfile, rfl, husername, hemail⟩

namespace Store

variable {s s' : Store}

/-- Whether a note is read from one of the rows. -/
def Reads (s : Store) (n : Note) : Prop := ∃ r ∈ s.notes, s.readRow r = .ok n

theorem exists_row_of_get {filepath : String} {line : UInt32} {n : Note}
    (h : s.get filepath line = .ok n) :
    ∃ r ∈ s.notes, r.isAt filepath (.ofLine line) = true ∧ s.readRow r = .ok n := by
  cases hrow : s.rowAt? filepath line with
  | none =>
    rw [get, hrow] at h
    cases h
  | some r =>
    obtain ⟨hr, hat⟩ := mem_of_rowAt? hrow
    rw [get, hrow] at h
    exact ⟨r, hr, hat, h⟩

/-- A row tells the same of a note in tables with other texts, but for the text. -/
theorem exists_readRow {r : Row} {n : Note} (h : s.readRow r = .ok n) (s' : Store) :
    ∃ m, s'.readRow r = .ok m ∧ n.Becomes 0 m :=
  ⟨_, readRow_eq_ok_iff.2 (Row.read_of_read (readRow_eq_ok_iff.1 h) _), .of_same rfl rfl rfl⟩

namespace Intact

theorem toText_id (h : s.Intact) {r : Row} {n : Note} (hr : r ∈ s.notes)
    (hread : s.readRow r = .ok n) : n.id.toText = r.id :=
  (h.written r hr).toText_id (readRow_eq_ok_iff.1 hread)

theorem place_eq (h : s.Intact) {r : Row} {n : Note} (hr : r ∈ s.notes)
    (hread : s.readRow r = .ok n) : r.place = (n.filepath, .ofLine n.line) := by
  obtain ⟨⟨-, hline, -⟩, hfile, -⟩ := Row.read_eq_ok_iff.1 (readRow_eq_ok_iff.1 hread)
  obtain ⟨l, hl⟩ := (h.written r hr).line
  rw [hl, Row.read_ofLine] at hline
  rw [Row.place, hfile, hl, Except.ok.inj hline]

/-- Two notes that are read under one identifier are the same. -/
theorem eq_of_reads (h : s.Intact) {n m : Note} (hn : s.Reads n) (hm : s.Reads m)
    (hid : m.id = n.id) : m = n := by
  obtain ⟨r, hr, hread⟩ := hn
  obtain ⟨q, hq, hqread⟩ := hm
  have hrows : q.id = r.id := by rw [← h.toText_id hq hqread, hid, h.toText_id hr hread]
  rw [h.eq_of_id hq hr hrows, hread] at hqread
  exact (Except.ok.inj hqread).symm

/-! ## One update -/

/-- After an update the draft is read at its location, under the identifier and the time of
creation of the note that was at the location before. -/
theorem get_of_update (h : s.Intact) {filepath : String} {line : UInt32} {d : Draft}
    {now : Instant} {n : Note} (hget : s.get filepath line = .ok n) (hnow : now.IsRepresentable)
    (hyear : (now.latest n.updatedAt.nextMicro).YearWithin 0 9999)
    (hupdate : s.update filepath line d now = .ok s') :
    s'.get d.filepath d.line = .ok (n.revise d (now.latest n.updatedAt.nextMicro).shown) := by
  obtain ⟨r, hr, hat, hread⟩ := exists_row_of_get hget
  have hid : n.id.toText = r.id := h.toText_id hr hread
  have hafter : s'.Intact := (h.of_update hupdate).1
  obtain ⟨existing, hexisting, hnotes⟩ := notes_of_update hupdate
  cases hget.symm.trans hexisting
  obtain ⟨q, hq, hplace, -, t, heq⟩ := h.exists_of_update hupdate
  obtain rfl := h.eq_of_place hq hr (hplace.trans (((h.written r hr).isAt_iff _ _).1 hat).symm)
  have hrow : q.revise d (now.latest n.updatedAt.nextMicro) ∈ s'.notes := by
    rw [hnotes, Statement.reviseRows]
    exact List.mem_map.2 ⟨q, hr, if_pos (beq_iff_eq.2 hid.symm)⟩
  have htext : (⟨q.id, d.text⟩ : TextRow) ∈ s'.texts := by
    have hknown := (h.any_noteId q.id).trans (List.any_eq_true.2 ⟨q, hr, beq_self_eq_true _⟩)
    obtain ⟨x, hx, hxid⟩ := List.any_eq_true.1 hknown
    rw [heq]
    exact List.mem_map.2 ⟨x, hx, if_pos hxid⟩
  refine (hafter.get_eq hrow rfl).trans (readRow_eq_ok_iff.2 ?_)
  rw [show s'.textOf? (q.revise d _).id = some d.text from hafter.textOf?_eq htext]
  exact Row.read_revise (readRow_eq_ok_iff.1 hread) d
    (hnow.latest (isRepresentable_of_get hget).nextMicro) hyear

end Intact

end Store

/-! ## One operation -/

namespace Operation

open Store (Intact Reads)

variable {s s' : Store} {op : Operation}

/-- Whether an operation is an update that succeeds, of the note with an identifier. -/
def changes (op : Operation) (mishaps : Mishaps) (s : Store) (id : NoteId) : Bool :=
  match op with
  | .update filepath line d now =>
    match (perform (.update filepath line d now) mishaps s).1, s.get filepath line with
    | .ok (), .ok n => n.id = id
    | _, _ => false
  | _ => false

theorem changes_iff {mishaps : Mishaps} {id : NoteId} :
    op.changes mishaps s id = true ↔ ∃ filepath line d now n, op = .update filepath line d now ∧
      (op.perform mishaps s).1 = .ok () ∧ s.get filepath line = .ok n ∧ n.id = id := by
  unfold changes
  split
  · rename_i filepath line d now
    split
    · rename_i n hok hget
      rw [decide_eq_true_iff]
      constructor
      · intro hid
        exact ⟨_, _, _, _, n, rfl, hok, hget, hid⟩
      · rintro ⟨_, _, _, _, m, hop, -, hm, hid⟩
        cases hop
        cases hget.symm.trans hm
        exact hid
    · rename_i hnot
      refine iff_of_false Bool.false_ne_true ?_
      rintro ⟨_, _, _, _, m, hop, hok, hm, -⟩
      cases hop
      exact hnot m hok hm
  · rename_i hnot
    refine iff_of_false Bool.false_ne_true ?_
    rintro ⟨_, _, _, _, _, hop, -⟩
    exact hnot _ _ _ _ hop

/-- What becomes of a row: it stays as it is, or an update writes a draft over it, or the
operation only takes rows away, this one among them. -/
theorem row_of_apply (happly : op.apply s = .ok s') {r : Row} (hr : r ∈ s.notes) :
    r ∈ s'.notes ∨
      (∃ filepath line d now n, op = .update filepath line d now ∧
        s.get filepath line = .ok n ∧ n.id.toText = r.id) ∨
      s'.notes ⊆ s.notes := by
  cases op with
  | create n =>
    rw [Store.notes_of_create happly]
    exact .inl (List.mem_append_left _ hr)
  | update filepath line d now =>
    obtain ⟨n, hget, hnotes⟩ := Store.notes_of_update happly
    by_cases hid : n.id.toText = r.id
    · exact .inr (.inl ⟨filepath, line, d, now, n, rfl, hget, hid⟩)
    · refine .inl ?_
      rw [hnotes, Statement.reviseRows]
      exact List.mem_map.2 ⟨r, hr, if_neg (mt beq_iff_eq.1 (Ne.symm hid))⟩
  | delete filepath line =>
    rw [← Except.ok.inj happly]
    exact .inr (.inr Store.subset_of_delete)
  | deleteFile filepath =>
    rw [← Except.ok.inj happly]
    exact .inr (.inr fun q hq => List.mem_of_mem_filter hq)
  | reopen => exact .inl (Except.ok.inj happly ▸ hr)

/-- Unless an operation is an update of a note, a row with the identifier of the note or at
its place afterwards is the row of the note before. -/
theorem row_of_perform (h : s.Intact) {mishaps : Mishaps} {r r' : Row} {n : Note}
    (hr : r ∈ s.notes) (hread : s.readRow r = .ok n)
    (hother : op.changes mishaps s n.id = false) (hr' : r' ∈ (op.perform mishaps s).2.notes)
    (hsame : r'.id = r.id ∨ r'.place = r.place) : r' = r := by
  have hone : ∀ {t : Store}, t.Intact → r' ∈ t.notes → r ∈ t.notes → r' = r := fun ht hr' hr =>
    hsame.elim (ht.eq_of_id hr' hr) (ht.eq_of_place hr' hr)
  cases hreply : (op.perform mishaps s).1 with
  | error e =>
    rw [tables_of_error hreply] at hr'
    exact hone h hr' hr
  | ok =>
    have happly := apply_of_ok hreply
    rcases row_of_apply happly hr with hkept | ⟨filepath, line, d, now, m, hop, hget, hid⟩ | hsub
    · exact hone (intact_perform h op mishaps) hr' hkept
    · have hid : m.id = n.id := NoteId.toText_injective (hid.trans (h.toText_id hr hread).symm)
      have hchanges := changes_iff.2 ⟨filepath, line, d, now, m, hop, hreply, hget, hid⟩
      exact absurd (hother.symm.trans hchanges) Bool.false_ne_true
    · exact hone h (hsub hr') hr

/-- Whatever is no update of a note leaves it under its identifier and at its place, or
leaves nothing there. -/
theorem becomes_of_perform (h : s.Intact) {mishaps : Mishaps} {n : Note} (hn : s.Reads n)
    (hother : op.changes mishaps s n.id = false) :
    (∀ m, (op.perform mishaps s).2.Reads m → m.id = n.id ∨ m.place = n.place → n.Becomes 0 m) ∧
    ((∃ r ∈ (op.perform mishaps s).2.notes, r.id = n.id.toText) →
      ∃ m, (op.perform mishaps s).2.Reads m ∧ n.Becomes 0 m) := by
  have hafter : (op.perform mishaps s).2.Intact := intact_perform h op mishaps
  obtain ⟨r, hr, hread⟩ := hn
  obtain ⟨m', hm', hbecomes⟩ := Store.exists_readRow hread (op.perform mishaps s).2
  constructor
  · rintro m ⟨r', hr', hread'⟩ hsame
    have hrow : r' = r := by
      refine row_of_perform h hr hread hother hr' (hsame.imp (fun hid => ?_) fun hplace => ?_)
      · rw [← hafter.toText_id hr' hread', hid, h.toText_id hr hread]
      · obtain ⟨hfile, hline⟩ := Prod.mk.inj hplace
        rw [hafter.place_eq hr' hread', h.place_eq hr hread, hfile, hline]
    rw [hrow, hm'] at hread'
    exact Except.ok.inj hread' ▸ hbecomes
  · rintro ⟨r', hr', hid⟩
    obtain rfl := row_of_perform h hr hread hother hr' (.inl (hid.trans (h.toText_id hr hread)))
    exact ⟨m', ⟨r', hr', hm'⟩, hbecomes⟩

/-- An update changes the note that was at its location once. -/
theorem becomes_of_update (h : s.Intact) {mishaps : Mishaps} {filepath : String} {line : UInt32}
    {d : Draft} {now : Instant} {n : Note} (hget : s.get filepath line = .ok n)
    (hnow : now.IsRepresentable) (hyear : (now.latest n.updatedAt.nextMicro).YearWithin 0 9999)
    (hok : (perform (.update filepath line d now) mishaps s).1 = .ok ()) :
    ∃ m, (perform (.update filepath line d now) mishaps s).2.get d.filepath d.line = .ok m ∧
      n.Becomes 1 m :=
  ⟨_, h.get_of_update hget hnow hyear (apply_of_ok hok), .of_later rfl rfl
    (Instant.isBefore_shown_latest (Store.isRepresentable_of_get hget) hnow)⟩

/-! ## Every run -/

/-- Whether a note exists after each of some operations, and those that change it take times
that can be represented and write times of years of four digits. -/
def Endures (id : NoteId) : List (Operation × Mishaps) → Store → Prop
  | [], _ => True
  | (op, mishaps) :: ops, s =>
    (∃ r ∈ (op.perform mishaps s).2.notes, r.id = id.toText) ∧
      (op.changes mishaps s id = true → op.TakesTimes ∧ op.WritesYears s) ∧
      Endures id ops (op.perform mishaps s).2

/-- How many of some operations change a note. -/
def changesOf (id : NoteId) : List (Operation × Mishaps) → Store → Nat
  | [], _ => 0
  | (op, mishaps) :: ops, s =>
    (op.changes mishaps s id).toNat + changesOf id ops (op.perform mishaps s).2

/-- One operation through which a note endures. -/
theorem reads_of_perform (h : s.Intact) {mishaps : Mishaps} {n : Note} (hn : s.Reads n)
    (hrow : ∃ r ∈ (op.perform mishaps s).2.notes, r.id = n.id.toText)
    (hyears : op.changes mishaps s n.id = true → op.TakesTimes ∧ op.WritesYears s) :
    ∃ m, (op.perform mishaps s).2.Reads m ∧ n.Becomes (op.changes mishaps s n.id).toNat m := by
  cases hchanges : op.changes mishaps s n.id with
  | false => exact (becomes_of_perform h hn hchanges).2 hrow
  | true =>
    obtain ⟨filepath, line, d, now, k, rfl, hok, hget, hid⟩ := changes_iff.1 hchanges
    obtain ⟨r, hr, -, hread⟩ := Store.exists_row_of_get hget
    obtain rfl := h.eq_of_reads hn ⟨r, hr, hread⟩ hid
    obtain ⟨htimes, hyear⟩ := hyears hchanges
    obtain ⟨m, hm, hbecomes⟩ := becomes_of_update h hget htimes
      (hyear k hget ⟨r, hr, (h.toText_id hr hread).symm⟩) hok
    obtain ⟨r', hr', -, hread'⟩ := Store.exists_row_of_get hm
    exact ⟨m, ⟨r', hr', hread'⟩, hbecomes⟩

/-- A run through which a note endures. -/
theorem reads_of_endures (h : s.Intact) {n : Note} (hn : s.Reads n)
    {ops : List (Operation × Mishaps)} (hendures : Endures n.id ops s) :
    ∃ m, (performAll ops s).Reads m ∧ n.Becomes (changesOf n.id ops s) m := by
  induction ops generalizing s n with
  | nil => exact ⟨n, hn, .of_same rfl rfl rfl⟩
  | cons op ops ih =>
    obtain ⟨hrow, hyears, hrest⟩ := hendures
    obtain ⟨m, hm, hstep⟩ := reads_of_perform h hn hrow hyears
    obtain ⟨k, hk, hlater⟩ := ih (intact_perform h op.1 op.2) hm (hstep.id.symm ▸ hrest)
    exact ⟨k, hk, hstep.trans (hstep.id ▸ hlater)⟩

/-- A note over its life, in tables whose times may be any.  An update that succeeds, wherever
it moves the note, leaves the identifier and the time of creation that are read, and makes
the time of the last change later, whatever the clock shows.  Anything else leaves all three,
and no other note under the identifier or at the place.  So it is over every run through which
the note exists. -/
theorem life_of_note (h : s.Intact) :
    (∀ (filepath : String) (line : UInt32) (d : Draft) (now : Instant) (mishaps : Mishaps)
      (n : Note), s.get filepath line = .ok n → now.IsRepresentable →
      (now.latest n.updatedAt.nextMicro).YearWithin 0 9999 →
      (perform (.update filepath line d now) mishaps s).1 = .ok () →
      ∃ m, (perform (.update filepath line d now) mishaps s).2.get d.filepath d.line = .ok m ∧
        n.Becomes 1 m) ∧
    (∀ (op : Operation) (mishaps : Mishaps) (n : Note), s.Reads n →
      op.changes mishaps s n.id = false →
      (∀ m, (op.perform mishaps s).2.Reads m → m.id = n.id ∨ m.place = n.place →
        n.Becomes 0 m) ∧
      ((∃ r ∈ (op.perform mishaps s).2.notes, r.id = n.id.toText) →
        ∃ m, (op.perform mishaps s).2.Reads m ∧ n.Becomes 0 m)) ∧
    ∀ ops, (performAll ops s).Intact ∧
      ∀ n, s.Reads n → Endures n.id ops s →
        ∃ m, (performAll ops s).Reads m ∧ n.Becomes (changesOf n.id ops s) m := by
  refine ⟨?_, ?_, ?_⟩
  · intro filepath line d now mishaps n hget hnow hyear hok
    exact becomes_of_update h hget hnow hyear hok
  · intro op mishaps n hn hother
    exact becomes_of_perform h hn hother
  · intro ops
    exact ⟨intact_performAll h ops, fun n hn hendures => reads_of_endures h hn hendures⟩

/-- A row whose note was changed within a leap second, with digits that the store does not
write. -/
def leapRow : Row :=
  { Row.ofNote strayNote with
    createdAt := "1969-12-31T22:00:00.5-02:00", updatedAt := "2016-12-31T23:59:60.999999500Z" }

/-- Tables with this row only. -/
def leapTables : Store := ⟨[leapRow], [⟨leapRow.id, "TODO"⟩]⟩

/-- The note of the row. -/
def leapNote : Note :=
  { strayNote with createdAt := ⟨0, 500000000⟩, updatedAt := ⟨1483228799, 1999999500⟩ }

theorem leapTables_intact : leapTables.Intact :=
  { written := List.forall_mem_singleton.2 ⟨⟨strayNote.id, rfl⟩, 1, rfl⟩
    ids := List.nodup_singleton _
    places := List.nodup_singleton _
    texts := rfl }

/-- The note is moved while the clock shows the year 1970, and it is changed later than before
all the same. -/
theorem life_of_note_leap :
    leapTables.Intact ∧ leapTables.get "a.c" 1 = .ok leapNote ∧
      (perform (.update "a.c" 1 { leapNote.toDraft with line := 7 } ⟨0, 0⟩) [] leapTables).1 =
        .ok () ∧
      ∃ m, (perform (.update "a.c" 1 { leapNote.toDraft with line := 7 } ⟨0, 0⟩) []
          leapTables).2.get "a.c" 7 = .ok m ∧ leapNote.Becomes 1 m := by
  have hget : leapTables.get "a.c" 1 = .ok leapNote := by rfl
  have hok : (perform (.update "a.c" 1 { leapNote.toDraft with line := 7 } ⟨0, 0⟩) []
      leapTables).1 = .ok () := by
    rw [perform_nil]
    rfl
  exact ⟨leapTables_intact, hget, hok, (life_of_note leapTables_intact).1 "a.c" 1
    { leapNote.toDraft with line := 7 } ⟨0, 0⟩ [] leapNote hget (by decide) (by decide) hok⟩

end Operation

end Marginalia
