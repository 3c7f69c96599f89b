import Marginalia.Proofs.Note.Id
import Marginalia.Proofs.Note.Location
import Marginalia.Proofs.Time.Timestamp
import Marginalia.Store.Row

set_option autoImplicit false

/-!
# Rows of notes

A note is kept as a row of texts, and its times as whole microseconds.  The row
of a note is read back as the note exactly when its years have four digits, and
it is at the place of the note only.
-/

namespace Marginalia

open Marginalia.Time (Instant)

/-- Work that goes on from the result of other work ends well when both do. -/
theorem bind_eq_ok_iff {α β ε : Type} {x : Except ε α} {f : α → Except ε β} {b : β} :
    (x >>= f) = .ok b ↔ ∃ a, x = .ok a ∧ f a = .ok b := by
  cases x with
  | ok a => exact ⟨fun h => ⟨a, rfl, h⟩, fun ⟨_, h, hf⟩ => Except.ok.inj h ▸ hf⟩
  | error e => exact ⟨fun h => (nomatch h), fun ⟨_, h, _⟩ => (nomatch h)⟩

/-! ## Notes -/

namespace Note

/-- The note with what can be kept of its times. -/
def cutTimes (n : Note) : Note :=
  { n with createdAt := n.createdAt.cutToMicros, updatedAt := n.updatedAt.cutToMicros }

/-- The note with what a draft says, changed at a moment. -/
def revise (n : Note) (d : Draft) (updatedAt : Instant) : Note :=
  { d with id := n.id, createdAt := n.createdAt, updatedAt := updatedAt }

/-- Whether both times of a note lie in the years between two. -/
def TimesWithin (first last : Int) (n : Note) : Prop :=
  n.createdAt.YearWithin first last ∧ n.updatedAt.YearWithin first last

instance (first last : Int) (n : Note) : Decidable (n.TimesWithin first last) :=
  inferInstanceAs (Decidable (_ ∧ _))

/-- Whether both times of a note are times that can be kept. -/
def IsKept (n : Note) : Prop := n.createdAt.IsKept ∧ n.updatedAt.IsKept

@[simp] theorem place_cutTimes (n : Note) : n.cutTimes.place = n.place := rfl

@[simp] theorem id_cutTimes (n : Note) : n.cutTimes.id = n.id := rfl

@[simp] theorem place_revise (n : Note) (d : Draft) (t : Instant) :
    (n.revise d t).place = d.place := rfl

@[simp] theorem id_revise (n : Note) (d : Draft) (t : Instant) : (n.revise d t).id = n.id := rfl

theorem isKept_cutTimes {n : Note} (hc : n.createdAt.IsProper) (hu : n.updatedAt.IsProper) :
    n.cutTimes.IsKept :=
  ⟨hc.isKept_cutToMicros, hu.isKept_cutToMicros⟩

end Note

/-! ## Rows -/

namespace Row

theorem ofNote_cutTimes (n : Note) : ofNote n.cutTimes = ofNote n := by
  simp only [ofNote, Note.cutTimes, Instant.toStoredText_cutToMicros]

theorem revise_ofNote (n : Note) (d : Draft) (t : Instant) :
    (ofNote n).revise d t = ofNote (n.revise d t.cutToMicros) := by
  simp only [ofNote, revise, Note.revise, Instant.toStoredText_cutToMicros]

theorem compare_ofLine_eq_iff (k l : UInt32) :
    (LineCell.ofLine k).compare (.ofLine l) = .eq ↔ k = l := by
  simp only [LineCell.ofLine, LineCell.compare, Std.LawfulEqOrd.compare_eq_iff_eq,
    Int.ofNat_inj, UInt32.toNat_inj]

/-- The row of a note is at the place of the note only. -/
theorem isAt_ofNote (n : Note) (filepath : String) (line : UInt32) :
    (ofNote n).isAt filepath (.ofLine line) = (n.place == (filepath, line)) := by
  rw [Bool.eq_iff_iff, beq_iff_eq]
  simp only [isAt, ofNote, Bool.and_eq_true, beq_iff_eq, compare_ofLine_eq_iff, Note.place,
    Draft.place, Prod.mk.injEq]

theorem read_ofLine (line : UInt32) : (LineCell.ofLine line).read = .ok line := by
  have hrange : (0 ≤ (line.toNat : Int) && (line.toNat : Int) ≤ 4294967295) = true := by
    have := line.toNat_lt
    simp only [Bool.and_eq_true, decide_eq_true_eq]
    omega
  simp only [LineCell.ofLine, LineCell.read, hrange, if_true, Int.toNat_natCast,
    UInt32.ofNat_toNat]

theorem orFault_eq_ok_iff {α : Type} {fault : ColumnFault} {x : Option α} {a : α} :
    orFault fault x = .ok a ↔ x = some a := by
  cases x <;> simp [orFault]

/-- What a row is read as, column by column. -/
theorem read_eq_ok_iff {r : Row} {text : Option String} {n : Note} :
    r.read text = .ok n ↔
      (NoteId.read? r.id = some n.id ∧ r.line.read = .ok n.line ∧
        Kind.ofName? r.kind = some n.kind ∧ Instant.read? r.createdAt.toList = some n.createdAt ∧
        Instant.read? r.updatedAt.toList = some n.updatedAt) ∧
      n.filepath = r.filepath ∧ n.text = text.getD "" ∧ n.username = r.username ∧
        n.email = r.email := by
  simp only [read, bind_eq_ok_iff, orFault_eq_ok_iff]
  constructor
  · rintro ⟨id, hid, line, hline, kind, hkind, createdAt, hcreated, updatedAt, hupdated, hn⟩
    cases hn
    exact ⟨⟨hid, hline, hkind, hcreated, hupdated⟩, rfl, rfl, rfl, rfl⟩
  · rintro ⟨⟨hid, hline, hkind, hcreated, hupdated⟩, hfile, htext, husername, hemail⟩
    refine ⟨_, hid, _, hline, _, hkind, _, hcreated, _, hupdated, ?_⟩
    rw [← hfile, ← htext, ← husername, ← hemail]
    rfl

/-- The row of a note is read back as the note, or not at all when a time of the
note has no year of four digits. -/
theorem read_ofNote_iff {n m : Note} (h : n.IsKept) :
    (ofNote n).read (some n.text) = .ok m ↔ m = n ∧ n.TimesWithin 0 9999 := by
  have hkind : Kind.ofName? n.kind.name = some n.kind := (Kind.ofName?_eq_some_iff _ _).2 rfl
  by_cases hc : n.createdAt.YearWithin 0 9999
  · by_cases hu : n.updatedAt.YearWithin 0 9999
    · have hread : (ofNote n).read (some n.text) = .ok n := by
        simp only [read, ofNote, NoteId.read?_toText, read_ofLine, hkind, orFault,
          (Instant.read?_toStoredText_iff h.1).2 ⟨rfl, hc⟩,
          (Instant.read?_toStoredText_iff h.2).2 ⟨rfl, hu⟩]
        rfl
      rw [hread, Except.ok.injEq]
      exact ⟨fun heq => ⟨heq.symm, hc, hu⟩, fun heq => heq.1.symm⟩
    · have hread : (ofNote n).read (some n.text) = .error .updatedAt := by
        simp only [read, ofNote, NoteId.read?_toText, read_ofLine, hkind, orFault,
          (Instant.read?_toStoredText_iff h.1).2 ⟨rfl, hc⟩,
          Instant.read?_toStoredText_eq_none hu]
        rfl
      rw [hread]
      exact ⟨fun heq => (nomatch heq), fun heq => absurd heq.2.2 hu⟩
  · have hread : (ofNote n).read (some n.text) = .error .createdAt := by
      simp only [read, ofNote, NoteId.read?_toText, read_ofLine, hkind, orFault,
        Instant.read?_toStoredText_eq_none hc]
      rfl
    rw [hread]
    exact ⟨fun heq => (nomatch heq), fun heq => absurd heq.2.1 hc⟩

end Row

end Marginalia
