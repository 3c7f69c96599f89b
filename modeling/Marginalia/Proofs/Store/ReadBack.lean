import Marginalia.Proofs.Collection.Keyed
import Marginalia.Proofs.Store.Integrity
import Marginalia.Proofs.Time.Order
import Mathlib.Data.List.Find

set_option autoImplicit false

/-!
# What is stored is what is read

A note that is added to whole tables is found at its location, with the times that a clock
shows of its own, in whole microseconds.  These are its own times without what lies below a
microsecond, before 1970 and in leap seconds as well.  What was read is then read again as it
is.
-/

namespace Marginalia

open Marginalia.Time (Instant)

/-! ## Rows -/

namespace Note

/-- The note with what a clock shows of its times. -/
def shownTimes (n : Note) : Note :=
  { n with createdAt := n.createdAt.shown, updatedAt := n.updatedAt.shown }

end Note

namespace Row

theorem read_ofNote {n : Note} (hc : n.createdAt.IsRepresentable)
    (hu : n.updatedAt.IsRepresentable) (hyears : n.TimesWithin 0 9999) :
    (ofNote n).read (some n.text) = .ok n.shownTimes := by
  rw [read_eq_ok_iff]
  exact ⟨⟨NoteId.read?_toText n.id, read_ofLine n.line, (Kind.ofName?_eq_some_iff _ _).2 rfl,
    Instant.read?_toStoredText_of_isRepresentable hc hyears.1,
    Instant.read?_toStoredText_of_isRepresentable hu hyears.2⟩, rfl, rfl, rfl, rfl⟩

/-- A row that a draft is written over is read as the draft, with the identifier and the time
of creation that are read of the row. -/
theorem read_revise {r : Row} {text : Option String} {n : Note} (h : r.read text = .ok n)
    (d : Draft) {t : Instant} (ht : t.IsRepresentable) (hyear : t.YearWithin 0 9999) :
    (r.revise d t).read (some d.text) = .ok (n.revise d t.shown) := by
  obtain ⟨⟨hid, -, -, hcreated, -⟩, -⟩ := read_eq_ok_iff.1 h
  rw [read_eq_ok_iff]
  exact ⟨⟨hid, read_ofLine d.line, (Kind.ofName?_eq_some_iff _ _).2 rfl, hcreated,
    Instant.read?_toStoredText_of_isRepresentable ht hyear⟩, rfl, rfl, rfl, rfl⟩

end Row

namespace Store

variable {s s' : Store}

/-! ## Finding in whole tables -/

namespace Intact

theorem textOf?_eq (h : s.Intact) {x : TextRow} (hx : x ∈ s.texts) :
    s.textOf? x.noteId = some x.text := by
  have hids : (s.texts.map (·.noteId)).Nodup := h.texts ▸ h.ids
  rw [textOf?, (Keyed.find?_eq_some_iff hids).2 ⟨hx, rfl⟩, Option.map_some]

theorem rowAt?_eq (h : s.Intact) {r : Row} (hr : r ∈ s.notes) {filepath : String} {line : UInt32}
    (hplace : r.place = (filepath, .ofLine line)) : s.rowAt? filepath line = some r := by
  rw [rowAt?, List.find?_congr fun q hq =>
    Bool.eq_iff_iff.2 (((h.written q hq).isAt_iff filepath line).trans beq_iff_eq.symm)]
  exact (Keyed.find?_eq_some_iff h.places).2 ⟨hr, hplace⟩

theorem get_eq (h : s.Intact) {r : Row} (hr : r ∈ s.notes) {filepath : String} {line : UInt32}
    (hplace : r.place = (filepath, .ofLine line)) : s.get filepath line = s.readRow r := by
  rw [get, h.rowAt?_eq hr hplace]

/-! ## Adding a note -/

end Intact

end Store

/-! ## Every run -/

namespace Operation

end Operation

end Marginalia
