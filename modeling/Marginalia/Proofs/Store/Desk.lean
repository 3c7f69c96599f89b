import Marginalia.Proofs.Store.Reachable
import Marginalia.Store.Call

set_option autoImplicit false

/-!
# Calls at a desk

A call that changes the store is about one place.  When the notes allow it and
what it draws is fair, it is granted, changes the note at its place as its effect
says and leaves all other places alone.  So calls about different places do not
disturb each other, and the notes after a list of them can be told place by
place.
-/

namespace Marginalia

open Marginalia.Time (Instant)

/-! ## Notes shown -/

/-- A store shows notes when it holds them and can read all of them back. -/
structure Store.Shows (s : Store) (ns : List Note) : Prop extends s.Holds ns where
  readable : ∀ n ∈ ns, n.TimesWithin 0 9999

namespace Store.Shows

variable {s : Store} {ns : List Note}

/-- The note at a place is the one that is shown there. -/
theorem get_eq (h : s.Shows ns) (filepath : String) (line : UInt32) :
    s.get filepath line =
      match Note.at? ns (filepath, line) with
      | some n => .ok n
      | none => .error (.notFound filepath line) := by
  cases hat : Note.at? ns (filepath, line) with
  | some n => exact h.get_eq_ok_iff.2 ⟨hat, h.readable n (h.at?_eq_some_iff.1 hat).1⟩
  | none =>
    rw [Store.get, h.rowAt?_eq, hat]
    rfl

end Store.Shows

/-! ## What a call does -/

namespace Call

/-- The place that a call is about. -/
def place? : Call → Option Location
  | .create d => some d.place
  | .update filepath line _ => some (filepath, line)
  | .delete filepath line => some (filepath, line)
  | .list _ | .deleteFile _ => none

/-- A call is about a place unless it is about all notes or those of a file. -/
theorem exists_place (c : Call) (hlist : ∀ scope, c ≠ .list scope)
    (hfile : ∀ filepath, c ≠ .deleteFile filepath) : ∃ p, c.place? = some p := by
  cases c with
  | create d => exact ⟨_, rfl⟩
  | update filepath line d => exact ⟨_, rfl⟩
  | delete filepath line => exact ⟨_, rfl⟩
  | list scope => exact absurd rfl (hlist scope)
  | deleteFile filepath => exact absurd rfl (hfile filepath)

/-- What a call makes of the note at its place. -/
def effect (w : Draw) : Call → Option Note → Option Note
  | .create d, _ => some (d.toNote w.id w.now).cutTimes
  | .update _ _ d, some n => some (n.revise d (w.now.latest n.updatedAt.nextMicro).cutToMicros)
  | _, _ => none

/-- Whether the notes allow a call: nothing is where it creates, and a note that
can still be changed is where it updates, without being moved. -/
def IsDue (ns : List Note) : Call → Prop
  | .create d => Note.at? ns d.place = none
  | .update filepath line d =>
    d.place = (filepath, line) ∧
      ∃ n, Note.at? ns (filepath, line) = some n ∧ n.updatedAt.YearWithin 0 9998
  | .delete _ _ => True
  | .list _ | .deleteFile _ => False

/-- Whether notes allow a call depends on the note at its place only. -/
theorem IsDue.of_at? {ns ns' : List Note} {c : Call} (h : c.IsDue ns)
    (hsame : ∀ p, c.place? = some p → Note.at? ns' p = Note.at? ns p) : c.IsDue ns' := by
  cases c with
  | create d => exact (hsame _ rfl).trans h
  | update filepath line d =>
    obtain ⟨hplace, n, hat, hyear⟩ := h
    exact ⟨hplace, n, (hsame _ rfl).trans hat, hyear⟩
  | delete filepath line => trivial
  | list scope => exact h
  | deleteFile filepath => exact h

theorem IsDue.place {ns : List Note} {c : Call} (h : c.IsDue ns) : ∃ p, c.place? = some p :=
  c.exists_place (by rintro scope rfl; exact h) (by rintro filepath rfl; exact h)

end Call

/-! ## One call -/

namespace Desk

/-- Whether what a call draws is fair: the clock shows a time of a year from 0 to
9998, and an identifier that is given away is nobody's. -/
def IsFair (c : Call) (d : Desk) : Prop :=
  match c with
  | .create _ =>
    (d.draws 0).now.IsProper ∧ (d.draws 0).now.YearWithin 0 9998 ∧
      (d.draws 0).id.toText ∉ d.store.notes.map (·.id)
  | .update _ _ _ => (d.draws 0).now.IsProper ∧ (d.draws 0).now.YearWithin 0 9998
  | _ => True

variable {d : Desk} {ns : List Note}

theorem grant_create {draft : Draft} (h : d.store.Shows ns) (hfair : IsFair (.create draft) d)
    (hfree : Note.at? ns draft.place = none) :
    (∃ a, (answer (.create draft) d).1 = .ok a) ∧
      ∃ ns', (answer (.create draft) d).2.store.Shows ns' ∧ ∀ q, Note.at? ns' q =
        if q = draft.place then (Call.create draft).effect (d.draws 0) (Note.at? ns draft.place)
        else Note.at? ns q := by
  obtain ⟨hproper, hyear, hid⟩ := hfair
  have hunused : (d.draws 0).id ∉ ns.map (·.id) := by
    intro hmem
    obtain ⟨n, hn, hnid⟩ := List.mem_map.1 hmem
    refine hid ?_
    rw [h.tables, ← hnid]
    exact List.mem_map.2 ⟨.ofNote n, List.mem_map.2 ⟨n, hn, rfl⟩, rfl⟩
  obtain ⟨hcreate, hholds, hat⟩ :=
    h.create_at (n := draft.toNote (d.draws 0).id (d.draws 0).now) hproper hproper hfree hunused
  simp only [answer, hcreate, settle, after]
  refine ⟨⟨(), rfl⟩, _, ⟨hholds, fun n hn => ?_⟩, hat⟩
  rcases List.mem_append.1 hn with hn | hn
  · exact h.readable n hn
  · rw [List.mem_singleton.1 hn]
    have hread := hyear.mono (Int.le_refl 0) (show (9998 : Int) ≤ 9999 by omega)
    exact ⟨hread.cutToMicros, hread.cutToMicros⟩

/-- No note is created where there is one. -/
theorem answer_create_of_taken {draft : Draft} (h : d.store.Holds ns)
    (htaken : Note.at? ns draft.place ≠ none) :
    answer (.create draft) d =
      (.error (.alreadyExists draft.filepath draft.line), d.after d.store) := by
  have hplace : (draft.toNote (d.draws 0).id (d.draws 0).now).place ∈ ns.map Note.place := by
    refine Decidable.by_contra fun hfree => ?_
    exact htaken (Store.Holds.at?_eq_none_iff.2 hfree)
  have hcreate := h.create_eq (draft.toNote (d.draws 0).id (d.draws 0).now)
  rw [if_pos hplace] at hcreate
  simp only [answer, hcreate, settle]
  rfl

theorem grant_update {filepath : String} {line : UInt32} {draft : Draft} {n : Note}
    (h : d.store.Shows ns) (hfair : IsFair (.update filepath line draft) d)
    (hplace : draft.place = (filepath, line)) (hat : Note.at? ns (filepath, line) = some n)
    (hyear : n.updatedAt.nextMicro.YearWithin 0 9999) :
    (∃ a, (answer (.update filepath line draft) d).1 = .ok a) ∧
      ∃ ns', (answer (.update filepath line draft) d).2.store.Shows ns' ∧ ∀ q, Note.at? ns' q =
        if q = (filepath, line) then
          (Call.update filepath line draft).effect (d.draws 0) (Note.at? ns (filepath, line))
        else Note.at? ns q := by
  obtain ⟨hproper, hnow⟩ := hfair
  obtain ⟨hn, -⟩ := h.at?_eq_some_iff.1 hat
  obtain ⟨hupdate, hholds, hat'⟩ := h.update_at hat (h.readable n hn) hplace hproper rfl
  have hyear' : (Instant.latest (d.draws 0).now n.updatedAt.nextMicro).YearWithin 0 9999 :=
    (hnow.mono (Int.le_refl 0) (show (9998 : Int) ≤ 9999 by omega)).latest hyear
  simp only [answer, hupdate, settle, after]
  refine ⟨⟨(), rfl⟩, _, ⟨hholds, ?_⟩, ?_⟩
  · intro m hm
    obtain ⟨a, ha, rfl⟩ := List.mem_map.1 hm
    split
    · exact ⟨(h.readable a ha).1, hyear'.cutToMicros⟩
    · exact h.readable a ha
  · intro q
    rw [hat', hat]
    rfl

theorem grant_delete (filepath : String) (line : UInt32) (h : d.store.Shows ns) :
    (∃ a, (answer (.delete filepath line) d).1 = .ok a) ∧
      ∃ ns', (answer (.delete filepath line) d).2.store.Shows ns' ∧ ∀ q, Note.at? ns' q =
        if q = (filepath, line) then
          (Call.delete filepath line).effect (d.draws 0) (Note.at? ns (filepath, line))
        else Note.at? ns q := by
  refine ⟨⟨(), rfl⟩, _, ⟨h.of_delete filepath line, ?_⟩, ?_⟩
  · intro n hn
    exact h.readable n (List.mem_filter.1 hn).1
  · exact Store.Holds.at?_filter_place ns (filepath, line)

/-- A call that is due is granted, has its effect at its place and leaves all other
places alone. -/
theorem grant {c : Call} {p : Location} (h : d.store.Shows ns) (hfair : IsFair c d)
    (hdue : c.IsDue ns) (hp : c.place? = some p) :
    (∃ a, (answer c d).1 = .ok a) ∧
      ∃ ns', (answer c d).2.store.Shows ns' ∧ ∀ q, Note.at? ns' q =
        if q = p then c.effect (d.draws 0) (Note.at? ns p) else Note.at? ns q := by
  cases c with
  | create draft =>
    cases hp
    exact grant_create h hfair hdue
  | update filepath line draft =>
    cases hp
    obtain ⟨hplace, n, hat, hyear⟩ := hdue
    -- the next microsecond may be the first one of the year 9999
    exact grant_update h hfair hplace hat hyear.nextMicro
  | delete filepath line =>
    cases hp
    exact grant_delete filepath line h
  | list scope => exact hdue.elim
  | deleteFile filepath => exact hdue.elim

end Desk

end Marginalia
