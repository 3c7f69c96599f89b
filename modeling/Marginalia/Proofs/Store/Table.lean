import Marginalia.Proofs.Collection.Keyed
import Marginalia.Proofs.Store.Row
import Marginalia.Store.Basic
import Mathlib.Data.List.Forall2

set_option autoImplicit false

/-!
# The tables as a list of notes

As long as only the store writes its tables, they are those of a list of notes in
which no two share an identifier or a place, and every operation of the store is
an operation on this list.
-/

namespace Marginalia

open Marginalia.Time (Instant)

/-- The note of a list at a place. -/
def Note.at? (ns : List Note) (p : Location) : Option Note := ns.find? fun n => n.place == p

/-- What is read of a list is what is read of its members, one by one. -/
theorem mapM_eq_ok_iff {α β ε : Type} {f : α → Except ε β} {l : List α} {out : List β} :
    l.mapM f = .ok out ↔ List.Forall₂ (fun a b => f a = .ok b) l out := by
  induction l generalizing out with
  | nil =>
    rw [List.forall₂_nil_left_iff]
    exact ⟨fun h => (Except.ok.inj h).symm, fun h => h ▸ rfl⟩
  | cons a l ih =>
    rw [List.mapM_cons, List.forall₂_cons_left_iff]
    constructor
    · intro h
      obtain ⟨b, hb, hrest⟩ := bind_eq_ok_iff.1 h
      obtain ⟨rest, hmap, hout⟩ := bind_eq_ok_iff.1 hrest
      exact ⟨b, rest, hb, ih.1 hmap, (Except.ok.inj hout).symm⟩
    · rintro ⟨b, rest, hb, hrest, rfl⟩
      rw [hb, ih.2 hrest]
      rfl

/-- A list is read when each member is. -/
theorem exists_mapM_ok_iff {α β ε : Type} {f : α → Except ε β} {l : List α} :
    (∃ out, l.mapM f = .ok out) ↔ ∀ a ∈ l, ∃ b, f a = .ok b := by
  induction l with
  | nil => exact iff_of_true ⟨[], rfl⟩ fun a ha => absurd ha List.not_mem_nil
  | cons a l ih =>
    rw [List.forall_mem_cons, ← ih, List.mapM_cons]
    constructor
    · rintro ⟨out, hout⟩
      obtain ⟨b, hb, hrest⟩ := bind_eq_ok_iff.1 hout
      obtain ⟨rest, hrest, -⟩ := bind_eq_ok_iff.1 hrest
      exact ⟨⟨b, hb⟩, rest, hrest⟩
    · rintro ⟨⟨b, hb⟩, rest, hrest⟩
      rw [hb, hrest]
      exact ⟨b :: rest, rfl⟩

namespace Store

/-- The store whose tables describe notes. -/
def ofNotes (ns : List Note) : Store :=
  ⟨ns.map Row.ofNote, ns.map fun n => ⟨n.id.toText, n.text⟩⟩

/-- A store holds notes when its tables describe them, no two of them share an
identifier or a place, and their times can be kept. -/
structure Holds (s : Store) (ns : List Note) : Prop where
  tables : s = ofNotes ns
  ids : (ns.map (·.id)).Nodup
  places : (ns.map Note.place).Nodup
  kept : ∀ n ∈ ns, n.IsKept

namespace Holds

variable {s : Store} {ns : List Note}

/-! ## Reading -/

theorem at?_eq_some_iff (h : s.Holds ns) {p : Location} {n : Note} :
    Note.at? ns p = some n ↔ n ∈ ns ∧ n.place = p :=
  Keyed.find?_eq_some_iff h.places

theorem mem_iff_at? (h : s.Holds ns) {n : Note} : n ∈ ns ↔ Note.at? ns n.place = some n := by
  rw [h.at?_eq_some_iff, and_iff_left rfl]

theorem at?_eq_none_iff {p : Location} : Note.at? ns p = none ↔ p ∉ ns.map Note.place := by
  simp [Note.at?]

theorem count_eq (h : s.Holds ns) : s.count = ns.length := by
  rw [h.tables, count, ofNotes, List.length_map]

theorem textOf?_eq (h : s.Holds ns) {n : Note} (hn : n ∈ ns) :
    s.textOf? n.id.toText = some n.text := by
  have hnodup : ((ofNotes ns).texts.map (·.noteId)).Nodup := by
    have := h.ids.map fun _ _ heq => NoteId.toText_injective heq
    rw [List.map_map] at this
    rwa [ofNotes, List.map_map]
  have hfind : (ofNotes ns).texts.find? (·.noteId == n.id.toText) =
      some ⟨n.id.toText, n.text⟩ :=
    (Keyed.find?_eq_some_iff hnodup).2 ⟨List.mem_map.2 ⟨n, hn, rfl⟩, rfl⟩
  rw [h.tables, textOf?, hfind]
  rfl

/-- The row of a held note is read back as the note, if it is read back at all. -/
theorem readRow_eq_ok_iff (h : s.Holds ns) {n m : Note} (hn : n ∈ ns) :
    s.readRow (.ofNote n) = .ok m ↔ m = n ∧ n.TimesWithin 0 9999 := by
  rw [← Row.read_ofNote_iff (h.kept n hn), readRow]
  simp only [show (Row.ofNote n).id = n.id.toText from rfl, h.textOf?_eq hn]
  cases (Row.ofNote n).read (some n.text) <;> simp

theorem rowAt?_eq (h : s.Holds ns) (filepath : String) (line : UInt32) :
    s.rowAt? filepath line = (Note.at? ns (filepath, line)).map Row.ofNote := by
  have htest : (fun r : Row => r.isAt filepath (.ofLine line)) ∘ Row.ofNote =
      fun n => n.place == (filepath, line) :=
    funext fun n => Row.isAt_ofNote n filepath line
  rw [h.tables, rowAt?, ofNotes, List.find?_map, htest]
  rfl

/-- The note at a place is the one that is held there. -/
theorem get_eq_ok_iff (h : s.Holds ns) {filepath : String} {line : UInt32} {n : Note} :
    s.get filepath line = .ok n ↔
      Note.at? ns (filepath, line) = some n ∧ n.TimesWithin 0 9999 := by
  rw [get, h.rowAt?_eq]
  cases hat : Note.at? ns (filepath, line) with
  | none => simp
  | some m =>
    have hread := h.readRow_eq_ok_iff (m := n) (h.at?_eq_some_iff.1 hat).1
    simp only [Option.map_some, hread, Option.some.injEq]
    constructor
    · rintro ⟨rfl, hm⟩
      exact ⟨rfl, hm⟩
    · rintro ⟨rfl, hm⟩
      exact ⟨rfl, hm⟩

/-- When every row can be read, a listing shows the notes that pass the test. -/
theorem select_eq (h : s.Holds ns) (hread : ∀ n ∈ ns, n.TimesWithin 0 9999) (test : Row → Bool) :
    s.select test =
      .ok ((ns.mergeSort fun a b => (Row.ofNote a).notAfter (Row.ofNote b)).filter
        fun n => test (.ofNote n)) := by
  have hordered : s.ordered =
      (ns.mergeSort fun a b => (Row.ofNote a).notAfter (Row.ofNote b)).map Row.ofNote := by
    rw [List.map_mergeSort (r := fun a b => (Row.ofNote a).notAfter (Row.ofNote b))
      fun _ _ _ _ => rfl, h.tables]
    rfl
  have hmapM : ∀ l : List Note, (∀ n ∈ l, n ∈ ns) → (l.map Row.ofNote).mapM s.readRow = .ok l := by
    intro l
    induction l with
    | nil => intro; rfl
    | cons n l ih =>
      intro hl
      have hn := hl n List.mem_cons_self
      rw [List.map_cons, List.mapM_cons, ih fun m hm => hl m (List.mem_cons_of_mem _ hm),
        (h.readRow_eq_ok_iff hn).2 ⟨rfl, hread n hn⟩]
      rfl
  rw [select, hordered, List.filter_map]
  refine hmapM _ fun n hn => ?_
  exact List.mem_mergeSort.1 (List.mem_filter.1 hn).1

end Holds

end Store

end Marginalia
