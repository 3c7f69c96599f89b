import Marginalia.Proofs.Store.Table
import Mathlib.Data.List.Find

set_option autoImplicit false

/-!
# Changes of the held notes

What each operation makes of the notes that a store holds, and when it fails.  A
note that is created or changed is held with times in whole microseconds.
-/

namespace Marginalia.Store

open Marginalia.Time (Instant)

/-! ## Tests on rows -/

theorem any_ofNotes (ns : List Note) (test : Row → Bool) :
    (ofNotes ns).notes.any test = ns.any fun n => test (.ofNote n) := by
  simp only [ofNotes, List.any_map, Function.comp_def]

theorem any_id_eq (ns : List Note) (id : NoteId) :
    (ofNotes ns).notes.any (·.id == id.toText) = decide (id ∈ ns.map (·.id)) := by
  rw [any_ofNotes, Bool.eq_iff_iff, List.any_eq_true, decide_eq_true_iff, List.mem_map]
  simp only [Row.ofNote, beq_iff_eq, NoteId.toText_inj]

theorem any_noteId_eq (ns : List Note) (id : NoteId) :
    (ofNotes ns).texts.any (·.noteId == id.toText) = decide (id ∈ ns.map (·.id)) := by
  rw [Bool.eq_iff_iff, List.any_eq_true, decide_eq_true_iff, List.mem_map]
  simp only [ofNotes, List.mem_map, beq_iff_eq, exists_exists_and_eq_and, NoteId.toText_inj]

theorem any_isAt_eq (ns : List Note) (filepath : String) (line : UInt32) :
    (ofNotes ns).notes.any (·.isAt filepath (.ofLine line)) =
      decide ((filepath, line) ∈ ns.map Note.place) := by
  rw [any_ofNotes, Bool.eq_iff_iff, List.any_eq_true, decide_eq_true_iff, List.mem_map]
  simp only [Row.isAt_ofNote, beq_iff_eq]

/-- The notes other than the one that is changed. -/
theorem any_others_isAt_eq (ns : List Note) (id : NoteId) (d : Draft) :
    ((ofNotes ns).notes.any fun r => r.id != id.toText && r.isAt d.filepath (.ofLine d.line)) =
      decide (∃ m ∈ ns, m.id ≠ id ∧ m.place = d.place) := by
  rw [any_ofNotes, Bool.eq_iff_iff, List.any_eq_true, decide_eq_true_iff]
  simp only [Row.isAt_ofNote, Bool.and_eq_true, bne_iff_ne, beq_iff_eq,
    show ∀ m : Note, (Row.ofNote m).id = m.id.toText from fun _ => rfl, ne_eq, NoteId.toText_inj]
  rfl

/-! ## Changed rows -/

/-- The held notes after the one with an identifier is changed. -/
def revised (ns : List Note) (id : NoteId) (d : Draft) (updatedAt : Instant) : List Note :=
  ns.map fun m => if m.id = id then m.revise d updatedAt else m

/-- Changing a row and its text changes the note that they describe. -/
theorem ofNotes_revised (ns : List Note) (id : NoteId) (d : Draft) (t : Instant) :
    (⟨(ofNotes ns).notes.map fun r => if r.id == id.toText then r.revise d t else r,
      (ofNotes ns).texts.map fun r => if r.noteId == id.toText then ⟨id.toText, d.text⟩ else r⟩ :
        Store) = ofNotes (revised ns id d t.cutToMicros) := by
  simp only [ofNotes, revised, List.map_map, Store.mk.injEq]
  refine ⟨List.map_congr_left fun m _ => ?_, List.map_congr_left fun m _ => ?_⟩
  · by_cases hid : m.id = id
    · simp only [Function.comp_apply, hid, if_true, ← Row.revise_ofNote]
      rw [if_pos (by simp [Row.ofNote, hid])]
    · simp only [Function.comp_apply, hid, if_false]
      rw [if_neg (by simp [Row.ofNote, hid])]
  · by_cases hid : m.id = id
    · simp [hid, Note.revise]
    · simp [hid]

/-- Taking out the rows and texts of some notes takes out the notes. -/
theorem ofNotes_filter {ns : List Note} {p : Note → Bool} {test : Row → Bool}
    {testText : TextRow → Bool} (htest : ∀ n ∈ ns, test (.ofNote n) = p n)
    (htext : ∀ n ∈ ns, testText ⟨n.id.toText, n.text⟩ = p n) :
    (⟨(ofNotes ns).notes.filter test, (ofNotes ns).texts.filter testText⟩ : Store) =
      ofNotes (ns.filter p) := by
  simp only [ofNotes, List.filter_map, Store.mk.injEq]
  exact ⟨congrArg _ (List.filter_congr htest), congrArg _ (List.filter_congr htext)⟩

namespace Holds

variable {s : Store} {ns : List Note}

/-! ## Notes told apart -/

/-- Two held notes with one identifier are the same. -/
theorem eq_of_id (h : s.Holds ns) {n m : Note} (hn : n ∈ ns) (hm : m ∈ ns) (hid : n.id = m.id) :
    n = m :=
  List.inj_on_of_nodup_map h.ids hn hm hid

/-- Two held notes at one place are the same. -/
theorem eq_of_place (h : s.Holds ns) {n m : Note} (hn : n ∈ ns) (hm : m ∈ ns)
    (hplace : n.place = m.place) : n = m :=
  List.inj_on_of_nodup_map h.places hn hm hplace

theorem empty : Store.empty.Holds [] :=
  ⟨rfl, List.nodup_nil, List.nodup_nil, fun _ hn => absurd hn List.not_mem_nil⟩

/-! ## Creating -/

theorem create_eq (h : s.Holds ns) (n : Note) :
    s.create n =
      if n.place ∈ ns.map Note.place then .error (.alreadyExists n.filepath n.line)
      else if n.id ∈ ns.map (·.id) then .error (.backend (.unique .noteId))
      else .ok (ofNotes (ns ++ [n.cutTimes])) := by
  have hat : (ofNotes ns).notes.any (·.isAt (Row.ofNote n).filepath (Row.ofNote n).line) =
      decide (n.place ∈ ns.map Note.place) := any_isAt_eq ns n.filepath n.line
  have hid : (ofNotes ns).notes.any (·.id == (Row.ofNote n).id) =
      decide (n.id ∈ ns.map (·.id)) := any_id_eq ns n.id
  have htext : (ofNotes ns).texts.any (·.noteId == (Row.ofNote n).id) =
      decide (n.id ∈ ns.map (·.id)) := any_noteId_eq ns n.id
  rw [h.tables]
  simp only [create, hat, hid, htext, decide_eq_true_eq]
  split
  · rfl
  · split
    · rfl
    · simp only [ofNotes, List.map_append, List.map_cons, List.map_nil, Row.ofNote_cutTimes]
      rfl

theorem append (h : s.Holds ns) {n : Note} (hc : n.createdAt.IsProper) (hu : n.updatedAt.IsProper)
    (hplace : n.place ∉ ns.map Note.place) (hid : n.id ∉ ns.map (·.id)) :
    (ofNotes (ns ++ [n.cutTimes])).Holds (ns ++ [n.cutTimes]) := by
  refine ⟨rfl, ?_, ?_, ?_⟩
  · rw [List.map_append]
    exact h.ids.append (List.nodup_singleton _) (by simpa using hid)
  · rw [List.map_append]
    exact h.places.append (List.nodup_singleton _) (by simpa using hplace)
  · intro m hm
    rcases List.mem_append.1 hm with hm | hm
    · exact h.kept m hm
    · rw [List.mem_singleton.1 hm]
      exact Note.isKept_cutTimes hc hu

/-! ## Updating -/

/-- An update changes the note at its place, unless another note is where the
draft is for. -/
theorem update_eq (h : s.Holds ns) {filepath : String} {line : UInt32} {n : Note}
    (hat : Note.at? ns (filepath, line) = some n) (hread : n.TimesWithin 0 9999) (d : Draft)
    (now : Instant) :
    s.update filepath line d now =
      if ∃ m ∈ ns, m.id ≠ n.id ∧ m.place = d.place then
        .error (.alreadyExists d.filepath d.line)
      else .ok (ofNotes (revised ns n.id d (now.latest n.updatedAt.nextMicro).cutToMicros)) := by
  have hn : n ∈ ns := (h.at?_eq_some_iff.1 hat).1
  have hget : s.get filepath line = .ok n := h.get_eq_ok_iff.2 ⟨hat, hread⟩
  have hmem : n.id ∈ ns.map (·.id) := List.mem_map.2 ⟨n, hn, rfl⟩
  have hput : (ofNotes ns).putText n.id.toText d.text =
      .ok ((ofNotes ns).texts.map fun r =>
        if r.noteId == n.id.toText then ⟨n.id.toText, d.text⟩ else r) := by
    rw [putText, any_noteId_eq, decide_eq_true hmem]
    rfl
  rw [h.tables] at hget ⊢
  rw [update, hget]
  simp only [bind, Except.bind, any_others_isAt_eq, any_id_eq, decide_eq_true hmem, Bool.and_true,
    decide_eq_true_eq, hput]
  split
  · rfl
  · exact congrArg Except.ok (ofNotes_revised ns n.id d _)

/-- Only a note that can be read is updated. -/
theorem readable_of_update (h : s.Holds ns) {filepath : String} {line : UInt32} {d : Draft}
    {now : Instant} {s' : Store} (hupdate : s.update filepath line d now = .ok s') :
    ∃ n, Note.at? ns (filepath, line) = some n ∧ n.TimesWithin 0 9999 := by
  cases hget : s.get filepath line with
  | error e =>
    rw [update, hget] at hupdate
    cases hupdate
  | ok n => exact ⟨n, h.get_eq_ok_iff.1 hget⟩

theorem revise (h : s.Holds ns) {id : NoteId} {d : Draft} {t : Instant} (ht : t.IsKept)
    (hfree : ¬∃ m ∈ ns, m.id ≠ id ∧ m.place = d.place) :
    (ofNotes (revised ns id d t)).Holds (revised ns id d t) := by
  refine ⟨rfl, ?_, ?_, ?_⟩
  · have hids : (revised ns id d t).map (·.id) = ns.map (·.id) := by
      rw [revised, List.map_map]
      refine List.map_congr_left fun m _ => ?_
      simp only [Function.comp_apply]
      split <;> rfl
    rw [hids]
    exact h.ids
  · rw [revised, List.map_map]
    refine List.Nodup.map_on ?_ h.ids.of_map
    intro a ha b hb hab
    refine h.eq_of_id ha hb ?_
    by_cases hna : a.id = id
    · by_cases hnb : b.id = id
      · exact hna.trans hnb.symm
      · simp only [Function.comp_apply, if_pos hna, if_neg hnb, Note.place_revise] at hab
        exact absurd ⟨b, hb, hnb, hab.symm⟩ hfree
    · by_cases hnb : b.id = id
      · simp only [Function.comp_apply, if_neg hna, if_pos hnb, Note.place_revise] at hab
        exact absurd ⟨a, ha, hna, hab⟩ hfree
      · simp only [Function.comp_apply, if_neg hna, if_neg hnb] at hab
        rw [h.eq_of_place ha hb hab]
  · intro m hm
    obtain ⟨a, ha, rfl⟩ := List.mem_map.1 hm
    split
    · exact ⟨(h.kept a ha).1, ht⟩
    · exact h.kept a ha

/-! ## Deleting -/

theorem filter (h : s.Holds ns) (p : Note → Bool) : (ofNotes (ns.filter p)).Holds (ns.filter p) :=
  ⟨rfl, Keyed.nodup_filter h.ids p, Keyed.nodup_filter h.places p,
    fun n hn => h.kept n (List.mem_filter.1 hn).1⟩

/-- A deletion takes the note at its place out, if there is one. -/
theorem delete_eq (h : s.Holds ns) (filepath : String) (line : UInt32) :
    s.delete filepath line = ofNotes (ns.filter fun n => n.place != (filepath, line)) := by
  rw [delete, h.rowAt?_eq]
  cases hat : Note.at? ns (filepath, line) with
  | none =>
    have hall : (ns.filter fun n => n.place != (filepath, line)) = ns := by
      rw [List.filter_eq_self]
      intro n hn
      have hplace : n.place ≠ (filepath, line) :=
        fun heq => at?_eq_none_iff.1 hat (List.mem_map.2 ⟨n, hn, heq⟩)
      exact bne_iff_ne.2 hplace
    rw [hall]
    exact h.tables
  | some m =>
    obtain ⟨hm, hplace⟩ := h.at?_eq_some_iff.1 hat
    have hsame : ∀ n ∈ ns, (n.id.toText != m.id.toText) = (n.place != (filepath, line)) := by
      intro n hn
      rw [Bool.eq_iff_iff, bne_iff_ne, bne_iff_ne, ne_eq, NoteId.toText_inj, ← hplace]
      exact not_congr ⟨fun hid => congrArg _ (h.eq_of_id hn hm hid),
        fun hpl => congrArg _ (h.eq_of_place hn hm hpl)⟩
    rw [h.tables]
    exact ofNotes_filter hsame hsame

/-- The notes of a file are taken out together. -/
theorem deleteFile_eq (h : s.Holds ns) (filepath : String) :
    s.deleteFile filepath = ofNotes (ns.filter fun n => n.filepath != filepath) := by
  rw [h.tables]
  refine ofNotes_filter (fun n _ => rfl) fun n hn => ?_
  have hgone : ((ofNotes ns).notes.any fun r => r.filepath == filepath && r.id == n.id.toText) =
      (n.filepath == filepath) := by
    rw [any_ofNotes, Bool.eq_iff_iff, List.any_eq_true]
    simp only [Row.ofNote, Bool.and_eq_true, beq_iff_eq, NoteId.toText_inj]
    constructor
    · rintro ⟨m, hm, hfile, hid⟩
      rw [← h.eq_of_id hm hn hid]
      exact hfile
    · intro hfile
      exact ⟨n, hn, hfile, rfl⟩
  simp only [hgone]
  rfl

/-! ## Place by place -/

/-- A new note is found at its place; elsewhere nothing changes. -/
theorem at?_append {n : Note} (hplace : n.place ∉ ns.map Note.place) (q : Location) :
    Note.at? (ns ++ [n]) q = if q = n.place then some n else Note.at? ns q := by
  rw [Note.at?, List.find?_append]
  by_cases hq : q = n.place
  · have hnone : Note.at? ns n.place = none := at?_eq_none_iff.2 hplace
    unfold Note.at? at hnone
    simp [hq, hnone]
  · have hnone : [n].find? (fun m => m.place == q) = none := by
      simpa using Ne.symm hq
    rw [if_neg hq, hnone, Option.or_none]
    rfl

/-- A note that is changed without being moved is found changed; elsewhere nothing
changes. -/
theorem at?_revised (h : s.Holds ns) {n : Note} (hn : n ∈ ns) {d : Draft} {t : Instant}
    (hd : d.place = n.place) (q : Location) :
    Note.at? (revised ns n.id d t) q =
      if q = n.place then some (n.revise d t) else Note.at? ns q := by
  have htest : ∀ m ∈ ns, (m.place == q) =
      ((if m.id = n.id then m.revise d t else m).place == q) := by
    intro m hm
    by_cases hid : m.id = n.id
    · rw [if_pos hid, Note.place_revise, hd, h.eq_of_id hm hn hid]
    · rw [if_neg hid]
  rw [Note.at?, revised, List.find?_map]
  have hfind : ns.find? ((fun m : Note => m.place == q) ∘
      fun m => if m.id = n.id then m.revise d t else m) = Note.at? ns q :=
    List.find?_congr fun m hm => (htest m hm).symm
  rw [hfind]
  by_cases hq : q = n.place
  · rw [if_pos hq, h.at?_eq_some_iff.2 ⟨hn, hq.symm⟩]
    simp
  · rw [if_neg hq]
    cases hat : Note.at? ns q with
    | none => rfl
    | some m =>
      obtain ⟨hm, hplace⟩ := h.at?_eq_some_iff.1 hat
      have hid : m.id ≠ n.id := by
        intro hid
        rw [h.eq_of_id hm hn hid] at hplace
        exact hq hplace.symm
      rw [Option.map_some, if_neg hid]

/-- Where notes are kept by their places, the notes at the places that are kept are
found as before, and no others. -/
theorem at?_filter (ns : List Note) (keep : Location → Bool) (q : Location) :
    Note.at? (ns.filter fun n => keep n.place) q = if keep q then Note.at? ns q else none := by
  rw [Note.at?, List.find?_filter]
  split
  · rename_i hq
    refine List.find?_congr fun n _ => ?_
    rw [Bool.eq_iff_iff]
    simp only [decide_eq_true_eq, beq_iff_eq]
    exact ⟨fun hn => hn.2, fun hn => ⟨hn ▸ hq, hn⟩⟩
  · rename_i hq
    rw [List.find?_eq_none]
    rintro n - hn
    obtain ⟨hkeep, hplace⟩ : keep n.place = true ∧ n.place = q := by simpa using hn
    exact hq (hplace ▸ hkeep)

/-- A place is empty after a deletion there; elsewhere nothing changes. -/
theorem at?_filter_place (ns : List Note) (p q : Location) :
    Note.at? (ns.filter fun n => n.place != p) q = if q = p then none else Note.at? ns q := by
  rw [at?_filter ns (· != p)]
  simp only [bne_iff_ne, ne_eq, ite_not]

/-! ## Changes at one place -/

/-- Where no note is, one is added under an identifier that is nobody's. -/
theorem create_at (h : s.Holds ns) {n : Note} (hc : n.createdAt.IsProper)
    (hu : n.updatedAt.IsProper) (hfree : Note.at? ns n.place = none)
    (hid : n.id ∉ ns.map (·.id)) :
    s.create n = .ok (ofNotes (ns ++ [n.cutTimes])) ∧
      (ofNotes (ns ++ [n.cutTimes])).Holds (ns ++ [n.cutTimes]) ∧
      ∀ q, Note.at? (ns ++ [n.cutTimes]) q =
        if q = n.place then some n.cutTimes else Note.at? ns q := by
  have hplace := at?_eq_none_iff.1 hfree
  refine ⟨?_, h.append hc hu hplace hid, at?_append (by simpa using hplace)⟩
  rw [h.create_eq, if_neg hplace, if_neg hid]

/-- A note that can be read is written over by a draft for its own place. -/
theorem update_at (h : s.Holds ns) {filepath : String} {line : UInt32} {n : Note}
    (hat : Note.at? ns (filepath, line) = some n) (hread : n.TimesWithin 0 9999) {d : Draft}
    (hplace : d.place = (filepath, line)) {now t : Instant} (hnow : now.IsProper)
    (ht : (now.latest n.updatedAt.nextMicro).cutToMicros = t) :
    s.update filepath line d now = .ok (ofNotes (revised ns n.id d t)) ∧
      (ofNotes (revised ns n.id d t)).Holds (revised ns n.id d t) ∧
      ∀ q, Note.at? (revised ns n.id d t) q =
        if q = (filepath, line) then some (n.revise d t) else Note.at? ns q := by
  subst ht
  obtain ⟨hn, hnplace⟩ := h.at?_eq_some_iff.1 hat
  have hfree : ¬∃ m ∈ ns, m.id ≠ n.id ∧ m.place = d.place := by
    rintro ⟨m, hm, hid, hmplace⟩
    exact hid (congrArg _ (h.eq_of_place hm hn (hmplace.trans (hplace.trans hnplace.symm))))
  have hkept := (hnow.latest (h.kept n hn).2.1.nextMicro).isKept_cutToMicros
  refine ⟨?_, h.revise hkept hfree, fun q => ?_⟩
  · rw [h.update_eq hat hread, if_neg hfree]
  · rw [h.at?_revised hn (hplace.trans hnplace.symm), hnplace]

end Holds

end Marginalia.Store
