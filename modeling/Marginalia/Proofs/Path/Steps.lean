import Marginalia.Proofs.Path.Parts
import Marginalia.Proofs.Text.Utf8

set_option autoImplicit false

/-!
# The text of some parts

Behind its first part a path has steps only: names and double dots.  The text of some steps,
with slashes between them, is a relative path that has these steps as its parts and no
others, but that a name that is no text is read as it is shown.  So no two lists of steps
have the same text unless they are shown alike.
-/

namespace Marginalia.Path

open Marginalia.Text

variable {part : Part} {ps : List Part}

/-! ## What is shown of a name -/

/-- A name is shown as a name. -/
theorem IsName.reread {s : RawText} (h : IsName s) : IsName s.reread := by
  obtain ⟨hempty, hdot, hdots, hslash⟩ := h
  refine ⟨?_, ?_, ?_, mt (RawText.mem_reread_iff (by decide)).1 hslash⟩
  · exact mt (RawText.reread_eq_bytes_iff (s := "") (by decide)).1 hempty
  · exact mt (RawText.reread_eq_bytes_iff (s := ".") (by decide)).1 hdot
  · exact mt (RawText.reread_eq_bytes_iff (s := "..") (by decide)).1 hdots

/-- What a part becomes when the text that is shown for it is kept in its place. -/
def Part.reread : Part → Part
  | .name s => .name s.reread
  | part => part

/-- Whether a part is a text. -/
def Part.isText : Part → Bool
  | .name s => s.isText
  | _ => true

namespace Part

theorem bytes_reread (part : Part) : part.reread.bytes = Text.bytes part.text := by
  cases part with
  | name s => rfl
  | _ => decide

@[simp] theorem text_reread (part : Part) : part.reread.text = part.text := by
  rw [text, bytes_reread, RawText.shown_bytes]

theorem reread_eq_self_iff : part.reread = part ↔ part.isText = true := by
  cases part with
  | name s => simp [reread, isText, RawText.reread_eq_self_iff]
  | _ => exact iff_of_true rfl rfl

theorem reread_ne_here_iff : (part.reread != .here) = (part != .here) := by
  cases part <;> rfl

end Part

/-! ## Steps -/

/-- Whether a part may stand behind others: two dots, or the name of an entry. -/
def IsStep (part : Part) : Prop := part = .up ∨ ∃ s, part = .name s ∧ IsName s

theorem isStep_name {s : RawText} (h : IsName s) : IsStep (.name s) := .inr ⟨s, rfl, h⟩

theorem isStep_of_mem_inner {p : Path} (h : part ∈ p.inner) : IsStep part := mem_inner h

namespace IsStep

theorem ne_here (h : IsStep part) : part ≠ .here := by
  rcases h with rfl | ⟨s, rfl, -⟩ <;> nofun

/-- A step is written as the piece between slashes that stands for it. -/
theorem partOf?_bytes (h : IsStep part) : partOf? part.bytes = some part := by
  rcases h with rfl | ⟨s, rfl, hs⟩
  · rfl
  · exact partOf?_of_isName hs

theorem bytes_ne (h : IsStep part) : part.bytes ≠ [] ∧ part.bytes ≠ [dot] := by
  rcases h with rfl | ⟨s, rfl, hs⟩
  · decide
  · exact ⟨hs.1, hs.2.1⟩

theorem slash_notMem_bytes (h : IsStep part) : slash ∉ part.bytes := by
  rcases h with rfl | ⟨s, rfl, hs⟩
  · decide
  · exact hs.2.2.2

/-- What is shown of a step is a step. -/
theorem reread (h : IsStep part) : IsStep part.reread := by
  rcases h with rfl | ⟨s, rfl, hs⟩
  · exact .inl rfl
  · exact isStep_name hs.reread

end IsStep

/-! ## Their text -/

theorem filter_steps (h : ∀ part ∈ ps, IsStep part) : ps.filter (· != .here) = ps :=
  List.filter_eq_self.2 fun part hpart => bne_iff_ne.2 (h part hpart).ne_here

/-- Dots are left out of a text, so they need not be there. -/
theorem joinParts_filter (ps : List Part) : joinParts (ps.filter (· != .here)) = joinParts ps := by
  simp only [joinParts, List.filter_filter, Bool.and_self]

theorem joinParts_steps (h : ∀ part ∈ ps, IsStep part) :
    joinParts ps = joinWith "/" (ps.map Part.text) := by
  rw [joinParts, filter_steps h]

/-- What is shown of parts is shown of what is read again. -/
theorem joinParts_reread (ps : List Part) : joinParts (ps.map Part.reread) = joinParts ps := by
  have hfilter : (ps.map Part.reread).filter (· != .here) =
      (ps.filter (· != .here)).map Part.reread := by
    rw [List.filter_map]
    exact congrArg _ (List.filter_congr fun part _ => Part.reread_ne_here_iff)
  rw [joinParts, hfilter, List.map_map, joinParts]
  exact congrArg _ (List.map_congr_left fun part _ => Part.text_reread part)

/-- The pieces of the text of some steps are the steps as they are shown. -/
theorem segments_joinParts (hne : ps ≠ []) (h : ∀ part ∈ ps, IsStep part) :
    segments ⟨joinParts ps⟩ = (ps.map Part.reread).map Part.bytes := by
  have hbytes : (ps.map Part.text).map Text.bytes = (ps.map Part.reread).map Part.bytes := by
    rw [List.map_map, List.map_map]
    exact List.map_congr_left fun part _ => (Part.bytes_reread part).symm
  have hslash : ∀ s ∈ (ps.map Part.reread).map Part.bytes, slash ∉ s := fun s hs => by
    rw [List.map_map] at hs
    obtain ⟨part, hpart, rfl⟩ := List.mem_map.1 hs
    exact (h part hpart).reread.slash_notMem_bytes
  rw [joinParts_steps h, segments, bytes_joinWith, hbytes]
  exact splitOn_intercalate (by simpa using hne) hslash

/-- The text of some steps as a path has these steps, as they are shown, as its inner
parts. -/
theorem inner_joinParts (h : ∀ part ∈ ps, IsStep part) :
    inner ⟨joinParts ps⟩ = ps.map Part.reread := by
  by_cases hne : ps = []
  · subst hne
    rfl
  · have hsteps : ∀ part ∈ ps.map Part.reread, partOf? part.bytes = some part :=
        fun part hpart => by
      obtain ⟨step, hstep, rfl⟩ := List.mem_map.1 hpart
      exact (h step hstep).reread.partOf?_bytes
    rw [inner, segments_joinParts hne h, List.filterMap_map]
    exact (List.filterMap_congr hsteps).trans List.filterMap_some

theorem isAbsolute_joinParts (h : ∀ part ∈ ps, IsStep part) :
    isAbsolute ⟨joinParts ps⟩ = false := by
  cases ps with
  | nil => rfl
  | cons part rest =>
    refine Bool.eq_false_iff.2 fun habsolute => (h part List.mem_cons_self).reread.bytes_ne.1 ?_
    obtain ⟨pieces, hpieces⟩ := exists_segments_of_isAbsolute habsolute
    rw [segments_joinParts (List.cons_ne_nil _ _) h, List.map_cons, List.map_cons,
      List.cons.injEq] at hpieces
    exact hpieces.1

/-- The text of some steps as a path has these steps, as they are shown, as its parts. -/
theorem parts_joinParts (h : ∀ part ∈ ps, IsStep part) :
    parts ⟨joinParts ps⟩ = ps.map Part.reread := by
  have hhead : (segments ⟨joinParts ps⟩).head? ≠ some [dot] := by
    cases ps with
    | nil => decide
    | cons part rest =>
      rw [segments_joinParts (List.cons_ne_nil _ _) h, List.map_cons, List.map_cons,
        List.head?_cons]
      exact fun hdot => (h part List.mem_cons_self).reread.bytes_ne.2 (Option.some.inj hdot)
  rw [parts_eq, lead, isAbsolute_joinParts h, if_neg Bool.false_ne_true, if_neg hhead,
    inner_joinParts h, List.nil_append]

/-! ## Names -/

section Names

variable {names : List RawText}

theorem isStep_of_mem_names (h : ∀ s ∈ names, IsName s) :
    ∀ part ∈ names.map Part.name, IsStep part :=
  fun part hpart => by
    obtain ⟨s, hs, rfl⟩ := List.mem_map.1 hpart
    exact isStep_name (h s hs)

theorem filter_names (names : List RawText) :
    (names.map Part.name).filter (· != .here) = names.map .name :=
  List.filter_eq_self.2 fun part hpart => by
    obtain ⟨s, -, rfl⟩ := List.mem_map.1 hpart
    rfl

theorem texts_names (names : List RawText) :
    (names.map Part.name).map Part.text = names.map RawText.shown := List.map_map

theorem joinParts_names (names : List RawText) :
    joinParts (names.map .name) = joinWith "/" (names.map RawText.shown) := by
  rw [joinParts, filter_names, texts_names]

/-- Names are recorded as the path that they are is shown. -/
theorem joinParts_names_eq_text (names : List RawText) :
    joinParts (names.map .name) = (ofNames names).text :=
  (joinParts_names names).trans (RawText.shown_intercalate (a := slash) (by decide) names).symm

/-- What is shown of names is written as the names that are shown. -/
theorem mk_text_ofNames (names : List RawText) :
    (⟨(ofNames names).text⟩ : Path) = ofNames (names.map RawText.reread) := by
  rw [← joinParts_names_eq_text, joinParts_names, bytes_joinWith, List.map_map]
  rfl

/-- The root is written like a name before the others, slashes between all. -/
theorem joinParts_root_names (names : List RawText) :
    joinParts (.root :: names.map .name) = joinWith "/" ("/" :: names.map RawText.shown) := by
  rw [joinParts, List.filter_cons_of_pos rfl, List.map_cons, filter_names, texts_names]
  rfl

/-- The pieces of a path that is a list of names. -/
theorem segments_ofNames (hne : names ≠ []) (h : ∀ s ∈ names, IsName s) :
    (ofNames names).segments = names :=
  splitOn_intercalate hne fun s hs => (h s hs).2.2.2

/-- Names with slashes between them are a relative path. -/
theorem isAbsolute_ofNames (h : ∀ s ∈ names, IsName s) : (ofNames names).isAbsolute = false := by
  cases names with
  | nil => rfl
  | cons s rest =>
    refine Bool.eq_false_iff.2 fun habsolute => (h s List.mem_cons_self).1 ?_
    obtain ⟨pieces, hpieces⟩ := exists_segments_of_isAbsolute habsolute
    rw [segments_ofNames (List.cons_ne_nil _ _) h, List.cons.injEq] at hpieces
    exact hpieces.1

end Names

end Marginalia.Path
