import Marginalia.Proofs.Path.Plain

set_option autoImplicit false

/-!
# Paths seen from a root

What is recorded of a path below a root are the steps that are left behind the parts of the
root, as they are shown, and these can be read back from the text.  So the text tells the
path below the root it was recorded of but for names that are shown alike, and if all names
are texts it leads back to the path when it is joined to the root.  This holds of every
root.  Only below the empty path something may be left that is no step: the slash or the
dot that the path itself starts with.
-/

namespace Marginalia.Path

open Marginalia.Text

variable {root p q : Path} {below below' : List Part}

/-! ## What is left below a root -/

theorem relativeTo_of_parts (h : p.parts = root.parts ++ below) :
    root.relativeTo p = joinParts below := by
  rw [relativeTo, below?, stripParts_eq_some_iff.2 h, Option.getD_some]

/-- Only an absolute path and the empty one have an empty piece in front. -/
theorem bytes_eq_nil_of_segments {pieces : List RawText} (hp : p.isAbsolute = false)
    (h : p.segments = [] :: pieces) : p.bytes = [] := by
  obtain ⟨bytes⟩ := p
  unfold segments at h
  cases bytes with
  | nil => rfl
  | cons b rest =>
    have hb : b ≠ slash := by
      rintro rfl
      simp [isAbsolute] at hp
    obtain ⟨first, more, hmore⟩ := List.exists_cons_of_ne_nil (splitOn_ne_nil slash rest)
    rw [splitOn_cons_of_ne hb hmore, List.cons.injEq] at h
    exact absurd h.1 (List.cons_ne_nil _ _)

/-- Only the empty path has no parts. -/
theorem parts_eq_nil_iff : p.parts = [] ↔ p.bytes = [] := by
  refine ⟨fun h => ?_, fun h => ?_⟩
  · rw [parts_eq, List.append_eq_nil_iff] at h
    obtain ⟨hlead, hinner⟩ := h
    obtain ⟨piece, pieces, hpieces⟩ := List.exists_cons_of_ne_nil (segments_ne_nil p)
    have hp : p.isAbsolute = false := by
      refine Bool.eq_false_iff.2 fun habsolute => ?_
      rw [lead, if_pos habsolute] at hlead
      cases hlead
    have hdot : piece ≠ [dot] := by
      rintro rfl
      rw [lead, hp, hpieces, List.head?_cons, if_neg Bool.false_ne_true, if_pos rfl] at hlead
      cases hlead
    -- a first piece that is neither empty nor a dot leaves a part
    have hempty : piece = [] := by
      rw [inner, hpieces, List.filterMap_eq_nil_iff] at hinner
      have hnone := hinner piece List.mem_cons_self
      by_contra hne
      unfold partOf? at hnone
      simp only [hne, hdot, decide_false, Bool.or_self, Bool.false_eq_true, if_false] at hnone
      split at hnone <;> cases hnone
    exact bytes_eq_nil_of_segments hp (hempty ▸ hpieces)
  · obtain ⟨bytes⟩ := p
    subst h
    rfl

/-- Below a root that is not the empty path there are steps only. -/
theorem isStep_of_parts (hroot : root.bytes ≠ []) (h : p.parts = root.parts ++ below) :
    ∀ part ∈ below, IsStep part := by
  obtain ⟨first, rest, hfirst⟩ := List.exists_cons_of_ne_nil (mt parts_eq_nil_iff.1 hroot)
  rw [hfirst, List.cons_append, parts_eq] at h
  -- what stands behind the first part is told by pieces
  have hinner : rest ++ below ⊆ p.inner := by
    rcases lead_cases p with hlead | hlead | hlead <;> rw [hlead] at h
    · rw [List.nil_append] at h
      exact h ▸ List.subset_cons_self _ _
    · exact (List.cons.inj h).2 ▸ List.Subset.refl _
    · exact (List.cons.inj h).2 ▸ List.Subset.refl _
  exact fun part hpart => isStep_of_mem_inner (hinner (List.mem_append_right _ hpart))

/-- The slash in front of an absolute path is written like a name before the others. -/
theorem parts_joinParts_root {ps : List Part} (h : ∀ part ∈ ps, IsStep part) :
    parts ⟨joinParts (.root :: ps)⟩ = .root :: ps.map Part.reread := by
  cases ps with
  | nil => decide
  | cons part rest =>
    have htext : joinParts (.root :: part :: rest) = "//" ++ joinParts (part :: rest) := by
      rw [joinParts_steps h, joinParts, List.filter_cons_of_pos rfl, filter_steps h, List.map_cons,
        List.map_cons, joinWith, String.intercalate_cons_cons]
      rfl
    have hbytes : Text.bytes (joinParts (.root :: part :: rest)) =
        [slash] ++ slash :: Text.bytes (joinParts (part :: rest)) := by
      rw [htext, bytes_append]
      rfl
    have habsolute :
        isAbsolute ⟨[slash] ++ slash :: Text.bytes (joinParts (part :: rest))⟩ = true :=
      rfl
    have hinner : inner ⟨[slash] ++ slash :: Text.bytes (joinParts (part :: rest))⟩ =
        (part :: rest).map Part.reread := by
      rw [inner, segments_append, List.filterMap_append, ← inner, ← inner, inner_joinParts h]
      rfl
    rw [hbytes, parts_eq, lead, if_pos habsolute, hinner]
    rfl

/-- The text of all parts of a path, as a path, has these parts as they are shown but for the
dot in front. -/
theorem parts_joinParts_parts (p : Path) :
    parts ⟨joinParts p.parts⟩ = (p.parts.filter (· != .here)).map Part.reread := by
  have hsteps : ∀ part ∈ p.inner, IsStep part := fun _ => isStep_of_mem_inner
  have hparts := parts_eq p
  rcases lead_cases p with hlead | hlead | hlead <;> rw [hlead] at hparts <;> rw [hparts]
  · rw [List.nil_append, parts_joinParts hsteps, filter_steps hsteps]
  · rw [← joinParts_filter]
    exact (filter_steps hsteps).symm ▸ parts_joinParts hsteps
  · rw [List.singleton_append, parts_joinParts_root hsteps, List.filter_cons_of_pos rfl,
      filter_steps hsteps]
    rfl

theorem parts_joinParts_below (h : p.parts = root.parts ++ below) :
    parts ⟨joinParts below⟩ = (below.filter (· != .here)).map Part.reread := by
  by_cases hroot : root.bytes = []
  · rw [parts_eq_nil_iff.2 hroot, List.nil_append] at h
    rw [← h, parts_joinParts_parts]
  · have hsteps := isStep_of_parts hroot h
    rw [parts_joinParts hsteps, filter_steps hsteps]

/-! ## Faithful texts -/

/-- Whether all that is recorded of a path seen from a root are texts. -/
def IsTextBelow (root p : Path) : Prop :=
  ∀ part ∈ (root.below? p).getD p.parts, part.isText = true

instance (root p : Path) : Decidable (IsTextBelow root p) :=
  inferInstanceAs (Decidable (∀ part ∈ (root.below? p).getD p.parts, part.isText = true))

theorem isTextBelow_iff (h : p.parts = root.parts ++ below) :
    IsTextBelow root p ↔ ∀ part ∈ below, part.isText = true := by
  rw [IsTextBelow, below?, stripParts_eq_some_iff.2 h, Option.getD_some]

/-- Parts are texts if and only if they are read again as they are. -/
theorem map_reread_eq_self_iff {ps : List Part} :
    ps.map Part.reread = ps ↔ ∀ part ∈ ps, part.isText = true := by
  induction ps with
  | nil => simp
  | cons part ps ih => rw [List.map_cons, List.cons.injEq, ih, Part.reread_eq_self_iff,
      List.forall_mem_cons]

/-- Names below a root that are texts are read again as they are. -/
theorem map_reread_of_isTextBelow {names : List RawText}
    (h : p.parts = root.parts ++ names.map .name) (htext : IsTextBelow root p) :
    names.map RawText.reread = names :=
  (List.map_congr_left fun _ hs => RawText.reread_eq_self_iff.2
    ((isTextBelow_iff h).1 htext _ (List.mem_map_of_mem hs))).trans (List.map_id _)

/-- A dot in front is a text. -/
theorem forall_isText_filter_iff {ps : List Part} :
    (∀ part ∈ ps.filter (· != .here), part.isText = true) ↔ ∀ part ∈ ps, part.isText = true := by
  refine ⟨fun h part hpart => ?_, fun h part hpart => h part (List.mem_filter.1 hpart).1⟩
  by_cases hhere : part = .here
  · exact hhere ▸ rfl
  · exact h part (List.mem_filter.2 ⟨hpart, bne_iff_ne.2 hhere⟩)

/-- Paths below a root are told apart by what is recorded of them if and only if they are
shown apart. -/
theorem relativeTo_eq_iff (hp : p.parts = root.parts ++ below)
    (hq : q.parts = root.parts ++ below') :
    root.relativeTo p = root.relativeTo q ↔
      (below.filter (· != .here)).map Part.reread =
        (below'.filter (· != .here)).map Part.reread := by
  rw [relativeTo_of_parts hp, relativeTo_of_parts hq]
  constructor
  · intro heq
    rw [← parts_joinParts_below hp, heq, parts_joinParts_below hq]
  · intro heq
    rw [← joinParts_filter below, ← joinParts_reread, heq, joinParts_reread, joinParts_filter]

/-- What is recorded of a path below a root leads to the path that is shown for it. -/
theorem parts_join_relativeTo (h : p.parts = root.parts ++ below) :
    (root.join ⟨root.relativeTo p⟩).parts =
      root.parts ++ (below.filter (· != .here)).map Part.reread := by
  rw [relativeTo_of_parts h]
  by_cases hroot : root.bytes = []
  · have hjoin : root.join ⟨joinParts below⟩ = ⟨joinParts below⟩ := by
      simp [join, hroot]
    rw [hjoin, parts_joinParts_below h, parts_eq_nil_iff.2 hroot, List.nil_append]
  · have hsteps := isStep_of_parts hroot h
    rw [parts_join hroot (isAbsolute_joinParts hsteps), inner_joinParts hsteps, filter_steps hsteps]

/-- The path that is led back to has the same parts as the one that the text was recorded
of, dots aside, if and only if all that is recorded are texts. -/
theorem filter_parts_join_relativeTo_iff (h : p.parts = root.parts ++ below) :
    (root.join ⟨root.relativeTo p⟩).parts.filter (· != .here) = p.parts.filter (· != .here) ↔
      IsTextBelow root p := by
  have hfilter : ((below.filter (· != .here)).map Part.reread).filter (· != .here) =
      (below.filter (· != .here)).map Part.reread := by
    refine List.filter_eq_self.2 fun part hpart => ?_
    obtain ⟨step, hstep, rfl⟩ := List.mem_map.1 hpart
    rw [Part.reread_ne_here_iff]
    exact (List.mem_filter.1 hstep).2
  rw [parts_join_relativeTo h, h, List.filter_append, List.filter_append, hfilter,
    List.append_right_inj, map_reread_eq_self_iff, forall_isText_filter_iff, isTextBelow_iff h]

/-- A path that was led back to is recorded as before. -/
theorem relativeTo_join_relativeTo (h : p.parts = root.parts ++ below) :
    root.relativeTo (root.join ⟨root.relativeTo p⟩) = root.relativeTo p := by
  rw [relativeTo_of_parts (parts_join_relativeTo h), joinParts_reread, joinParts_filter,
    relativeTo_of_parts h]

end Marginalia.Path
