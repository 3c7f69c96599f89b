import Marginalia.Path
import Marginalia.Proofs.Text.Split

set_option autoImplicit false

/-!
# Parts of joined paths

A path is joined to another by writing one after the other, and its parts come
after the parts of the other: whatever slashes meet where the two are joined.  So
a path written from parts has these parts.
-/

namespace Marginalia.Path

open Marginalia.Text

/-! ## Names -/

/-- Whether bytes can be the name of an entry of a directory. -/
def IsName (s : RawText) : Prop := s ≠ [] ∧ s ≠ [dot] ∧ s ≠ [dot, dot] ∧ slash ∉ s

instance (s : RawText) : Decidable (IsName s) := inferInstanceAs (Decidable (_ ∧ _ ∧ _ ∧ _))

theorem partOf?_of_isName {s : RawText} (h : IsName s) : partOf? s = some (.name s) := by
  obtain ⟨hempty, hdot, hdots, -⟩ := h
  simp only [partOf?, hempty, hdot, hdots, decide_false, Bool.or_self, Bool.false_eq_true,
    if_false]

theorem segments_of_isName {s : RawText} (h : IsName s) : segments ⟨s⟩ = [s] :=
  splitOn_eq_singleton h.2.2.2

/-- A piece between slashes stands for two dots or for a name. -/
theorem eq_up_or_isName {segment : RawText} {part : Part} (hslash : slash ∉ segment)
    (h : partOf? segment = some part) : part = .up ∨ (part = .name segment ∧ IsName segment) := by
  unfold partOf? at h
  split at h
  · cases h
  · rename_i hplain
    simp only [Bool.or_eq_true, decide_eq_true_eq, not_or] at hplain
    split at h
    · cases h
      exact .inl rfl
    · rename_i hdots
      cases h
      exact .inr ⟨rfl, hplain.1, hplain.2, hdots, hslash⟩

/-- An absolute path has an empty piece in front. -/
theorem exists_segments_of_isAbsolute {p : Path} (h : p.isAbsolute = true) :
    ∃ pieces, p.segments = [] :: pieces := by
  obtain ⟨bytes⟩ := p
  obtain ⟨rest, hrest⟩ := List.head?_eq_some_iff.1 (of_decide_eq_true h)
  exact ⟨_, by rw [segments, hrest, splitOn_cons_self]⟩

/-! ## Inner parts -/

/-- The part in front of a path that is told by how the path starts. -/
def lead (p : Path) : List Part :=
  if p.isAbsolute then [.root] else if p.segments.head? = some [dot] then [.here] else []

/-- The parts of a path that are told by its pieces one by one. -/
def inner (p : Path) : List Part := p.segments.filterMap partOf?

theorem parts_eq (p : Path) : p.parts = p.lead ++ p.inner := by
  unfold parts lead
  split
  · rfl
  · split <;> rfl

theorem parts_of_isAbsolute {p : Path} (h : p.isAbsolute = true) :
    p.parts = .root :: p.inner := by
  rw [parts_eq, lead, if_pos h]
  rfl

theorem mem_inner {p : Path} {part : Part} (h : part ∈ p.inner) :
    part = .up ∨ ∃ s, part = .name s ∧ IsName s := by
  obtain ⟨segment, hsegment, hpart⟩ := List.mem_filterMap.1 h
  rcases eq_up_or_isName (not_mem_of_mem_splitOn hsegment) hpart with hup | ⟨hname, his⟩
  · exact .inl hup
  · exact .inr ⟨_, hname, his⟩

theorem lead_cases (p : Path) : p.lead = [] ∨ p.lead = [.here] ∨ p.lead = [.root] := by
  unfold lead
  split
  · exact .inr (.inr rfl)
  · split
    · exact .inr (.inl rfl)
    · exact .inl rfl

theorem lead_eq (p : Path) :
    p.lead = p.parts.filter fun part => part == .root || part == .here := by
  have hinner : p.inner.filter (fun part => part == .root || part == .here) = [] := by
    refine List.filter_eq_nil_iff.2 fun part hpart => ?_
    rcases mem_inner hpart with rfl | ⟨s, rfl, -⟩
    · decide
    · simp
  have hlead : p.lead.filter (fun part => part == .root || part == .here) = p.lead := by
    unfold lead
    split
    · rfl
    · split <;> rfl
  rw [parts_eq, List.filter_append, hinner, hlead, List.append_nil]

/-- Paths with the same parts have the same inner parts. -/
theorem inner_congr {p q : Path} (h : p.parts = q.parts) : p.inner = q.inner := by
  have hlead : p.lead = q.lead := by rw [lead_eq, lead_eq, h]
  rw [parts_eq, parts_eq, hlead] at h
  exact List.append_cancel_left h

theorem isAbsolute_iff_lead (p : Path) : p.isAbsolute = true ↔ p.lead = [.root] := by
  unfold lead
  split
  · simp [*]
  · split <;> simp [*]

/-- Paths with the same parts are both absolute or both relative. -/
theorem isAbsolute_congr {p q : Path} (h : p.parts = q.parts) : p.isAbsolute = q.isAbsolute := by
  rw [Bool.eq_iff_iff, isAbsolute_iff_lead, isAbsolute_iff_lead, lead_eq, lead_eq, h]

/-- An absolute path is one whose first part is the root. -/
theorem isAbsolute_iff_head? (p : Path) : p.isAbsolute = true ↔ p.parts.head? = some .root := by
  have hinner : p.inner.head? ≠ some .root := fun h => by
    rcases mem_inner (List.mem_of_head? h) with hup | ⟨s, hname, -⟩
    · cases hup
    · cases hname
  rw [isAbsolute_iff_lead, parts_eq]
  rcases lead_cases p with hlead | hlead | hlead <;> rw [hlead]
  · exact iff_of_false nofun hinner
  · exact iff_of_false nofun nofun
  · exact iff_of_true rfl rfl

theorem segments_ne_nil (p : Path) : p.segments ≠ [] := splitOn_ne_nil slash p.bytes

/-- The pieces of two paths with a slash between them. -/
theorem segments_append (s t : RawText) :
    segments ⟨s ++ slash :: t⟩ = segments ⟨s⟩ ++ segments ⟨t⟩ := splitOn_append_cons s t

/-! ## Joined paths -/

/-- Between the pieces of two joined paths there are none but empty ones. -/
theorem segments_join {base p : Path} (hbase : base.bytes ≠ []) (hp : p.isAbsolute = false) :
    ∃ front, front ≠ [] ∧ (base.join p).segments = front ++ p.segments ∧
      (base.segments = front ∨ base.segments = front ++ [[]]) := by
  obtain ⟨s⟩ := base
  by_cases hlast : s.getLast? = some slash
  · obtain ⟨t, rfl⟩ := List.getLast?_eq_some_iff.1 hlast
    have hjoin : join ⟨t ++ [slash]⟩ p = ⟨t ++ slash :: p.bytes⟩ := by
      simp only [join, hp, hlast, decide_true, Bool.or_true, Bool.false_eq_true, if_true, if_false,
        List.append_assoc, List.singleton_append]
    refine ⟨segments ⟨t⟩, segments_ne_nil _, ?_, .inr (segments_append t [])⟩
    rw [hjoin, segments_append]
  · have hjoin : join ⟨s⟩ p = ⟨s ++ slash :: p.bytes⟩ := by
      simp only [join, hp, hlast, show s ≠ [] from hbase, decide_false, Bool.or_self,
        Bool.false_eq_true, if_false]
    refine ⟨segments ⟨s⟩, segments_ne_nil _, ?_, .inl rfl⟩
    rw [hjoin, segments_append]

theorem isAbsolute_join {base p : Path} (hbase : base.bytes ≠ []) (hp : p.isAbsolute = false) :
    (base.join p).isAbsolute = base.isAbsolute := by
  obtain ⟨b, rest, hcons⟩ := List.exists_cons_of_ne_nil hbase
  unfold join
  simp only [hp, Bool.false_eq_true, if_false]
  split <;> simp only [isAbsolute, hcons, List.cons_append, List.head?_cons]

/-- A path that is joined to an absolute one is absolute. -/
theorem isAbsolute_join_of_isAbsolute {base : Path} (h : base.isAbsolute = true) (p : Path) :
    (base.join p).isAbsolute = true := by
  cases hp : p.isAbsolute with
  | true => rwa [join, if_pos hp]
  | false =>
    have hbase : base.bytes ≠ [] := by
      intro hempty
      simp [isAbsolute, hempty] at h
    rw [isAbsolute_join hbase hp, h]

/-- The parts of a path that is joined to another come after those of the other. -/
theorem parts_join {base p : Path} (hbase : base.bytes ≠ []) (hp : p.isAbsolute = false) :
    (base.join p).parts = base.parts ++ p.inner := by
  obtain ⟨front, hne, hjoin, hfront⟩ := segments_join hbase hp
  have hhead : (base.join p).segments.head? = base.segments.head? := by
    rw [hjoin, List.head?_append_of_ne_nil _ hne]
    rcases hfront with h | h
    · rw [h]
    · rw [h, List.head?_append_of_ne_nil _ hne]
  have hinner : (base.join p).inner = base.inner ++ p.inner := by
    rcases hfront with h | h
    · rw [inner, hjoin, List.filterMap_append, inner, h]
      rfl
    · rw [inner, hjoin, List.filterMap_append, inner, h, List.filterMap_append]
      simp [inner, partOf?]
  rw [parts_eq, parts_eq, hinner, lead, lead, hhead, isAbsolute_join hbase hp, List.append_assoc]

theorem isAbsolute_of_isName {s : RawText} (h : IsName s) : isAbsolute ⟨s⟩ = false := by
  have hne : s.head? ≠ some slash := fun hhead => h.2.2.2 (List.mem_of_mem_head? hhead)
  simp only [isAbsolute, hne, decide_false]

theorem inner_of_isName {s : RawText} (h : IsName s) : inner ⟨s⟩ = [.name s] := by
  rw [inner, segments_of_isName h, List.filterMap_cons_some (partOf?_of_isName h)]
  rfl

/-- A name is one more part. -/
theorem parts_child {base : Path} {s : RawText} (hbase : base.bytes ≠ []) (hs : IsName s) :
    (base.child s).parts = base.parts ++ [.name s] := by
  rw [child, parts_join hbase (isAbsolute_of_isName hs), inner_of_isName hs]

theorem bytes_child_ne {base : Path} {s : RawText} (hs : IsName s) : (base.child s).bytes ≠ [] := by
  unfold child join
  rw [isAbsolute_of_isName hs, if_neg Bool.false_ne_true]
  split <;> simp [hs.1]

/-- Names one after the other are as many more parts. -/
theorem parts_foldl_child {names : List RawText} {base : Path} (hbase : base.bytes ≠ [])
    (h : ∀ s ∈ names, IsName s) :
    (names.foldl child base).parts = base.parts ++ names.map .name := by
  induction names generalizing base with
  | nil => exact (List.append_nil _).symm
  | cons s names ih =>
    have hs := h s List.mem_cons_self
    rw [List.foldl_cons, ih (bytes_child_ne hs) fun m hm => h m (List.mem_cons_of_mem _ hm),
      parts_child hbase hs, List.append_assoc]
    rfl

end Marginalia.Path
