import Marginalia.Proofs.Files.Overwrite
import Mathlib.Data.List.Find

set_option autoImplicit false

/-!
# What a directory holds under a name

A name joined to a path is one more part, and it is looked up where the path leads.  Two
paths with the same parts may be written with different slashes and dots, but a name joined
to them leads to the same, as long as neither of them is too long.
-/

namespace Marginalia

namespace Path

variable {p q base : Path} {s : RawText}

/-! ## Parts of a child -/

/-- A name joined to the empty path stands alone. -/
theorem child_empty (hs : IsName s) : child ⟨[]⟩ s = ⟨s⟩ := by
  simp [child, join, isAbsolute_of_isName hs]

/-- The pieces of a path with one more name. -/
theorem segments_child (base : Path) (hs : IsName s) :
    ∃ front, (base.child s).segments = front ++ [s] ∧ front.filterMap partOf? = base.inner := by
  obtain ⟨bytes⟩ := base
  by_cases hempty : bytes = []
  · rw [hempty, child_empty hs, segments_of_isName hs]
    exact ⟨[], rfl, rfl⟩
  · obtain ⟨front, -, hchild, hfront⟩ := segments_join hempty (isAbsolute_of_isName hs)
    rw [segments_of_isName hs] at hchild
    refine ⟨front, hchild, ?_⟩
    rcases hfront with h | h
    · rw [inner, h]
    · simp [inner, h, partOf?]

theorem isAbsolute_child (base : Path) (hs : IsName s) :
    (base.child s).isAbsolute = base.isAbsolute := by
  obtain ⟨bytes⟩ := base
  by_cases hempty : bytes = []
  · rw [hempty, child_empty hs, isAbsolute_of_isName hs]
    rfl
  · exact isAbsolute_join hempty (isAbsolute_of_isName hs)

/-- A name is one more part, also of the empty path. -/
theorem parts_child_eq (base : Path) (hs : IsName s) :
    (base.child s).parts = base.parts ++ [.name s] := by
  obtain ⟨bytes⟩ := base
  by_cases hempty : bytes = []
  · have hdot : some s ≠ some [dot] := fun h => hs.2.1 (Option.some.inj h)
    rw [hempty, child_empty hs, parts_eq, inner_of_isName hs, lead, isAbsolute_of_isName hs,
      segments_of_isName hs, List.head?_cons, if_neg Bool.false_ne_true, if_neg hdot]
    rfl
  · exact parts_child hempty hs

/-- Children of one name have the same parts when the paths around them do. -/
theorem same_child_iff (hs : IsName s) (p q : Path) :
    (p.child s).same (q.child s) = true ↔ p.same q = true := by
  rw [same, same, beq_iff_eq, beq_iff_eq, parts_child_eq p hs, parts_child_eq q hs,
    List.append_left_inj]

end Path

namespace FileTree

open Marginalia.Path (partOf? IsName)

variable {t : FileTree}

/-! ## The same route -/

theorem partOf?_eq_none_iff {piece : RawText} : partOf? piece = none ↔ IsSkipped piece := by
  unfold partOf? IsSkipped
  split
  · simp_all
  · split <;> simp_all

theorem bytes_of_partOf? {piece : RawText} {part : Path.Part} (h : partOf? piece = some part) :
    part.bytes = piece := by
  unfold partOf? at h
  split at h
  · cases h
  · split at h <;> cases h
    · exact Eq.symm ‹_›
    · rfl

/-- Pieces that stand for the same parts differ in skipped pieces only. -/
theorem sameRoute_of_filterMap {a b : List RawText} {name : RawText} (hname : IsLookedUp name)
    (h : a.filterMap partOf? = b.filterMap partOf?) : SameRoute (a ++ [name]) (b ++ [name]) := by
  induction a generalizing b with
  | nil =>
    induction b with
    | nil => exact .last hname
    | cons piece b ih =>
      cases hpart : partOf? piece with
      | none =>
        rw [List.filterMap_cons_none hpart] at h
        exact .skipRight (partOf?_eq_none_iff.1 hpart) (ih h)
      | some part =>
        rw [List.filterMap_cons_some hpart] at h
        cases h
  | cons piece a iha =>
    cases hpart : partOf? piece with
    | none =>
      rw [List.filterMap_cons_none hpart] at h
      exact .skipLeft (partOf?_eq_none_iff.1 hpart) (iha h)
    | some part =>
      rw [List.filterMap_cons_some hpart] at h
      induction b with
      | nil => cases h
      | cons piece' b ihb =>
        cases hpart' : partOf? piece' with
        | none =>
          rw [List.filterMap_cons_none hpart'] at h
          exact .skipRight (partOf?_eq_none_iff.1 hpart') (ihb h)
        | some part' =>
          rw [List.filterMap_cons_some hpart', List.cons.injEq] at h
          obtain ⟨rfl, htail⟩ := h
          rw [← bytes_of_partOf? hpart, ← bytes_of_partOf? hpart']
          exact .cons _ (iha htail)

/-! ## Paths that can be looked up -/

theorem isSound_of_stat {p : Path} {found : Place × Entry} (h : t.stat p = .ok found) :
    IsSound p :=
  isSound_of_locate (locate_of_stat h)

theorem isSound_of_write {t' : FileTree} {p : Path} {content : Content}
    (h : t.write p content = .ok t') : IsSound p := by
  obtain ⟨place, -, ⟨old, hlocate⟩ | hlocate⟩ := exists_put_of_write h
  · exact isSound_of_locate hlocate
  · exact isSound_of_locate hlocate

/-- The path around a name can be looked up when the name in it can. -/
theorem isSound_of_child {base : Path} {s : RawText} (hbase : base.bytes ≠ []) (hs : IsName s)
    (h : IsSound (base.child s)) : IsSound base := by
  obtain ⟨rest, hrest⟩ : ∃ rest, (base.child s).bytes = base.bytes ++ rest := by
    unfold Path.child Path.join
    rw [Path.isAbsolute_of_isName hs, if_neg Bool.false_ne_true]
    split
    · exact ⟨_, rfl⟩
    · exact ⟨_, rfl⟩
  have hplain := h.plain
  have hshort := h.short
  rw [hrest, List.mem_append, not_or] at hplain
  rw [hrest, List.length_append] at hshort
  exact ⟨hplain.1, hbase, by omega⟩

/-- A name leads to the same in paths of the same parts. -/
theorem locate_child_congr {a b : Path} {name : RawText} (hname : IsName name)
    (h : a.parts = b.parts) (ha : IsSound (a.child name)) (hb : IsSound (b.child name))
    (last : Bool) : t.locate last (a.child name) = t.locate last (b.child name) := by
  obtain ⟨fronta, hsega, hinnera⟩ := Path.segments_child a hname
  obtain ⟨frontb, hsegb, hinnerb⟩ := Path.segments_child b hname
  have hroute := sameRoute_of_filterMap (isLookedUp_of_isName hname)
    (hinnera.trans ((Path.inner_congr h).trans hinnerb.symm))
  have hstart : t.start? (a.child name) = t.start? (b.child name) := by
    rw [start?, start?, Path.isAbsolute_child a hname, Path.isAbsolute_child b hname,
      Path.isAbsolute_congr h]
  rw [locate_of_isSound ha, locate_of_isSound hb, hstart, hsega, hsegb]
  split
  · exact follow_congr hroute last linkBudget _
  · rfl

/-! ## What a name itself is -/

/-- A route that ends in a name, and does not follow it, comes to an entry of that name. -/
theorem getLast?_of_follow_name {links : Nat} {start place : Place} {front : List RawText}
    {name : RawText} {entry : Entry} (hname : IsLookedUp name)
    (h : t.follow false links start (front ++ [name]) = .ok (.found place entry)) :
    place.getLast? = some name := by
  generalize hpieces : front ++ [name] = pieces at h
  generalize hspot : Spot.found place entry = spot at h
  replace h := Route.of_follow h
  induction h generalizing front with
  | arrived => simp at hpieces
  | skipped hpiece _ ih =>
    cases front with
    | nil =>
      cases hpieces
      exact absurd hpiece hname.1
    | cons first front => exact ih (List.cons.inj hpieces).2 hspot
  | up _ ih =>
    cases front with
    | nil =>
      cases hpieces
      exact absurd rfl hname.2
    | cons first front => exact ih (List.cons.inj hpieces).2 hspot
  | vacant => cases hspot
  | directory _ _ _ onward ih =>
    cases front with
    | nil =>
      cases hpieces
      cases onward
      cases hspot
      exact List.getLast?_concat
    | cons first front => exact ih (List.cons.inj hpieces).2 hspot
  | file =>
    cases hspot
    have hsame := congrArg List.getLast? hpieces
    rw [List.getLast?_concat] at hsame
    exact List.getLast?_concat.trans hsame.symm
  | link =>
    cases hspot
    have hsame := congrArg List.getLast? hpieces
    rw [List.getLast?_concat] at hsame
    exact List.getLast?_concat.trans hsame.symm
  | @through _ _ _ target rest _ _ _ _ hgoes _ ih =>
    cases front with
    | nil =>
      cases hpieces
      cases hgoes
    | cons first front =>
      have hpieces : (target.segments ++ front) ++ [name] = target.segments ++ rest := by
        rw [List.append_assoc, ← (List.cons.inj hpieces).2]
        rfl
      exact ih hpieces hspot

/-- A name in a path leads to an entry of that name. -/
theorem getLast?_of_locate_child {base : Path} {name : RawText} {place : Place} {entry : Entry}
    (hname : IsName name) (h : t.locate false (base.child name) = .ok (.found place entry)) :
    place.getLast? = some name := by
  obtain ⟨front, hsegments, -⟩ := Path.segments_child base hname
  rw [locate_of_isSound (isSound_of_locate h), hsegments] at h
  split at h
  · exact getLast?_of_follow_name (isLookedUp_of_isName hname) h
  · cases h

/-! ## Removing it -/

/-- What a place is cut with is the place and all below it. -/
theorem entryAt?_cut {place : Place} (hplace : place ≠ []) (q : Place) :
    (t.cut place).entryAt? q = if place <+: q then none else t.entryAt? q := by
  unfold entryAt? cut
  by_cases hq : q = []
  · rw [if_pos hq, if_pos hq, hq, if_neg (by simpa using hplace)]
  · rw [if_neg hq, if_neg hq, List.find?_filter]
    by_cases hbelow : place <+: q
    · rw [if_pos hbelow, Option.map_eq_none_iff, List.find?_eq_none]
      intro e _ he
      rw [decide_eq_true_iff, bne_iff_ne, beq_iff_eq] at he
      obtain ⟨hkept, rfl⟩ := he
      exact hkept (List.prefix_iff_eq_take.1 hbelow).symm
    · rw [if_neg hbelow]
      refine congrArg _ (List.find?_congr fun e _ => ?_)
      rw [Bool.eq_iff_iff, decide_eq_true_iff, bne_iff_ne, beq_iff_eq]
      refine ⟨fun h => h.2, fun h => ⟨fun hkept => hbelow ?_, h⟩⟩
      rw [← h, List.prefix_iff_eq_take]
      exact hkept.symm

end FileTree

end Marginalia
