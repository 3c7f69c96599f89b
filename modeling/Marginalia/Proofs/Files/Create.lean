import Marginalia.Proofs.Files.Overwrite

set_option autoImplicit false

/-!
# Writing a new file

A file that is written where nothing stood is found by the paths that led there, and every
path that led to something leads there still.  Together with files that are written over:
what is written is read back, and directories stay where they are.
-/

namespace Marginalia.FileTree

variable {t t' : FileTree} {place : Place} {content : Content} {p : Path}

/-! ## Routes -/

theorem place_ne_nil_of_vacant (h : t.entryAt? place = none) : place ≠ [] := by
  rintro rfl
  cases h

/-- Where a route comes to after a file is written where nothing stood. -/
def fillSpot (place : Place) (content : Content) : Spot → Except FileFault Spot
  | .found q entry => .ok (.found q entry)
  | .vacant q slash =>
    if q = place then
      if slash then .error .notADirectory else .ok (.found place (.file content))
    else .ok (.vacant q slash)

/-- A new file stands in the way of no route that came to anything. -/
theorem follow_put_new (hnew : t.entryAt? place = none) (content : Content) {last : Bool}
    {links : Nat} {start : Place} {pieces : List RawText} {spot : Spot}
    (h : t.follow last links start pieces = .ok spot) :
    (t.put place (.file content)).follow last links start pieces = fillSpot place content spot := by
  have hput := entryAt?_put (t := t) (place_ne_nil_of_vacant hnew) (.file content)
  have hkeeps : ∀ {q : Place} {entry : Entry}, t.entryAt? q = some entry →
      (t.put place (.file content)).entryAt? q = some entry := by
    intro q entry hentry
    rw [hput, if_neg, hentry]
    rintro rfl
    rw [hnew] at hentry
    cases hentry
  replace h := Route.of_follow h
  induction h with
  | arrived => exact follow_nil
  | skipped hpiece _ ih => rw [follow_skipped hpiece, ih]
  | up _ ih => rw [follow_up, ih]
  | @vacant _ start name rest hname hshort hentry hrest =>
    by_cases hplace : start ++ [name] = place
    · rw [follow_name hname, if_neg (Nat.not_lt.2 hshort), hput, if_pos hplace]
      cases rest <;> simp [fillSpot, hplace]
    · have hstill : (t.put place (.file content)).entryAt? (start ++ [name]) = none := by
        rw [hput, if_neg hplace, hentry]
      rw [(Route.vacant hname hshort hstill hrest).follow_eq, fillSpot, if_neg hplace]
  | directory hname hshort hentry _ ih =>
    rw [follow_directory hname (hkeeps hentry), if_neg (Nat.not_lt.2 hshort), ih]
  | file hname hshort hentry => exact (Route.file hname hshort (hkeeps hentry)).follow_eq
  | link hname hshort hentry hlast =>
    exact (Route.link hname hshort (hkeeps hentry) hlast).follow_eq
  | through hname hshort hentry hgoes _ ih =>
    rw [follow_link_succ hname hshort (hkeeps hentry) hgoes, ih]

theorem locate_put_new (hnew : t.entryAt? place = none) (content : Content) {last : Bool}
    {spot : Spot} (h : t.locate last p = .ok spot) :
    (t.put place (.file content)).locate last p = fillSpot place content spot := by
  have hsound := isSound_of_locate h
  rw [locate_of_isSound hsound] at h ⊢
  rw [show (t.put place (.file content)).start? p = t.start? p from rfl]
  split at h
  · exact follow_put_new hnew content h
  · cases h

/-! ## Paths -/

/-- A path that led to something leads there still. -/
theorem stat_put_new (hnew : t.entryAt? place = none) (content : Content) {found : Place × Entry}
    (h : t.stat p = .ok found) : (t.put place (.file content)).stat p = .ok found := by
  rw [stat, locate_put_new hnew content (locate_of_stat h)]
  rfl

/-- What is written is read back. -/
theorem read_write (h : t.write p content = .ok t') : t'.read p = .ok content := by
  obtain ⟨place, rfl, ⟨old, hlocate⟩ | hlocate⟩ := exists_put_of_write h
  · have hread : t.read p = .ok old := by rw [read, stat, hlocate]
    exact read_of_write hread h
  · rw [read, stat, locate_put_new (shows_of_locate hlocate) content hlocate, fillSpot, if_pos rfl,
      if_neg Bool.false_ne_true]

/-- Where a file is written, directories stay where they are. -/
theorem stat_directory_of_write (h : t.write p content = .ok t') {q : Path} {here : Place}
    (hstat : t.stat q = .ok (here, .directory)) : t'.stat q = .ok (here, .directory) := by
  obtain ⟨place, rfl, ⟨old, hlocate⟩ | hlocate⟩ := exists_put_of_write h
  · rw [stat_put_file (shows_of_locate hlocate), hstat]
    rfl
  · exact stat_put_new (shows_of_locate hlocate) content hstat

/-- Whoever writes a file, the same entries are left. -/
theorem write_of_entries (h : t'.entries = t.entries) (hp : p.isAbsolute = true)
    (content : Content) :
    (t'.write p content).map (·.entries) = (t.write p content).map (·.entries) := by
  unfold write
  rw [locate_of_entries h hp]
  split
  · exact congrArg Except.ok (by simp only [put, h])
  · rfl
  · split
    · rfl
    · exact congrArg Except.ok (by simp only [put, h])
  · rfl

end Marginalia.FileTree
