import Marginalia.Discovery.Engine
import Marginalia.Files.Edit
import Marginalia.Proofs.Files.Route
import Mathlib.Data.List.Find

set_option autoImplicit false

/-!
# Writing over a file

A file that is written over keeps its place.  So every path leads where it led before,
the same paths lead to files and to directories, and only who reads the file that was
written over finds something else in it.
-/

namespace Marginalia.FileTree

variable {t t' : FileTree} {place : Place} {old content : Content}

/-! ## Entries -/

theorem entryAt?_put (hplace : place ≠ []) (entry : Entry) (q : Place) :
    (t.put place entry).entryAt? q = if q = place then some entry else t.entryAt? q := by
  unfold entryAt? put
  by_cases hq : q = place
  · rw [if_pos hq, hq, if_neg hplace]
    simp
  · rw [if_neg hq]
    split
    · rfl
    · rw [List.find?_cons_of_neg (by simpa using Ne.symm hq), List.find?_filter]
      refine congrArg _ (List.find?_congr fun e _ => ?_)
      rw [Bool.eq_iff_iff, decide_eq_true_iff, bne_iff_ne, beq_iff_eq]
      exact ⟨fun h => h.2, fun h => ⟨h ▸ hq, h⟩⟩

theorem place_ne_nil_of_file (h : t.entryAt? place = some (.file old)) : place ≠ [] := by
  rintro rfl
  simp [entryAt?] at h

/-! ## Routes -/

/-- What stands at a place after the file at another is written over. -/
def rewriteEntry (place : Place) (content : Content) (q : Place) : Entry → Entry
  | .file c => .file (if q = place then content else c)
  | entry => entry

/-- Where a path leads to after the file at a place is written over. -/
def rewriteSpot (place : Place) (content : Content) : Spot → Spot
  | .found q entry => .found q (rewriteEntry place content q entry)
  | .vacant q slash => .vacant q slash

/-- Writing over a file changes no route. -/
theorem follow_put_file (h : t.entryAt? place = some (.file old)) (content : Content)
    (last : Bool) (links : Nat) (start : Place) (pieces : List RawText) :
    (t.put place (.file content)).follow last links start pieces =
      (t.follow last links start pieces).map (rewriteSpot place content) := by
  have hput := entryAt?_put (t := t) (place_ne_nil_of_file h) (.file content)
  induction links, start, pieces using follow_induction t with
  | nil links start => rw [follow_nil, follow_nil]; rfl
  | skipped links start piece rest hpiece ih =>
    rw [follow_skipped hpiece, follow_skipped hpiece, ih]
  | up links start rest ih => rw [follow_up, follow_up, ih]
  | name links start name rest hname ihDirectory ihLink =>
    rw [follow_name hname, follow_name hname, hput]
    split
    · rfl
    · by_cases hhere : start ++ [name] = place
      · rw [if_pos hhere, hhere, h]
        dsimp only
        split
        · simp [Except.map, rewriteSpot, rewriteEntry]
        · rfl
      · rw [if_neg hhere]
        cases hentry : t.entryAt? (start ++ [name]) with
        | none =>
          dsimp only
          split <;> rfl
        | some entry =>
          cases entry with
          | directory => exact ihDirectory hentry
          | file c =>
            dsimp only
            split
            · simp [Except.map, rewriteSpot, rewriteEntry, hhere]
            · rfl
          | link target =>
            dsimp only
            split
            · rfl
            · cases links with
              | zero => rfl
              | succ fewer => exact ihLink target fewer hentry rfl

/-- What a route that comes to a file, or to where nothing stands, tells of the place. -/
def Shows (t : FileTree) : Spot → Prop
  | .found here (.file content) => t.entryAt? here = some (.file content)
  | .found _ _ => True
  | .vacant here _ => t.entryAt? here = none

theorem shows_of_follow {last : Bool} {links : Nat} {start : Place} {pieces : List RawText}
    {spot : Spot} (h : t.follow last links start pieces = .ok spot) : t.Shows spot := by
  replace h := Route.of_follow h
  induction h with
  | arrived => trivial
  | skipped _ _ ih => exact ih
  | up _ ih => exact ih
  | vacant _ _ hentry _ => exact hentry
  | directory _ _ _ _ ih => exact ih
  | file _ _ hentry => exact hentry
  | link => trivial
  | through _ _ _ _ _ ih => exact ih

theorem shows_of_locate {last : Bool} {p : Path} {spot : Spot} (h : t.locate last p = .ok spot) :
    t.Shows spot := by
  rw [locate_of_isSound (isSound_of_locate h)] at h
  split at h
  · exact shows_of_follow h
  · cases h

/-- A file that is written is put where its path leads: over a file, or where nothing
stood. -/
theorem exists_put_of_write {p : Path} (h : t.write p content = .ok t') :
    ∃ place, t' = t.put place (.file content) ∧
      ((∃ old, t.locate true p = .ok (.found place (.file old))) ∨
        t.locate true p = .ok (.vacant place false)) := by
  unfold write at h
  split at h
  · rename_i place old hlocate
    cases h
    exact ⟨place, rfl, .inl ⟨old, hlocate⟩⟩
  · cases h
  · rename_i place slash hlocate
    split at h
    · cases h
    · rename_i hslash
      cases h
      exact ⟨place, rfl, .inr (Bool.eq_false_iff.2 hslash ▸ hlocate)⟩
  · cases h

/-! ## Paths -/

theorem locate_put_file (h : t.entryAt? place = some (.file old)) (content : Content)
    (last : Bool) (p : Path) :
    (t.put place (.file content)).locate last p =
      (t.locate last p).map (rewriteSpot place content) := by
  have hcurrent : (t.put place (.file content)).current = t.current := rfl
  unfold locate
  simp only [hcurrent, follow_put_file h]
  repeat' split
  all_goals rfl

theorem stat_put_file (h : t.entryAt? place = some (.file old)) (content : Content) (p : Path) :
    (t.put place (.file content)).stat p =
      (t.stat p).map fun found => (found.1, rewriteEntry place content found.1 found.2) := by
  rw [stat, stat, locate_put_file h]
  rcases t.locate true p with f | ⟨q, entry⟩ | ⟨q, slash⟩ <;> rfl

theorem isFile_put_file (h : t.entryAt? place = some (.file old)) (content : Content)
    (p : Path) : (t.put place (.file content)).isFile p = t.isFile p := by
  rw [isFile, isFile, stat_put_file h]
  rcases t.stat p with f | ⟨q, _ | c | target⟩ <;> rfl

theorem canonical_put_file (h : t.entryAt? place = some (.file old)) (content : Content)
    (p : Path) : (t.put place (.file content)).canonical p = t.canonical p := by
  rw [canonical, canonical, stat_put_file h]
  rcases t.stat p with f | found <;> rfl

/-! ## Contents -/

theorem fromUTF8?_toUTF8 (s : String) : String.fromUTF8? s.toUTF8 = some s :=
  dif_pos s.isValidUTF8

theorem exists_of_read {p : Path} (h : t.read p = .ok content) :
    ∃ q, t.stat p = .ok (q, .file content) := by
  unfold read at h
  split at h
  · rename_i q c hstat
    cases h
    exact ⟨q, hstat⟩
  · cases h
  · cases h

theorem entryAt?_of_stat_file {p : Path} {q : Place} (h : t.stat p = .ok (q, .file content)) :
    t.entryAt? q = some (.file content) :=
  shows_of_locate (locate_of_stat h)

/-- What has a text is a file of bytes that are a text. -/
theorem exists_bytes_of_readText {p : Path} {text : String}
    (h : Discovery.readText t p = .ok text) :
    ∃ q data, t.stat p = .ok (q, .file (.bytes data)) ∧ String.fromUTF8? data = some text := by
  unfold Discovery.readText at h
  split at h
  · cases h
  · rename_i content hread
    split at h
    · rename_i found htext
      cases h
      obtain ⟨q, hstat⟩ := exists_of_read hread
      cases content with
      | bytes data => exact ⟨q, data, hstat, htext⟩
      | notes store => cases htext
    · cases h

theorem read_put_file (h : t.entryAt? place = some (.file old)) (content : Content) (p : Path) :
    (t.put place (.file content)).read p =
      if t.stat p = .ok (place, .file old) then .ok content else t.read p := by
  rw [read, read, stat_put_file h]
  rcases hstat : t.stat p with f | ⟨q, _ | c | target⟩
  · rfl
  · rw [if_neg (by simp)]
    rfl
  · by_cases hq : q = place
    · subst hq
      rw [entryAt?_of_stat_file hstat] at h
      cases h
      simp [Except.map, rewriteEntry]
    · simp [Except.map, rewriteEntry, hq]
  · rw [if_neg (by simp)]
    rfl

/-- A file that is read can be written over, and has a place of its own. -/
theorem exists_place_of_read {p : Path} (hread : t.read p = .ok old) :
    ∃ place, t.stat p = .ok (place, .file old) ∧ t.entryAt? place = some (.file old) ∧
      ∀ content, t.write p content = .ok (t.put place (.file content)) := by
  obtain ⟨place, hstat⟩ := exists_of_read hread
  refine ⟨place, hstat, entryAt?_of_stat_file hstat, fun content => ?_⟩
  rw [write, locate_of_stat hstat]

/-- What was written over a file is read back. -/
theorem read_of_write {p : Path} (hread : t.read p = .ok old)
    (hwrite : t.write p content = .ok t') : t'.read p = .ok content := by
  obtain ⟨place, hstat, hentry, hput⟩ := exists_place_of_read hread
  rw [hput, Except.ok.injEq] at hwrite
  rw [← hwrite, read_put_file hentry, if_pos hstat]

/-- Paths lead to the same places after a file is written over. -/
theorem canonical_of_write {p : Path} (hread : t.read p = .ok old)
    (hwrite : t.write p content = .ok t') (q : Path) : t'.canonical q = t.canonical q := by
  obtain ⟨place, -, hentry, hput⟩ := exists_place_of_read hread
  rw [hput, Except.ok.injEq] at hwrite
  rw [← hwrite, canonical_put_file hentry]

/-! ## Notes are no text -/

section Notes

variable {p : Path} {store store' : Store}

/-- Writing over notes with other notes changes no text. -/
theorem readText_write_notes (hread : t.read p = .ok (.notes store))
    (hwrite : t.write p (.notes store') = .ok t') (q : Path) :
    Discovery.readText t' q = Discovery.readText t q := by
  obtain ⟨place, -, hentry, hput⟩ := exists_place_of_read hread
  rw [hput, Except.ok.injEq] at hwrite
  rw [← hwrite, Discovery.readText, Discovery.readText, read_put_file hentry]
  by_cases hstat : t.stat q = .ok (place, .file (.notes store))
  · rw [if_pos hstat, read, hstat]
    rfl
  · rw [if_neg hstat]

/-- Writing over notes with other notes changes nothing for a scan of one file. -/
theorem discoverFile_write_notes (hread : t.read p = .ok (.notes store))
    (hwrite : t.write p (.notes store') = .ok t') (e : Discovery.Engine) (tags : List String)
    (file : Path) : e.discoverFile t' tags file = e.discoverFile t tags file := by
  have htext := readText_write_notes hread hwrite
  obtain ⟨place, -, hentry, hput⟩ := exists_place_of_read hread
  rw [hput, Except.ok.injEq] at hwrite
  subst hwrite
  unfold Discovery.Engine.discoverFile
  dsimp only
  rw [htext, stat_put_file hentry]
  rcases t.stat (e.resolve file) with f | ⟨q, _ | c | target⟩ <;> rfl

end Notes

end Marginalia.FileTree
