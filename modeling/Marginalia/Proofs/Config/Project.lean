import Marginalia.Config.Project
import Marginalia.Proofs.Config.Document
import Marginalia.Proofs.Files.Child
import Marginalia.Proofs.Files.Overwrite

set_option autoImplicit false

/-!
# The project around a directory

The nearest directory around a path that has a file of settings tells the project.  Where
the state of the project is kept is told by the source root in its settings, and this is
the state directory that was found only if the source root is the directory it was found in.
Then settings that are saved are written over those that were found, and are found in their
place.
-/

namespace Marginalia.Config

open Marginalia.Path (IsName)

variable {t t' : FileTree} {start d : Path} {c c' : Config}

/-! ## Finding settings -/

/-- The nearest directory around a path that has a file of settings. -/
def nearest? (t : FileTree) (start : Path) : Option Path :=
  start.ancestors.find? fun d => t.isFile (candidate d)

theorem discover_eq (t : FileTree) (start : Path) :
    discover t start =
      match nearest? t start with
      | some d => load t (candidate d)
      | none => .error (.notInitialized start) := by
  unfold discover nearest?
  rw [List.find?_map, show t.isFile ∘ candidate = fun d => t.isFile (candidate d) from rfl]
  cases start.ancestors.find? fun d => t.isFile (candidate d) <;> rfl

theorem discover_of_nearest? (h : nearest? t start = some d) :
    discover t start = load t (candidate d) := by
  rw [discover_eq, h]

/-- Settings are loaded from a file of bytes. -/
theorem exists_of_load {p : Path} (h : load t p = .ok c) :
    ∃ place data text, t.stat p = .ok (place, .file (.bytes data)) ∧
      String.fromUTF8? data = some text ∧ read? text = some c := by
  unfold load at h
  split at h
  · cases h
  · rename_i content hread
    obtain ⟨place, hstat⟩ := FileTree.exists_of_read hread
    split at h
    · cases h
    · rename_i text htext
      split at h
      · rename_i hsettings
        cases h
        cases content with
        | bytes data => exact ⟨place, data, text, hstat, htext, hsettings⟩
        | notes store => cases htext
      · cases h

theorem isBounded_of_load {p : Path} (h : load t p = .ok c) : c.IsBounded := by
  obtain ⟨_, _, _, -, -, hread⟩ := exists_of_load h
  exact isBounded_of_read? hread

/-- Settings that were printed into a file are loaded from it. -/
theorem load_printed {p : Path} (h : t.read p = .ok (.bytes c.print.toUTF8))
    (hc : c.IsPrintable) :
    load t p = .ok c := by
  rw [load, h]
  simp only [Content.text?, FileTree.fromUTF8?_toUTF8, read?_print hc]

/-! ## Where the state is kept -/

theorem isName_stateDirectoryName : IsName stateDirectoryName := by decide

theorem isName_configFileName : IsName configFileName := by decide

theorem isName_notesFileName : IsName notesFileName := by decide

theorem isAbsolute_notesPath (h : c.sourceRoot.isAbsolute = true) :
    c.notesPath.isAbsolute = true := by
  rw [notesPath, stateDirectory, Path.isAbsolute_child _ isName_notesFileName,
    Path.isAbsolute_child _ isName_stateDirectoryName, h]

/-- Settings are kept where they are looked for at the source root. -/
theorem configPath_eq (c : Config) : c.configPath = candidate c.sourceRoot := rfl

/-- The state of a project is kept in the directory where its settings were found if and
only if the source root in them is the directory around it. -/
theorem same_stateDirectory_iff (c : Config) (d : Path) :
    c.stateDirectory.same (d.child stateDirectoryName) = true ↔ c.sourceRoot.same d = true :=
  Path.same_child_iff isName_stateDirectoryName _ _

theorem same_configPath_iff (c : Config) (d : Path) :
    c.configPath.same (candidate d) = true ↔ c.sourceRoot.same d = true :=
  (Path.same_child_iff isName_configFileName _ _).trans (same_stateDirectory_iff c d)

theorem same_notesPath_iff (c : Config) (d : Path) :
    c.notesPath.same ((d.child stateDirectoryName).child notesFileName) = true ↔
      c.sourceRoot.same d = true :=
  (Path.same_child_iff isName_notesFileName _ _).trans (same_stateDirectory_iff c d)

/-- The state directory leads where the one does in which the settings were found. -/
theorem locate_stateDirectory (hload : load t (candidate d) = .ok c)
    (hroot : c.sourceRoot.same d = true) {last : Bool} {spot : Spot}
    (h : t.locate last c.stateDirectory = .ok spot) :
    t.locate last (d.child stateDirectoryName) = .ok spot := by
  obtain ⟨_, _, _, hstat, -⟩ := exists_of_load hload
  have hfound : FileTree.IsSound (d.child stateDirectoryName) :=
    FileTree.isSound_of_child (Path.bytes_child_ne isName_stateDirectoryName) isName_configFileName
      (FileTree.isSound_of_stat hstat)
  rw [← FileTree.locate_child_congr isName_stateDirectoryName (beq_iff_eq.1 hroot)
    (FileTree.isSound_of_locate h) hfound]
  exact h

/-! ## Saving settings -/

/-- Saving settings is writing what is printed of them, if the source root is a text. -/
theorem save_eq_ok_iff :
    c.save t = .ok t' ↔ c.sourceRoot.bytes.isText = true ∧
      t.write c.configPath (.bytes c.print.toUTF8) = .ok t' := by
  unfold save FileTree.writeText
  constructor
  · intro h
    split at h
    · rename_i htext
      split at h
      · rename_i hwrite
        cases h
        exact ⟨htext, hwrite⟩
      · cases h
    · cases h
  · rintro ⟨htext, hwrite⟩
    rw [if_pos htext, hwrite]

/-- Settings whose source root is the directory where settings were found are written over
those. -/
theorem put_of_save (hload : load t (candidate d) = .ok c) (hroot : c'.sourceRoot.same d = true)
    (hsave : c'.save t = .ok t') :
    ∃ place old, t.stat (candidate d) = .ok (place, .file old) ∧
      t' = t.put place (.file (.bytes c'.print.toUTF8)) := by
  obtain ⟨place, data, _, hstat, -⟩ := exists_of_load hload
  refine ⟨place, .bytes data, hstat, ?_⟩
  have hwrite := (save_eq_ok_iff.1 hsave).2
  have hsound : FileTree.IsSound c'.configPath := FileTree.isSound_of_write hwrite
  have hlocate : t.locate true c'.configPath = .ok (.found place (.file (.bytes data))) := by
    rw [← FileTree.locate_of_stat hstat]
    exact FileTree.locate_child_congr isName_configFileName
      (beq_iff_eq.1 ((same_stateDirectory_iff c' d).2 hroot)) hsound
      (FileTree.isSound_of_stat hstat) true
  rw [FileTree.write, hlocate, Except.ok.injEq] at hwrite
  exact hwrite.symm

/-- Settings that were written over those of the nearest project are found. -/
theorem discover_of_put {place : Place} {old : Content} (hd : nearest? t start = some d)
    (hstat : t.stat (candidate d) = .ok (place, .file old)) (hc : c'.IsPrintable) :
    discover (t.put place (.file (.bytes c'.print.toUTF8))) start = .ok c' := by
  have hentry := FileTree.entryAt?_of_stat_file hstat
  have hnearest : nearest? (t.put place (.file (.bytes c'.print.toUTF8))) start = some d := by
    simpa only [nearest?, FileTree.isFile_put_file hentry] using hd
  rw [discover_of_nearest? hnearest]
  refine load_printed ?_ hc
  rw [FileTree.read_put_file hentry, if_pos hstat]

end Marginalia.Config
