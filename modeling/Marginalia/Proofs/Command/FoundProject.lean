import Marginalia.Proofs.Command.Steps
import Marginalia.Proofs.Config.Project

set_option autoImplicit false

/-!
# The project that a command works on

A command reads the settings that are nearest to where it is run, and works on the project
whose source root they name.  It works on the project that it found if and only if that
source root is the directory around the settings: then a setting that is changed is seen
afterwards, and removing the project removes the state directory that was found and
nothing else.  Settings that were moved or copied along with their directory still name
the old one, and there the changes go.
-/

namespace Marginalia.Run

open Config (nearest? candidate load)

variable {s s' : Session} {c : Config} {d : Path}

/-! ## Steps -/

theorem run_here (s : Session) : here.run.run s = (.ok s.place, s) := rfl

theorem run_openConfig {c : Config} (h : Config.discover s.tree s.place = .ok c) :
    openConfig.run.run s = (.ok c, s) := by
  unfold openConfig
  rw [run_bind_of_ok (run_tree s), run_bind_of_ok (run_here s), h]
  rfl

/-- Showing a setting shows its value among the settings that are discovered. -/
theorem run_configGet {key shown : String} (hc : Config.discover s.tree s.place = .ok c)
    (hshown : c.get key = .ok shown) :
    (configGet key).run.run s =
      (.ok (), { s with printed := s.printed ++ (shown ++ "\n") }) := by
  unfold configGet
  rw [run_bind_of_ok (run_openConfig hc), hshown,
    run_bind_of_ok (run_orFail .ofConfig (.ok shown) s)]
  rfl

/-- Changing a setting saves the settings with its new value. -/
theorem run_configSet {key value shown : String} {c' : Config}
    (hc : Config.discover s.tree s.place = .ok c) (hset : c.set key value = .ok c')
    (hshown : c'.get key = .ok shown) :
    (configSet key value).run.run s =
      match c'.save s.tree with
      | .ok t => (.ok (), { s with
          tree := t, printed := s.printed ++ ("Set " ++ key ++ " = " ++ shown ++ "\n") })
      | .error e => (.error (.ofConfig e), s) := by
  unfold configSet
  rw [run_bind_of_ok (run_openConfig hc), hset, run_bind_of_ok (run_orFail .ofConfig (.ok c') s),
    run_bind_of_ok (run_tree s), run_bind, run_orFail]
  cases c'.save s.tree with
  | error e => rfl
  | ok t =>
    rw [hshown]
    rfl

/-- A change of a setting that ends well has saved the settings with its new value. -/
theorem exists_of_run_configSet {key value : String}
    (hc : Config.discover s.tree s.place = .ok c)
    (hrun : (configSet key value).run.run s = (.ok (), s')) :
    ∃ c', c.set key value = .ok c' ∧ c'.save s.tree = .ok s'.tree := by
  cases hset : c.set key value with
  | error e =>
    unfold configSet at hrun
    rw [run_bind_of_ok (run_openConfig hc), hset, run_bind, run_orFail] at hrun
    cases hrun
  | ok c' =>
    obtain ⟨shown, hshown⟩ := Config.exists_get_of_set hset
    rw [run_configSet hc hset hshown] at hrun
    split at hrun
    · rename_i hsave
      cases hrun
      exact ⟨c', rfl, hsave⟩
    · cases hrun

/-- Removing a project removes the state directory below its source root. -/
theorem run_destroy (hc : Config.discover s.tree s.place = .ok c) :
    (destroy true).run.run s =
      match s.tree.removeDirectory c.stateDirectory with
      | .ok t => (.ok (), { s with
          tree := t, printed := s.printed ++ ("Removed " ++ c.stateDirectory.text ++ "\n") })
      | .error _ => (.error (.during ("Failed to remove " ++ c.stateDirectory.quoted)), s) := by
  unfold destroy
  rw [run_bind_of_ok (run_openConfig hc)]
  simp only [Bool.not_true, Bool.false_eq_true, if_false, Bool.true_or, if_true]
  rw [run_bind_of_ok (run_get s), run_bind_of_ok (run_tree s)]
  cases s.tree.removeDirectory c.stateDirectory <;> rfl

/-- A project that was removed is what its state directory led to. -/
theorem exists_of_run_destroy (hc : Config.discover s.tree s.place = .ok c)
    (hrun : (destroy true).run.run s = (.ok (), s')) :
    ∃ place entry, s.tree.locate false c.stateDirectory = .ok (.found place entry) ∧
      s'.tree = s.tree.cut place := by
  rw [run_destroy hc] at hrun
  split at hrun
  · rename_i t hremove
    cases hrun
    unfold FileTree.removeDirectory at hremove
    split at hremove
    · cases hremove
    · rename_i place entry _ hlocate
      cases hremove
      exact ⟨place, entry, hlocate, rfl⟩
    · cases hremove
    · cases hremove
  · cases hrun

/-! ## Where the work is done -/

/-- Somebody who runs a command in the same directory after a file was written over is at
the same place. -/
theorem place_of_put {place : Place} {old content : Content} {later : Session}
    (hentry : s.tree.entryAt? place = some (.file old))
    (htree : later.tree = s.tree.put place (.file content))
    (hdirectory : later.directory = s.directory) : later.place = s.place := by
  rw [Session.place, Session.place, htree, hdirectory, FileTree.canonical_put_file hentry]

/-- A command works on the state directory that it found if and only if the source root in
the settings is the directory around it.  Then settings that are changed are written over
those that were found and are seen afterwards.  What is removed with a project is the state
directory below the source root with all in it and nothing else, and on the same condition
it is the one that was found. -/
theorem works_on_found_iff (hd : nearest? s.tree s.place = some d)
    (hload : load s.tree (candidate d) = .ok c) :
    openConfig.run.run s = (.ok c, s) ∧
    (c.stateDirectory.same (d.child stateDirectoryName) = true ↔ c.sourceRoot.same d = true) ∧
    (c.sourceRoot.same d = true →
      c.configPath.same (candidate d) = true ∧
      c.notesPath.same ((d.child stateDirectoryName).child notesFileName) = true) ∧
    (∀ key value s', (configSet key value).run.run s = (.ok (), s') →
      ∃ c' shown, c.set key value = .ok c' ∧ c'.get key = .ok shown ∧
        c'.save s.tree = .ok s'.tree ∧
        (c.sourceRoot.same d = true →
          (∃ place old, s.tree.stat (candidate d) = .ok (place, .file old) ∧
            s'.tree = s.tree.put place (.file (.bytes c'.print.toUTF8))) ∧
          ∀ later : Session, later.tree = s'.tree → later.directory = s.directory →
            (configGet key).run.run later =
              (.ok (), { later with printed := later.printed ++ (shown ++ "\n") }))) ∧
    ∀ s', (destroy true).run.run s = (.ok (), s') →
      ∃ place entry, s.tree.locate false c.stateDirectory = .ok (.found place entry) ∧
        (∀ q, s'.tree.entryAt? q = if place <+: q then none else s.tree.entryAt? q) ∧
        (c.sourceRoot.same d = true →
          s.tree.locate false (d.child stateDirectoryName) = .ok (.found place entry)) := by
  have hc : Config.discover s.tree s.place = .ok c :=
    (Config.discover_of_nearest? hd).trans hload
  refine ⟨run_openConfig hc, Config.same_stateDirectory_iff c d, fun hroot =>
    ⟨(Config.same_configPath_iff c d).2 hroot, (Config.same_notesPath_iff c d).2 hroot⟩,
    fun key value s' hrun => ?_, fun s' hrun => ?_⟩
  · obtain ⟨c', hset, hsave⟩ := exists_of_run_configSet hc hrun
    obtain ⟨shown, hshown⟩ := Config.exists_get_of_set hset
    obtain ⟨hkeeps, hbounded⟩ := Config.keeps_of_set hset
    refine ⟨c', shown, hset, hshown, hsave, fun hroot => ?_⟩
    obtain ⟨place, old, hstat, hput⟩ := Config.put_of_save hload (hkeeps ▸ hroot) hsave
    refine ⟨⟨place, old, hstat, hput⟩, fun later htree hdirectory => run_configGet ?_ hshown⟩
    have hplace : later.place = s.place :=
      place_of_put (FileTree.entryAt?_of_stat_file hstat) (htree.trans hput) hdirectory
    rw [htree, hput, hplace]
    exact Config.discover_of_put hd hstat
      ⟨hbounded (Config.isBounded_of_load hload), (Config.save_eq_ok_iff.1 hsave).1⟩
  · obtain ⟨place, entry, hlocate, hcut⟩ := exists_of_run_destroy hc hrun
    have hne : place ≠ [] := by
      rintro rfl
      cases FileTree.getLast?_of_locate_child Config.isName_stateDirectoryName hlocate
    refine ⟨place, entry, hlocate, fun q => ?_, fun hroot => ?_⟩
    · rw [hcut, FileTree.entryAt?_cut hne]
    · exact Config.locate_stateDirectory hload hroot hlocate

/-! ## Two projects side by side -/

/-- The settings of a project. -/
def twinConfig (root : Path) : Config := .ofRoot root

/-- A tree with a project and beside it settings that name a source root of their own. -/
def twinTree (root : Path) : FileTree :=
  { entries :=
      [(["srv"], .directory),
       (["srv", "p"], .directory), (["srv", "p", ".notter"], .directory),
       (["srv", "p", ".notter", "config.json"],
        .file (.bytes (twinConfig ⟨"/srv/p"⟩).print.toUTF8)),
       (["srv", "q"], .directory), (["srv", "q", ".notter"], .directory),
       (["srv", "q", ".notter", "config.json"], .file (.bytes (twinConfig root).print.toUTF8))] }

/-- A session in the directory beside the project. -/
def twinSession (root : Path) : Session :=
  { tree := twinTree root, directory := ⟨"/srv/q"⟩, input := "", draws := fun _ => default
    printed := "" }

variable (root : Path)

theorem place_twinSession : (twinSession root).place = ⟨"/srv/q"⟩ := by
  have hstat : (twinTree root).stat ⟨"/srv/q"⟩ = .ok (["srv", "q"], .directory) :=
    FileTree.Descends.stat (.down (by decide) rfl (.last (by decide) rfl (by nofun))) (by decide)
      (by decide) rfl
  have hpathOf : FileTree.pathOf ["srv", "q"] = ⟨"/srv/q"⟩ := by decide
  rw [Session.place, FileTree.canonical, show (twinSession root).directory = ⟨"/srv/q"⟩ from rfl,
    show (twinSession root).tree = twinTree root from rfl, hstat]
  exact hpathOf

theorem candidate_twin : candidate ⟨"/srv/q"⟩ = ⟨"/srv/q/.notter/config.json"⟩ := by
  decide

theorem stat_twinTree : (twinTree root).stat (candidate ⟨"/srv/q"⟩) =
    .ok (["srv", "q", ".notter", "config.json"],
      .file (.bytes (twinConfig root).print.toUTF8)) := by
  rw [candidate_twin]
  exact FileTree.Descends.stat
    (.down (by decide) rfl (.down (by decide) rfl (.down (by decide) rfl
      (.last (by decide) rfl (by nofun))))) (by decide) (by decide) rfl

theorem nearest?_twinSession :
    nearest? (twinSession root).tree (twinSession root).place = some ⟨"/srv/q"⟩ := by
  have hfile : (twinTree root).isFile (candidate ⟨"/srv/q"⟩) = true := by
    rw [FileTree.isFile, stat_twinTree]
  rw [place_twinSession, nearest?, Path.ancestors]
  exact List.find?_cons_of_pos hfile

theorem load_twinSession (htext : root.bytes.isText = true) :
    load (twinSession root).tree (candidate ⟨"/srv/q"⟩) = .ok (twinConfig root) :=
  Config.load_printed (by
    rw [show (twinSession root).tree = twinTree root from rfl, FileTree.read, stat_twinTree])
    ⟨Config.isBounded_ofRoot root, htext⟩

/-- The state directory below the source root is removed. -/
theorem exists_run_destroy_twin {place : Place} (htext : root.bytes.isText = true)
    (h : (twinTree root).locate false (twinConfig root).stateDirectory =
      .ok (.found place .directory)) :
    ∃ s', (destroy true).run.run (twinSession root) = (.ok (), s') ∧
      s'.tree = (twinTree root).cut place := by
  have hc : Config.discover (twinSession root).tree (twinSession root).place =
      .ok (twinConfig root) :=
    (Config.discover_of_nearest? (nearest?_twinSession root)).trans (load_twinSession root htext)
  have hremove : (twinSession root).tree.removeDirectory (twinConfig root).stateDirectory =
      .ok ((twinTree root).cut place) := by
    rw [FileTree.removeDirectory, show (twinSession root).tree = twinTree root from rfl, h]
  exact ⟨_, by rw [run_destroy hc, hremove], rfl⟩

/-- The settings after the number of workers is changed. -/
def busyConfig : Config := { twinConfig ⟨"/srv/q"⟩ with workers := 8 }

theorem set_twinConfig : (twinConfig ⟨"/srv/q"⟩).set "workers" "8" = .ok busyConfig := rfl

theorem get_busyConfig : busyConfig.get "workers" = .ok "8" := by
  show Except.ok (Text.decimalString 8) = _
  rw [show Text.decimalString 8 = "8" by decide +kernel]

theorem exists_run_configSet_twin :
    ∃ s', (configSet "workers" "8").run.run (twinSession ⟨"/srv/q"⟩) = (.ok (), s') ∧
      s'.directory = (twinSession ⟨"/srv/q"⟩).directory := by
  have hc : Config.discover (twinSession ⟨"/srv/q"⟩).tree (twinSession ⟨"/srv/q"⟩).place =
      .ok (twinConfig ⟨"/srv/q"⟩) :=
    (Config.discover_of_nearest? (nearest?_twinSession _)).trans (load_twinSession _ (by decide))
  have hsave : busyConfig.save (twinTree ⟨"/srv/q"⟩) =
      .ok ((twinTree ⟨"/srv/q"⟩).put ["srv", "q", ".notter", "config.json"]
        (.file (.bytes busyConfig.print.toUTF8))) := by
    rw [Config.save_eq_ok_iff, Config.configPath_eq,
      show busyConfig.sourceRoot = ⟨"/srv/q"⟩ from rfl, FileTree.write,
      FileTree.locate_of_stat (stat_twinTree _)]
    exact ⟨by decide, rfl⟩
  rw [run_configSet hc set_twinConfig get_busyConfig,
    show (twinSession ⟨"/srv/q"⟩).tree = twinTree ⟨"/srv/q"⟩ from rfl, hsave]
  exact ⟨_, rfl, rfl⟩

/-- In a directory that its settings name, a changed setting is seen and its own state
directory is removed. -/
theorem works_on_found_iff_twin :
    (∃ s₁, (configSet "workers" "8").run.run (twinSession ⟨"/srv/q"⟩) = (.ok (), s₁) ∧
      (configGet "workers").run.run s₁ =
        (.ok (), { s₁ with printed := s₁.printed ++ "8\n" })) ∧
    ∃ s₂, (destroy true).run.run (twinSession ⟨"/srv/q"⟩) = (.ok (), s₂) ∧
      ∀ q : Place, s₂.tree.entryAt? q =
        if (["srv", "q", ".notter"] : Place) <+: q then none
        else (twinTree ⟨"/srv/q"⟩).entryAt? q := by
  obtain ⟨-, -, -, hset, hdestroy⟩ :=
    works_on_found_iff (nearest?_twinSession ⟨"/srv/q"⟩) (load_twinSession ⟨"/srv/q"⟩ (by decide))
  have hroot : (twinConfig ⟨"/srv/q"⟩).sourceRoot.same ⟨"/srv/q"⟩ = true := by decide
  have hstate : (twinConfig ⟨"/srv/q"⟩).stateDirectory = ⟨"/srv/q/.notter"⟩ := by decide
  have hlocate : (twinTree ⟨"/srv/q"⟩).locate false (twinConfig ⟨"/srv/q"⟩).stateDirectory =
      .ok (.found ["srv", "q", ".notter"] .directory) := by
    rw [hstate]
    exact FileTree.Descends.locate
      (.down (by decide) rfl (.down (by decide) rfl (.last (by decide) rfl (by nofun))))
      (by decide) (by decide) rfl false
  constructor
  · obtain ⟨s₁, hrun, hdirectory⟩ := exists_run_configSet_twin
    obtain ⟨c', shown, hc', hshown, -, hseen⟩ := hset _ _ _ hrun
    cases set_twinConfig.symm.trans hc'
    cases get_busyConfig.symm.trans hshown
    exact ⟨s₁, hrun, (hseen hroot).2 s₁ rfl hdirectory⟩
  · obtain ⟨s₂, hrun, -⟩ := exists_run_destroy_twin _ (by decide) hlocate
    obtain ⟨place, entry, hfound, hframe, -⟩ := hdestroy s₂ hrun
    cases hlocate.symm.trans hfound
    exact ⟨s₂, hrun, hframe⟩

/-- A directory whose settings name another source root, as after it was copied: the state
directory that is removed is the one of the other project. -/
theorem destroy_removes_other :
    nearest? (twinSession ⟨"/srv/p"⟩).tree (twinSession ⟨"/srv/p"⟩).place = some ⟨"/srv/q"⟩ ∧
      load (twinSession ⟨"/srv/p"⟩).tree (candidate ⟨"/srv/q"⟩) = .ok (twinConfig ⟨"/srv/p"⟩) ∧
      ∃ s', (destroy true).run.run (twinSession ⟨"/srv/p"⟩) = (.ok (), s') ∧
        s'.tree.entryAt? ["srv", "p", ".notter"] = none ∧
        s'.tree.entryAt? ["srv", "q", ".notter"] = some .directory := by
  have hstate : (twinConfig ⟨"/srv/p"⟩).stateDirectory = ⟨"/srv/p/.notter"⟩ := by decide
  have hlocate : (twinTree ⟨"/srv/p"⟩).locate false (twinConfig ⟨"/srv/p"⟩).stateDirectory =
      .ok (.found ["srv", "p", ".notter"] .directory) := by
    rw [hstate]
    exact FileTree.Descends.locate
      (.down (by decide) rfl (.down (by decide) rfl (.last (by decide) rfl (by nofun))))
      (by decide) (by decide) rfl false
  obtain ⟨s', hrun, hcut⟩ := exists_run_destroy_twin _ (by decide) hlocate
  refine ⟨nearest?_twinSession _, load_twinSession _ (by decide), s', hrun, ?_, ?_⟩
  · rw [hcut, FileTree.entryAt?_cut (by decide), if_pos (by decide)]
  · rw [hcut, FileTree.entryAt?_cut (by decide), if_neg (by decide)]
    rfl

end Marginalia.Run
