import Marginalia.Config.Basic
import Marginalia.Proofs.Discovery.Observation
import Marginalia.Proofs.Files.Presence
import Marginalia.Proofs.Language.Builtin

set_option autoImplicit false

/-!
# Files of the state directory

A scan of a project stays out of the directory that is called as the state directory is,
and no more: it does not ask where the files lie that it comes to.  So it reads a file of
the state directory when a link leads it there, and only then.  A scan of one file does
not even ask for the name.
-/

namespace Marginalia

/-! ## Files of the state directory -/

namespace Config

variable {c : Config} {t : FileTree} {p : Path}

/-- Whether a path leads to a file within the state directory of a project. -/
def HoldsInState (c : Config) (t : FileTree) (p : Path) : Prop :=
  ∃ place content state, t.stat p = .ok (place, .file content) ∧
    t.stat c.stateDirectory = .ok (state, .directory) ∧ state <+: place

/-- Whether a link stands on the way from the source root to a path below it, or the state
directory is itself behind one. -/
def ReachesByLink (c : Config) (t : FileTree) (p : Path) : Prop :=
  ∃ base names, t.stat c.sourceRoot = .ok (base, .directory) ∧
    p = names.foldl Path.child c.sourceRoot ∧
    (t.HasLink base names ∨ t.HasLink base [stateDirectoryName])

/-- Whether a name in the source root is a link to a file. -/
def LinksToFile (c : Config) (t : FileTree) (name : RawText) : Prop :=
  ∃ base target place content, t.stat c.sourceRoot = .ok (base, .directory) ∧
    t.entryAt? (base ++ [name]) = some (.link target) ∧
    t.stat (FileTree.pathOf (base ++ [name])) = .ok (place, .file content)

/-- Without links, a file within the state directory is named below it. -/
theorem HoldsInState.exists_rest {base : Place} {names : List RawText}
    (h : c.HoldsInState t (names.foldl Path.child c.sourceRoot))
    (hroot : t.stat c.sourceRoot = .ok (base, .directory)) (htext : c.sourceRoot.bytes ≠ [])
    (hne : names ≠ []) (hnames : ∀ s ∈ names, Path.IsName s) (hway : ¬t.HasLink base names)
    (hstate : ¬t.HasLink base [stateDirectoryName]) :
    ∃ rest, rest ≠ [] ∧ names = Text.bytes stateDirectoryName :: rest := by
  obtain ⟨place, content, state, hfile, hdirectory, hprefix⟩ := h
  have hown : ∀ s ∈ [Text.bytes stateDirectoryName], Path.IsName s := by decide
  obtain ⟨links, hfollow⟩ := FileTree.exists_follow_names hroot htext hne hnames hfile
  obtain ⟨links', hfollow'⟩ :=
    FileTree.exists_follow_names hroot htext (List.cons_ne_nil _ _) hown hdirectory
  rw [FileTree.place_of_follow_names hnames hway hfollow,
    FileTree.place_of_follow_names hown hstate hfollow', List.prefix_append_right_inj] at hprefix
  obtain ⟨rest, hrest⟩ := hprefix
  refine ⟨rest, ?_, hrest.symm⟩
  rintro rfl
  rw [← hrest, List.append_nil] at hfile
  cases hfile.symm.trans hdirectory

end Config

namespace Discovery.Engine

variable {c : Config} {r : Language.Registry} {e : Engine} {t : FileTree} {tags : List String}
  {finish : List Job → List Job} {p : Path}

theorem eq_of_create? {root : Path} {o : Options} (h : create? root r o = .ok e) :
    e.root = root ∧ e.registry = r ∧ e.exclusions = .ofTexts o.exclude o.skipDirectories := by
  unfold create? at h
  split at h
  · cases h
  · cases h
    exact ⟨rfl, rfl, rfl⟩

/-- A file within the state directory is listed only when a link leads to it. -/
theorem reachesByLink_of_mem_listed
    (he : create? c.sourceRoot r c.discoveryOptions = .ok e) (ht : t.IsProper)
    (hreg : r.IsBuilt) (hdir : t.isDirectory e.root = true) (hp : p ∈ e.listed t)
    (h : c.HoldsInState t p) : c.ReachesByLink t p := by
  obtain ⟨hroot, rfl, hexclusions⟩ := eq_of_create? he
  have htext := FileTree.bytes_ne_of_isDirectory hdir
  obtain ⟨v, hv, hfile, rfl, -⟩ := (mem_listed_iff hreg).1 hp
  obtain ⟨names, hbelow, hnames⟩ := (ht.spreads_walk _ _).below v hv
  rw [List.nil_append] at hbelow
  have hne := ht.names_ne_nil hdir hv hfile
  rw [hroot] at htext hdir
  obtain ⟨base, hbase⟩ := FileTree.exists_stat_of_isDirectory hdir
  refine ⟨base, v.names, hbase, by rw [pathOf, hroot], ?_⟩
  by_contra hlinks
  rw [not_or] at hlinks
  rw [pathOf, hroot] at h
  obtain ⟨rest, hrest, hdown⟩ :=
    h.exists_rest hbase htext hne (hbelow ▸ hnames) hlinks.1 hlinks.2
  have hkeep := ht.keep_of_mem_walk hv hdown hrest
  -- the exclusion of the state directory keeps the walk out of its name
  have hexcludes : e.exclusions.excludes e.root ⟨[stateDirectoryName], true⟩ = true := by
    simp [Exclusions.excludes, hexclusions, Exclusions.ofTexts, Config.discoveryOptions, hroot,
      Config.stateDirectory, Path.same]
  rw [hexcludes] at hkeep
  cases hkeep

/-- What a full scan finds are the comments of the files that it lists. -/
theorem mem_found_iff {found : List Comment} {k : Comment} (ht : t.IsProper)
    (hreg : e.registry.IsBuilt) (hfinish : (finish (e.jobs t)).Perm (e.jobs t))
    (h : e.discover t tags finish = .ok found) :
    k ∈ found ↔ ∃ p ∈ e.listed t, k ∈ e.commentsOf t tags p := by
  obtain ⟨order, hfinished, rfl⟩ := exists_order_of_discover ht hreg hfinish h
  rw [List.mem_flatMap]
  constructor
  · rintro ⟨p, hp, hk⟩
    exact ⟨p, ((hfinished.files p).1 hp).1, hk⟩
  · rintro ⟨p, hp, hk⟩
    refine ⟨p, (hfinished.files p).2 ⟨hp, ?_⟩, hk⟩
    by_contra hnone
    rw [commentsOf_of_no_text fun text htext => hnone ⟨text, htext⟩] at hk
    exact absurd hk List.not_mem_nil

/-- Where no pattern keeps anything out, a link in the source root to a file is followed,
wherever the file lies. -/
theorem mem_listed_of_link (he : create? c.sourceRoot r c.discoveryOptions = .ok e)
    (hreg : r.IsBuilt) (hexclude : c.exclude = []) {name : RawText} {x : String}
    (h : c.LinksToFile t name)
    (hx : (c.sourceRoot.child name).extension? = some x)
    (hwanted : Language.normalExtension x ∈ r.extensions) :
    c.sourceRoot.child name ∈ e.listed t := by
  obtain ⟨base, target, place, content, hroot, hlink, hfile⟩ := h
  obtain ⟨hstart, rfl, hexclusions⟩ := eq_of_create? he
  have htext := FileTree.bytes_ne_of_stat hroot
  have hglobs : e.exclusions = ⟨[], [c.stateDirectory]⟩ := by
    rw [hexclusions, Config.discoveryOptions, hexclude]
    rfl
  have hparts : c.stateDirectory.parts = c.sourceRoot.parts ++ [.name stateDirectoryName] :=
    Path.parts_child htext (by decide)
  have hapart : c.sourceRoot.same c.stateDirectory = false := by
    rw [Path.same, hparts]
    simp
  refine (mem_listed_iff hreg).2 ⟨⟨[name], false⟩, ?_, rfl, by rw [pathOf, hstart]; rfl, x, hx,
    hwanted⟩
  rw [hstart]
  refine FileTree.mem_walk_of_enters hroot (FileTree.mem_namesIn_of_entryAt? hlink)
    (.linkToFile hlink hfile) ?_ ?_
  · simp [Exclusions.excludes, hglobs, hapart]
  · simp [Exclusions.excludes, hglobs]

/-- An engine made for a project scans a file within the state directory only when a link
leads the walk to it, but follows links to such files; and when it is told to scan the
file alone, it does not stay out of the directory at all. -/
theorem scans_state_by_link (he : create? c.sourceRoot r c.discoveryOptions = .ok e)
    (ht : t.IsProper) (hreg : r.IsBuilt) (hfinish : (finish (e.jobs t)).Perm (e.jobs t)) :
    (∀ found, e.discover t tags finish = .ok found →
      (∀ k, k ∈ found ↔ ∃ p ∈ e.listed t, k ∈ e.commentsOf t tags p) ∧
        ∀ p ∈ e.listed t, c.HoldsInState t p → c.ReachesByLink t p) ∧
    (c.exclude = [] → ∀ name x, c.LinksToFile t name →
      (c.sourceRoot.child name).extension? = some x →
      Language.normalExtension x ∈ r.extensions → c.sourceRoot.child name ∈ e.listed t) ∧
    ∀ file, c.HoldsInState t (e.resolve file) →
      e.discoverFile t tags file = .ok (e.todosOf t tags (e.resolve file)) := by
  refine ⟨fun found hfound => ⟨fun k => ?_, fun p hp hstate => ?_⟩, ?_, fun file hstate => ?_⟩
  · exact mem_found_iff ht ((eq_of_create? he).2.1 ▸ hreg) hfinish hfound
  · exact reachesByLink_of_mem_listed he ht hreg (isDirectory_of_discover hfound) hp hstate
  · exact fun hexclude name x => mem_listed_of_link he hreg hexclude
  · obtain ⟨place, content, -, hfile, -⟩ := hstate
    rw [discoverFile_eq, hfile]

/-! ## A source file in the state directory -/

/-- A tree with a source file in the state directory, and a link to it beside. -/
def stashTree : FileTree :=
  { entries :=
      [(["srv"], .directory), (["srv", ".notter"], .directory),
       (["srv", ".notter", "x.py"], .file (.bytes "# TODO a\n".toUTF8)),
       (["srv", "y.py"], .link ⟨".notter/x.py"⟩)] }

/-- The settings of the project. -/
def stashConfig : Config := .ofRoot ⟨"/srv"⟩

/-- The engine of the project. -/
def stashEngine : Engine :=
  { root := ⟨"/srv"⟩, registry := .standard
    exclusions := .ofTexts [] stashConfig.discoveryOptions.skipDirectories
    workers := defaultWorkers, readChunk := defaultReadChunk }

theorem create?_stash :
    create? stashConfig.sourceRoot .standard stashConfig.discoveryOptions = .ok stashEngine := by
  rw [create?, Language.isEmpty_standard]
  rfl

theorem stat_stashTree_root : stashTree.stat ⟨"/srv"⟩ = .ok (["srv"], .directory) :=
  FileTree.Descends.stat (.last (by decide) rfl (by nofun)) (by decide) (by decide) rfl

theorem stat_stashTree_state :
    stashTree.stat stashConfig.stateDirectory = .ok (["srv", ".notter"], .directory) := by
  have hstate : stashConfig.stateDirectory = ⟨"/srv/.notter"⟩ := by decide
  rw [hstate]
  exact FileTree.Descends.stat (.down (by decide) rfl (.last (by decide) rfl (by nofun)))
    (by decide)
    (by decide) rfl

theorem stat_stashTree_file : stashTree.stat ⟨"/srv/.notter/x.py"⟩ =
    .ok (["srv", ".notter", "x.py"], .file (.bytes "# TODO a\n".toUTF8)) :=
  FileTree.Descends.stat
    (.down (by decide) rfl (.down (by decide) rfl (.last (by decide) rfl (by nofun)))) (by decide)
    (by decide) rfl

theorem stat_stashTree_link : stashTree.stat ⟨"/srv/y.py"⟩ =
    .ok (["srv", ".notter", "x.py"], .file (.bytes "# TODO a\n".toUTF8)) := by
  have hsegments : Path.segments ⟨"/srv/y.py"⟩ = ([[], "srv", "y.py"] : Place) := by decide
  have htarget : Path.segments ⟨".notter/x.py"⟩ = ([".notter", "x.py"] : Place) := by decide
  -- the link is followed from the directory that it stands in
  have hdown : stashTree.Descends ["srv"] [".notter", "x.py"]
      (.file (.bytes "# TODO a\n".toUTF8)) :=
    .down (by decide) rfl (.last (by decide) rfl (by nofun))
  have hlocate : stashTree.locate true ⟨"/srv/y.py"⟩ =
      .ok (.found ["srv", ".notter", "x.py"] (.file (.bytes "# TODO a\n".toUTF8))) := by
    rw [FileTree.locate_of_isSound (by decide), FileTree.start?, if_pos (by decide), hsegments]
    refine (FileTree.follow_skipped (.inl rfl)).trans ?_
    rw [FileTree.follow_directory (FileTree.isLookedUp_of_isName (by decide)) rfl,
      if_neg (by decide)]
    refine (FileTree.follow_link_succ (FileTree.isLookedUp_of_isName (by decide)) (by decide) rfl
      rfl).trans ?_
    rw [htarget]
    exact hdown.follow true _
  rw [FileTree.stat, hlocate]

theorem isProper_stashTree : stashTree.IsProper := ⟨by decide, by decide⟩

theorem holdsInState_stash : stashConfig.HoldsInState stashTree ⟨"/srv/.notter/x.py"⟩ :=
  ⟨_, _, _, stat_stashTree_file, stat_stashTree_state, ["x.py"], rfl⟩

theorem resolve_stash : stashEngine.resolve ⟨".notter/x.py"⟩ = ⟨"/srv/.notter/x.py"⟩ := by
  decide

theorem mem_listed_stash : ⟨"/srv/y.py"⟩ ∈ stashEngine.listed stashTree := by
  have hlink : stashConfig.LinksToFile stashTree "y.py" :=
    ⟨["srv"], ⟨".notter/x.py"⟩, _, _, stat_stashTree_root, rfl, stat_stashTree_link⟩
  have hlisted := mem_listed_of_link create?_stash Language.Registry.isBuilt_standard rfl hlink
    (x := "py") (by decide)
    ((Language.Registry.mem_extensions_iff _ _).2 ⟨_, Language.get?_standard_python⟩)
  exact hlisted

/-- What holds of the scans of the project, and what is scanned of the state directory. -/
theorem scans_state_by_link_stash :
    (∀ found, stashEngine.discover stashTree ["TODO"] id = .ok found →
      (∀ k, k ∈ found ↔
          ∃ p ∈ stashEngine.listed stashTree, k ∈ stashEngine.commentsOf stashTree ["TODO"] p) ∧
        ∀ p ∈ stashEngine.listed stashTree, stashConfig.HoldsInState stashTree p →
          stashConfig.ReachesByLink stashTree p) ∧
    stashEngine.discoverFile stashTree ["TODO"] ⟨".notter/x.py"⟩ =
      .ok (stashEngine.todosOf stashTree ["TODO"] ⟨"/srv/.notter/x.py"⟩) := by
  have h := @scans_state_by_link stashConfig .standard stashEngine stashTree ["TODO"] id
    create?_stash isProper_stashTree Language.Registry.isBuilt_standard (.of_eq (id_eq _))
  refine ⟨h.1, ?_⟩
  rw [← resolve_stash]
  exact h.2.2 ⟨".notter/x.py"⟩ (resolve_stash ▸ holdsInState_stash)

/-- A file of the state directory is scanned when it is named, and also when a link to it
is met. -/
theorem scans_stash :
    create? stashConfig.sourceRoot .standard stashConfig.discoveryOptions = .ok stashEngine ∧
      stashConfig.HoldsInState stashTree ⟨"/srv/.notter/x.py"⟩ ∧
      stashEngine.discoverFile stashTree ["TODO"] ⟨".notter/x.py"⟩ =
        .ok [⟨".notter/x.py", "TODO a", 1, .todo, false⟩] ∧
      stashConfig.HoldsInState stashTree ⟨"/srv/y.py"⟩ ∧
      ⟨"/srv/y.py"⟩ ∈ stashEngine.listed stashTree := by
  refine ⟨create?_stash, holdsInState_stash, ?_,
    ⟨_, _, _, stat_stashTree_link, stat_stashTree_state, ["x.py"], rfl⟩, mem_listed_stash⟩
  have hget : stashEngine.registry.get?
      ((Path.extension? ⟨"/srv/.notter/x.py"⟩).getD "") = some .python := by
    rw [show (Path.extension? ⟨"/srv/.notter/x.py"⟩).getD "" = "py" by decide]
    exact Language.get?_standard_python
  have htext : readText stashTree ⟨"/srv/.notter/x.py"⟩ = .ok "# TODO a\n" := by
    rw [readText, FileTree.read, stat_stashTree_file]
    simp only [Content.text?, FileTree.fromUTF8?_toUTF8]
  have hextract : Language.Extractor.python.extract
      (stashEngine.recordedPath ⟨"/srv/.notter/x.py"⟩) "# TODO a\n" (.ofList ["TODO"]) =
        some [⟨".notter/x.py", "TODO a", 1, .todo, false⟩] := by
    decide +kernel
  rw [discoverFile_eq, resolve_stash, stat_stashTree_file, todosOf, commentsOf_eq hget htext,
    hextract]
  rfl

end Discovery.Engine

end Marginalia
