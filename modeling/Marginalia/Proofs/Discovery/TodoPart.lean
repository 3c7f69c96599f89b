import Marginalia.Proofs.Discovery.StateDirectory

set_option autoImplicit false

/-!
# A scan of one file is a part of the full scan

A full scan goes by the places that its walk comes to, takes a file from the bucket of its
extension and reads many at a time; a scan of one file goes by a path and takes the extension
as it is written.  They come to the same file, extractor and text, so a scan of a listed file
alone finds the comments with a tag that the full scan has of it, in their order.  These are
all that the full scan records under the path of the file, unless it records another file
under it, which needs names that are no texts.
-/

namespace Marginalia.Discovery.Engine

variable {e : Engine} {t : FileTree} {tags : List String} {p : Path}

/-- The comments with a tag that are recorded under a path. -/
def todosUnder (found : List Comment) (filepath : String) : List Comment :=
  found.filter fun k => k.kind == .todo && k.filepath == filepath

/-! ## The files of the full scan -/

/-- A listed file is not missed when it is scanned alone. -/
theorem stat_ne_notFound_of_mem_listed (ht : t.IsProper) (hreg : e.registry.IsBuilt)
    (habsolute : e.root.isAbsolute = true) (hdir : t.isDirectory e.root = true)
    (hp : p ∈ e.listed t) : t.stat p ≠ .error .notFound := by
  obtain ⟨v, hv, hfile, rfl, -⟩ := (mem_listed_iff hreg).1 hp
  obtain ⟨base, hbase⟩ := FileTree.exists_stat_of_isDirectory hdir
  exact FileTree.stat_ne_notFound_of_mem_walk ht habsolute hbase hv hfile

theorem discoverFile_of_mem_listed (ht : t.IsProper) (hreg : e.registry.IsBuilt)
    (habsolute : e.root.isAbsolute = true) (hdir : t.isDirectory e.root = true)
    (hp : p ∈ e.listed t) {file : Path} (hfile : e.resolve file = p) :
    e.discoverFile t tags file = .ok (e.todosOf t tags p) := by
  have hthere := stat_ne_notFound_of_mem_listed ht hreg habsolute hdir hp
  rw [discoverFile_eq, hfile]
  split
  · exact absurd ‹_› hthere
  · rfl

theorem isDirectory_stashTree : stashTree.isDirectory stashEngine.root = true := by
  rw [FileTree.isDirectory, show stashEngine.root = ⟨"/srv"⟩ from rfl, stat_stashTree_root]

/-- A file of the project whose name begins with a byte that is no text. -/
def garbledName (first : UInt8) : RawText := first :: ".py"

/-- A tree with two source files whose names are shown alike. -/
def garbledTree : FileTree :=
  { entries :=
      [(["srv"], .directory),
       (["srv", garbledName 0xfe], .file (.bytes "# TODO a\n".toUTF8)),
       (["srv", garbledName 0xff], .file (.bytes "# TODO b\n".toUTF8))] }

/-- An engine that keeps nothing out. -/
def garbledEngine : Engine :=
  { root := ⟨"/srv"⟩, registry := .standard, exclusions := .ofTexts [] []
    workers := defaultWorkers, readChunk := defaultReadChunk }

/-- The path of a file of the project. -/
def garbledPath (first : UInt8) : Path := garbledEngine.root.child (garbledName first)

theorem isProper_garbledTree : garbledTree.IsProper := ⟨by decide, by decide⟩

theorem stat_garbledTree_root : garbledTree.stat ⟨"/srv"⟩ = .ok (["srv"], .directory) :=
  FileTree.Descends.stat (.last (by decide) rfl (by nofun)) (by decide) (by decide) rfl

theorem isDirectory_garbledTree : garbledTree.isDirectory garbledEngine.root = true := by
  rw [FileTree.isDirectory, show garbledEngine.root = ⟨"/srv"⟩ from rfl, stat_garbledTree_root]

section Garbled

variable {first : UInt8} {text : String} (hfirst : first = 0xfe ∨ first = 0xff)
  (hentry : garbledTree.entryAt? ["srv", garbledName first] = some (.file (.bytes text.toUTF8)))

include hfirst hentry

theorem mem_listed_garbled : garbledPath first ∈ garbledEngine.listed garbledTree := by
  have hextension : (garbledPath first).extension? = some "py" := by
    rcases hfirst with rfl | rfl <;> decide
  refine (mem_listed_iff Language.Registry.isBuilt_standard).2
    ⟨⟨[garbledName first], false⟩, ?_, rfl, rfl, "py", hextension,
      (Language.Registry.mem_extensions_iff _ _).2 ⟨_, Language.get?_standard_python⟩⟩
  exact FileTree.mem_walk_of_enters stat_garbledTree_root
    (FileTree.mem_namesIn_of_entryAt? hentry) (.file hentry) rfl rfl

theorem commentsOf_garbled {comments : List Comment}
    (hextract : Language.Extractor.python.extract "\ufffd.py" text (.ofList ["TODO"]) =
      some comments) :
    garbledEngine.commentsOf garbledTree ["TODO"] (garbledPath first) = comments := by
  have hstat : garbledTree.stat (garbledPath first) =
      .ok (["srv", garbledName first], .file (.bytes text.toUTF8)) := by
    have hname : Path.IsName (garbledName first) ∧ (garbledName first).length ≤ maxNameLength := by
      rcases hfirst with rfl | rfl <;> decide
    refine FileTree.Descends.stat (.down (by decide) rfl (.last hname hentry (by nofun))) ?_ ?_ ?_
    all_goals rcases hfirst with rfl | rfl <;> decide
  have hget : garbledEngine.registry.get? ((garbledPath first).extension?.getD "") =
      some .python := by
    have hextension : (garbledPath first).extension?.getD "" = "py" := by
      rcases hfirst with rfl | rfl <;> decide
    rw [hextension]
    exact Language.get?_standard_python
  have htext : readText garbledTree (garbledPath first) = .ok text := by
    rw [readText, FileTree.read, hstat]
    simp only [Content.text?, FileTree.fromUTF8?_toUTF8]
  have hrecorded : garbledEngine.recordedPath (garbledPath first) = "\ufffd.py" := by
    rcases hfirst with rfl | rfl <;> decide
  rw [commentsOf_eq hget htext, hrecorded, hextract]
  rfl

end Garbled

/-- The two files are recorded under one path.  So the full scan has comments with a tag under
it that a scan of one of the files alone, by whatever path, does not find. -/
theorem discoverFile_lacks_garbled :
    ∃ found, garbledEngine.discover garbledTree ["TODO"] id = .ok found ∧
      (∀ first, first = 0xfe ∨ first = 0xff →
        garbledPath first ∈ garbledEngine.listed garbledTree ∧
          garbledEngine.recordedPath (garbledPath first) = "\ufffd.py") ∧
      garbledEngine.discoverFile garbledTree ["TODO"] ⟨garbledName 0xfe⟩ =
        .ok [⟨"\ufffd.py", "TODO a", 1, .todo, false⟩] ∧
      garbledEngine.discoverFile garbledTree ["TODO"] (garbledPath 0xfe) =
        .ok [⟨"\ufffd.py", "TODO a", 1, .todo, false⟩] ∧
      ⟨"\ufffd.py", "TODO b", 1, .todo, false⟩ ∈ todosUnder found "\ufffd.py" := by
  have hlisted : ∀ first, first = 0xfe ∨ first = 0xff →
      garbledPath first ∈ garbledEngine.listed garbledTree := by
    rintro first (rfl | rfl)
    · exact @mem_listed_garbled 0xfe "# TODO a\n" (.inl rfl) rfl
    · exact @mem_listed_garbled 0xff "# TODO b\n" (.inr rfl) rfl
  have hone := @commentsOf_garbled 0xfe "# TODO a\n" (.inl rfl) rfl
    [⟨"\ufffd.py", "TODO a", 1, .todo, false⟩] (by decide +kernel)
  have hother := @commentsOf_garbled 0xff "# TODO b\n" (.inr rfl) rfl
    [⟨"\ufffd.py", "TODO b", 1, .todo, false⟩] (by decide +kernel)
  have htodos : garbledEngine.todosOf garbledTree ["TODO"] (garbledPath 0xfe) =
      [⟨"\ufffd.py", "TODO a", 1, .todo, false⟩] := by
    rw [todosOf, hone]
    rfl
  refine ⟨_, if_pos isDirectory_garbledTree, fun first hfirst => ⟨hlisted first hfirst, ?_⟩, ?_,
    ?_, ?_⟩
  · rcases hfirst with rfl | rfl <;> decide
  · rw [← htodos]
    exact discoverFile_of_mem_listed isProper_garbledTree Language.Registry.isBuilt_standard rfl
      isDirectory_garbledTree (hlisted 0xfe (.inl rfl)) (by decide)
  · rw [← htodos]
    exact discoverFile_of_mem_listed isProper_garbledTree Language.Registry.isBuilt_standard rfl
      isDirectory_garbledTree (hlisted 0xfe (.inl rfl)) (by decide)
  · refine List.mem_filter.2 ⟨?_, by decide⟩
    refine (mem_found_iff isProper_garbledTree Language.Registry.isBuilt_standard
      (.of_eq (id_eq _)) (if_pos isDirectory_garbledTree)).2 ⟨_, hlisted 0xff (.inr rfl), ?_⟩
    rw [hother]
    exact List.mem_singleton.2 rfl

end Marginalia.Discovery.Engine
