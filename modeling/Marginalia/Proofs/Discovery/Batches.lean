import Marginalia.Discovery.Engine
import Marginalia.Proofs.Files.Route
import Marginalia.Proofs.Discovery.Sources

set_option autoImplicit false

/-!
# The batches of a scan

A scan lists files by extension, reads them in chunks, and hands each that has a text
to a worker; the workers finish in any order.  Whatever the chunks and the order, every
file that is listed and has a text is worked on once, with its own text and by the
extractor for its extension, and what the scan finds are the comments of these files,
file by file in the order in which the work is finished.
-/

namespace Marginalia

/-! ## Roots -/

/-- A path that leads to anything is not empty. -/
theorem FileTree.bytes_ne_of_stat {t : FileTree} {p : Path} {found : Place × Entry}
    (h : t.stat p = .ok found) : p.bytes ≠ [] := by
  intro hempty
  have hnull : p.bytes.contains 0 = false := by
    rw [hempty]
    rfl
  have hstat : t.stat p = .error .notFound := by
    rw [stat, locate, hnull, hempty]
    rfl
  rw [hstat] at h
  cases h

theorem FileTree.bytes_ne_of_isDirectory {t : FileTree} {p : Path} (h : t.isDirectory p = true) :
    p.bytes ≠ [] := by
  obtain ⟨place, hstat⟩ := exists_stat_of_isDirectory h
  exact bytes_ne_of_stat hstat

namespace Discovery.Engine

open Marginalia.Language (Registry normalExtension Extractor)

variable {e : Engine} {t : FileTree} {tags : List String}

/-! ## The work on one file -/

/-- The work on one file, if it has a text and its extension an extractor. -/
def job? (e : Engine) (t : FileTree) (p : Path) : Option Job :=
  match e.registry.get? (p.extension?.getD ""), readText t p with
  | some extractor, .ok text => some ⟨e.recordedPath p, text, extractor⟩
  | _, _ => none

/-- The comments of one file, unless there is no work on it or the work breaks down. -/
def batch? (e : Engine) (t : FileTree) (tags : List String) (p : Path) :
    Option (List Comment) :=
  (e.job? t p).bind (·.comments? (.ofList tags))

/-- The files that the collector lists. -/
def listed (e : Engine) (t : FileTree) : List Path :=
  collected e.exclusions t e.root e.registry.extensions

/-- The files that are worked on, in the order in which they are handed to workers. -/
def handed (e : Engine) (t : FileTree) : List Path :=
  (sources e.exclusions t e.root e.registry.extensions).entries.flatMap fun s =>
    (readable (readAll t e.readChunk s.2)).map (·.1)

/-! ## Jobs and files -/

theorem mem_listed_iff (hreg : e.registry.IsBuilt) {p : Path} :
    p ∈ e.listed t ↔
      ∃ v ∈ t.walk (fun v => !e.exclusions.excludes e.root v) e.root, v.directory = false ∧
        pathOf e.root v = p ∧
          ∃ x, p.extension? = some x ∧ normalExtension x ∈ e.registry.extensions :=
  mem_collected_iff hreg.normal

/-- A file that is listed has an extractor. -/
theorem exists_extractor (hreg : e.registry.IsBuilt) {p : Path} (hp : p ∈ e.listed t) :
    ∃ extractor, e.registry.get? (p.extension?.getD "") = some extractor := by
  obtain ⟨_, _, _, _, x, hx, hwanted⟩ := (mem_listed_iff hreg).1 hp
  rw [hx, Option.getD_some]
  exact (Registry.mem_extensions_iff _ _).1 hwanted

/-- A file of a bucket is looked up under the extension of the bucket. -/
theorem get?_of_mem_filesOf {extension : String} {p : Path}
    (hp : p ∈ filesOf e.exclusions t e.root extension) :
    e.registry.get? (p.extension?.getD "") = e.registry.get? extension := by
  obtain ⟨_, _, _, _, x, hx, rfl⟩ := mem_walkedFiles_iff.1 (mem_filesOf_iff.1 hp)
  rw [hx, Option.getD_some, Registry.get?_normalExtension]

/-- The jobs of one bucket are the work on its files that have a text. -/
theorem map_some_jobsFor (ht : t.IsProper) (hroot : e.root.bytes ≠ []) {extension : String}
    {extractor : Extractor} (hget : e.registry.get? extension = some extractor) :
    (e.jobsFor t extension (filesOf e.exclusions t e.root extension)).map some =
      ((readable (readAll t e.readChunk (filesOf e.exclusions t e.root extension))).map
        (·.1)).map (e.job? t) := by
  have hperm := readable_perm t e.readChunk
    (apart_filesOf (x := e.exclusions) ht hroot extension)
  unfold jobsFor
  rw [hget]
  simp only [List.map_map]
  refine List.map_congr_left fun f hf => ?_
  obtain ⟨p, hp, htext⟩ := List.mem_filterMap.1 (hperm.mem_iff.1 hf)
  obtain ⟨hpath, htext⟩ := textFor?_eq_some_iff.1 htext
  subst hpath
  have hfound := (get?_of_mem_filesOf hp).trans hget
  simp only [Function.comp_apply, job?, hfound, htext]

/-- The jobs are the work on the files that are handed over, in their order. -/
theorem map_some_jobs (ht : t.IsProper) (hroot : e.root.bytes ≠ [])
    (hreg : e.registry.IsBuilt) : (e.jobs t).map some = (e.handed t).map (e.job? t) := by
  rw [jobs, handed, List.map_flatMap, List.map_flatMap]
  refine List.flatMap_congr fun s hs => ?_
  obtain ⟨hwanted, hfiles⟩ := (mem_sources_iff hreg.normal).1 hs
  obtain ⟨extractor, hget⟩ := (Registry.mem_extensions_iff _ _).1 hwanted
  have hfound : e.registry.get? s.1 = some extractor := by
    rw [Registry.get?, hreg.normal _ hwanted]
    exact hget
  rw [hfiles]
  exact map_some_jobsFor ht hroot hfound

theorem map_fst_textFor? (t : FileTree) (paths : List Path) :
    (paths.filterMap (textFor? t)).map (·.1) = paths.filter fun p => (textFor? t p).isSome := by
  have hguard : (fun p => (textFor? t p).map (·.1)) =
      Option.guard fun p => (textFor? t p).isSome := by
    funext p
    cases hread : readText t p <;> simp [textFor?, hread, Option.guard]
  rw [List.map_filterMap, hguard, List.filterMap_eq_filter]

/-- The files that are handed over are those that are listed and have a text. -/
theorem handed_perm (ht : t.IsProper) (hroot : e.root.bytes ≠ []) (hreg : e.registry.IsBuilt) :
    (e.handed t).Perm ((e.listed t).filter fun p => (textFor? t p).isSome) := by
  rw [handed, listed, collected, List.filter_flatMap]
  refine List.Perm.flatMap_left _ fun s hs => ?_
  have hapart : Path.Apart s.2 := by
    rw [((mem_sources_iff hreg.normal).1 hs).2]
    exact apart_filesOf ht hroot s.1
  rw [← map_fst_textFor?]
  exact (readable_perm t e.readChunk hapart).map _

theorem isSome_textFor?_iff {p : Path} :
    (textFor? t p).isSome = true ↔ ∃ text, readText t p = .ok text := by
  rw [Option.isSome_iff_exists]
  constructor
  · rintro ⟨f, hf⟩
    exact ⟨f.2, (textFor?_eq_some_iff.1 hf).2⟩
  · rintro ⟨text, htext⟩
    exact ⟨(p, text), textFor?_eq_some_iff.2 ⟨rfl, htext⟩⟩

/-! ## The scan -/

/-- Another order of results is that of another order of what they are the results of. -/
theorem exists_perm_map {α β : Type} {f : α → β} {l : List β} {l' : List α}
    (h : l.Perm (l'.map f)) : ∃ order : List α, order.Perm l' ∧ l = order.map f := by
  have hmap : List.Forall₂ (fun b a => b = f a) (l'.map f) l' :=
    List.forall₂_map_left_iff.2 (List.forall₂_same.2 fun _ _ => rfl)
  obtain ⟨order, hsame, hperm⟩ := List.perm_comp_forall₂ h hmap
  refine ⟨order, hperm, ?_⟩
  rw [← List.forall₂_eq_eq_eq, List.forall₂_map_right_iff]
  exact hsame

/-- The comments that are gathered are those of the files, in the order in which the
work on them is finished. -/
theorem gather_eq (tags : List String) {finished : List Job} {order : List Path}
    (h : finished.map some = order.map (e.job? t)) :
    gather (.ofList tags) finished = (order.filterMap (e.batch? t tags)).flatten := by
  have hbatches : order.filterMap (e.batch? t tags) =
      (order.map (e.job? t)).filterMap fun job => job.bind (·.comments? (.ofList tags)) := by
    rw [List.filterMap_map]
    rfl
  rw [hbatches, ← h, List.filterMap_map]
  rfl

/-- Whether files stand in the order in which the work of a scan is finished. -/
structure IsFinishedAs (e : Engine) (t : FileTree) (tags : List String) (finished : List Job)
    (order : List Path) : Prop where
  /-- no file is worked on twice -/
  apart : Path.Apart order
  /-- the files are those that the collector lists and that have a text -/
  files : ∀ p, p ∈ order ↔ p ∈ e.listed t ∧ ∃ text, readText t p = .ok text
  /-- what is finished is the work on these files -/
  work : finished.map some = order.map (e.job? t)
  /-- the batch of a file is all that the extractor for its extension finds in its text -/
  batches : ∀ p ∈ order, ∃ extractor text,
    e.registry.get? (p.extension?.getD "") = some extractor ∧ readText t p = .ok text ∧
      e.batch? t tags p = extractor.extract (e.recordedPath p) text (.ofList tags)

/-- Whatever work is finished before other work, the files that it is on stand in the order
in which it is finished. -/
theorem exists_isFinishedAs {finish : List Job → List Job} (hroot : t.isDirectory e.root = true)
    (ht : t.IsProper) (hreg : e.registry.IsBuilt)
    (hfinish : (finish (e.jobs t)).Perm (e.jobs t)) :
    ∃ order, e.IsFinishedAs t tags (finish (e.jobs t)) order := by
  have hne := FileTree.bytes_ne_of_isDirectory hroot
  have hjobs := hfinish.map some
  rw [map_some_jobs ht hne hreg] at hjobs
  obtain ⟨order, hperm, hfinished⟩ := exists_perm_map hjobs
  have hlisted := hperm.trans (handed_perm ht hne hreg)
  have hmem : ∀ p, p ∈ order ↔ p ∈ e.listed t ∧ ∃ text, readText t p = .ok text := by
    intro p
    rw [hlisted.mem_iff, List.mem_filter, isSome_textFor?_iff]
  refine ⟨order, ?_, hmem, hfinished, fun p hp => ?_⟩
  · have hapart := apart_collected (x := e.exclusions) ht hne hreg.normal
    exact Path.Apart.perm (hapart.filter _) hlisted.symm
  · obtain ⟨hp, text, htext⟩ := (hmem p).1 hp
    obtain ⟨extractor, hget⟩ := exists_extractor hreg hp
    refine ⟨extractor, text, hget, htext, ?_⟩
    rw [batch?, job?, hget, htext]
    rfl

theorem IsFinishedAs.discover_eq {finish : List Job → List Job} {order : List Path}
    (h : e.IsFinishedAs t tags (finish (e.jobs t)) order) (hroot : t.isDirectory e.root = true) :
    e.discover t tags finish = .ok (order.filterMap (e.batch? t tags)).flatten := by
  rw [discover, if_pos hroot, gather_eq tags h.work]

/-- A scan of a tree finds one batch for each file that the collector lists and that has
a text, unless the work on it breaks down, and the batches are in the order in which the
work is finished. -/
theorem discover_eq_batches {finish : List Job → List Job} (hroot : t.isDirectory e.root = true)
    (ht : t.IsProper) (hreg : e.registry.IsBuilt)
    (hfinish : (finish (e.jobs t)).Perm (e.jobs t)) :
    ∃ order, e.IsFinishedAs t tags (finish (e.jobs t)) order ∧
      e.discover t tags finish = .ok (order.filterMap (e.batch? t tags)).flatten := by
  obtain ⟨order, hfinished⟩ := exists_isFinishedAs hroot ht hreg hfinish
  exact ⟨order, hfinished, hfinished.discover_eq hroot⟩

/-! ## A small tree

A directory with two files, one of which is no text, scanned in chunks of no size. -/

/-- The small tree. -/
def smallTree : FileTree :=
  { entries :=
      [(["srv"], .directory), (["srv", "a.c"], .file (.bytes "// TODO a".toUTF8)),
       (["srv", "b.c"], .file (.bytes ⟨#[0xff]⟩))] }

/-- The engine for the small tree. -/
def smallEngine : Engine :=
  { root := ⟨"/srv"⟩, registry := .standard, exclusions := ⟨[], []⟩, workers := 1, readChunk := 0 }

theorem isDirectory_smallTree : smallTree.isDirectory smallEngine.root = true := by
  have hstat : smallTree.stat ⟨"/srv"⟩ = .ok (["srv"], .directory) :=
    FileTree.Descends.stat (.last (by decide) rfl (by nofun)) (by decide) (by decide) rfl
  rw [FileTree.isDirectory, show smallEngine.root = ⟨"/srv"⟩ from rfl, hstat]

theorem isProper_smallTree : smallTree.IsProper :=
  ⟨by decide, by decide⟩

/-- The scan of the small tree, with the work finished backwards. -/
theorem discover_eq_batches_smallTree :
    ∃ order, smallEngine.IsFinishedAs smallTree ["TODO"] (smallEngine.jobs smallTree).reverse
        order ∧
      smallEngine.discover smallTree ["TODO"] List.reverse =
        .ok (order.filterMap (smallEngine.batch? smallTree ["TODO"])).flatten :=
  discover_eq_batches isDirectory_smallTree isProper_smallTree Registry.isBuilt_standard
    (List.reverse_perm _)

end Discovery.Engine

end Marginalia
