import Marginalia.Proofs.Discovery.Batches
import Marginalia.Proofs.Files.Overwrite
import Marginalia.Proofs.Files.Ways
import Marginalia.Proofs.Text.Bytes
import Mathlib.Data.List.Sort

set_option autoImplicit false

/-!
# Languages that are registered

An extension is brought into its normal form when an extractor is registered, when the
collector makes its lists and when an extractor is looked up.  Since a normal form is its own,
the last extractor that was registered for an extension is found however the extension is
written, and a scan works with it on every file of the extension.
-/

namespace Marginalia

open Marginalia.Text

namespace Language.Registry

/-! ## Looking up -/

/-- What a registry tells of the registrations that made it. -/
structure Tells (r : Registry) (calls : List (String × Extractor)) : Prop where
  /-- the extractor that was registered last is found, however the extension is written -/
  found : ∀ extension x, r.get? extension = some x ↔ IsLast calls extension x
  missing : ∀ extension,
    r.get? extension = none ↔ ∀ call ∈ calls, normalExtension call.1 ≠ normalExtension extension
  /-- the normal forms are listed of what was registered -/
  listed : ∀ extension,
    extension ∈ r.extensions ↔ ∃ call ∈ calls, normalExtension call.1 = extension
  /-- the extensions that are listed rise strictly by their bytes -/
  rising : r.extensions.Pairwise fun a b => bytes a < bytes b
  size : r.extensions.length = r.size
  /-- an extension that is listed is in normal form, and has an extractor -/
  stable : ∀ extension ∈ r.extensions,
    normalExtension extension = extension ∧ (r.get? extension).isSome

theorem tells_registered (calls : List (String × Extractor)) :
    (registered calls).Tells calls where
  found _ _ := get?_registered_eq_some_iff
  missing _ := get?_registered_eq_none_iff
  listed _ := mem_extensions_registered_iff
  rising := (Index.pairwise_keys _).imp fun hlt => (bytes_lt_iff _ _).2 hlt
  size := List.length_map _
  stable _ := (isBuilt_registered calls).mem_extensions_iff_isSome.1

end Language.Registry

/-! ## Scanning -/

namespace Discovery.Engine

open Marginalia.Language (Registry Extractor normalExtension)
open Marginalia.Language.Registry (IsLast registered)

variable {e : Engine} {t : FileTree} {calls : List (String × Extractor)}

/-- Whether the work of a scan leaves out no file of a language that is registered. -/
structure WorksOnAll (e : Engine) (t : FileTree) (calls : List (String × Extractor)) : Prop where
  /-- the collector makes one list for each extension of the registry -/
  buckets : (sources e.exclusions t e.root e.registry.extensions).keys = e.registry.extensions
  /-- a file that the walk comes to and that has a text is worked on with the extractor that
  was registered last for its extension -/
  work : ∀ v ∈ t.walk (fun v => !e.exclusions.excludes e.root v) e.root, v.directory = false →
    ∀ extension, (pathOf e.root v).extension? = some extension →
      ∀ x, IsLast calls extension x → ∀ text, readText t (pathOf e.root v) = .ok text →
        ⟨e.recordedPath (pathOf e.root v), text, x⟩ ∈ e.jobs t

theorem keys_sources (hreg : e.registry.IsBuilt) :
    (sources e.exclusions t e.root e.registry.extensions).keys = e.registry.extensions := by
  refine (Index.pairwise_keys _).eq_of_mem_iff (Index.pairwise_keys _) fun extension => ?_
  rw [mem_keys_sources_iff, map_normalExtension hreg.normal]

/-- The work on a file that is listed and has a text is among the jobs. -/
theorem mem_jobs_of_job? (ht : t.IsProper) (hroot : e.root.bytes ≠ []) (hreg : e.registry.IsBuilt)
    {p : Path} (hlisted : p ∈ e.listed t) (htext : ∃ text, readText t p = .ok text) {job : Job}
    (hjob : e.job? t p = some job) : job ∈ e.jobs t := by
  have hhanded : p ∈ e.handed t :=
    (handed_perm ht hroot hreg).mem_iff.2 (List.mem_filter.2 ⟨hlisted, isSome_textFor?_iff.2 htext⟩)
  have hmem : some job ∈ (e.jobs t).map some := by
    rw [map_some_jobs ht hroot hreg, ← hjob]
    exact List.mem_map_of_mem hhanded
  exact (List.mem_map_of_injective fun _ _ => Option.some.inj).1 hmem

theorem worksOnAll (hcalls : e.registry = registered calls) (ht : t.IsProper)
    (hroot : t.isDirectory e.root = true) : e.WorksOnAll t calls := by
  have hreg : e.registry.IsBuilt := hcalls ▸ Registry.isBuilt_registered calls
  refine ⟨keys_sources hreg, fun v hv hfile extension hextension x hlast text htext => ?_⟩
  have hget : e.registry.get? extension = some x :=
    hcalls ▸ Registry.get?_registered_eq_some_iff.2 hlast
  have hlisted : pathOf e.root v ∈ e.listed t :=
    (mem_listed_iff hreg).2 ⟨v, hv, hfile, rfl, extension, hextension,
      (Registry.mem_extensions_iff _ _).2 ⟨x, hget⟩⟩
  refine mem_jobs_of_job? ht (FileTree.bytes_ne_of_isDirectory hroot) hreg hlisted ⟨text, htext⟩ ?_
  rw [job?, hextension, Option.getD_some, hget, htext]

/-- Whatever is registered, and however often, the last extractor for an extension is found
under each way to write the extension, and a scan works with it on every file of the
extension that it comes to. -/
theorem registered_lookups_stable (calls : List (String × Extractor)) :
    (registered calls).Tells calls ∧
      ∀ (e : Engine) (t : FileTree), e.registry = registered calls → t.IsProper →
        t.isDirectory e.root = true → e.WorksOnAll t calls :=
  ⟨Registry.tells_registered calls, fun _ _ => worksOnAll⟩

/-! ## A language that is registered twice -/

/-- The second registration takes the place of the first. -/
def twoCalls : List (String × Extractor) := [("c", .python), ("..C", .broken .python)]

/-- The engine for the small tree, with these languages. -/
def twiceEngine : Engine := { smallEngine with registry := registered twoCalls }

theorem isLast_twoCalls {extension : String} (h : normalExtension extension = "c") :
    IsLast twoCalls extension (.broken .python) := by
  have hdots : normalExtension "..C" = "c" := by decide +kernel
  exact ⟨[("c", .python)], "..C", [], rfl, hdots.trans h.symm, nofun⟩

theorem stat_smallTree_file :
    smallTree.stat ⟨"/srv/a.c"⟩ = .ok (["srv", "a.c"], .file (.bytes "// TODO a".toUTF8)) :=
  FileTree.Descends.stat (.down (by decide) rfl (.last (by decide) rfl (by nofun))) (by decide)
    (by decide) rfl

/-- The file of the tree that has a text is worked on with the second extractor. -/
theorem registered_lookups_stable_twice :
    (registered twoCalls).get? "C" = some (.broken .python) ∧
      (registered twoCalls).get? "h" = none ∧ (registered twoCalls).extensions = ["c"] ∧
      ⟨"a.c", "// TODO a", .broken .python⟩ ∈ twiceEngine.jobs smallTree := by
  obtain ⟨htells, hscans⟩ := registered_lookups_stable twoCalls
  have hroot : smallTree.stat twiceEngine.root = .ok (["srv"], .directory) :=
    FileTree.Descends.stat (.last (by decide) rfl (by nofun)) (by decide) (by decide) rfl
  have hpath : pathOf twiceEngine.root ⟨["a.c"], false⟩ = ⟨"/srv/a.c"⟩ := by decide
  have hwalk : ⟨["a.c"], false⟩ ∈ smallTree.walk
      (fun v => !twiceEngine.exclusions.excludes twiceEngine.root v) twiceEngine.root := by
    refine (FileTree.mem_walk_iff hroot).2 ⟨.down (.file rfl) .here, fun front _ => ?_⟩
    simp [twiceEngine, smallEngine, Exclusions.excludes]
  have htext : readText smallTree (pathOf twiceEngine.root ⟨["a.c"], false⟩) =
      .ok "// TODO a" := by
    rw [hpath, readText, FileTree.read, stat_smallTree_file]
    simp only [Content.text?, FileTree.fromUTF8?_toUTF8]
  have hsmall : normalExtension "c" = "c" := by decide +kernel
  have hcapital : normalExtension "C" = "c" := by decide +kernel
  have hheader : ∀ call ∈ twoCalls, normalExtension call.1 ≠ normalExtension "h" := by
    decide +kernel
  have hall := hscans twiceEngine smallTree rfl isProper_smallTree isDirectory_smallTree
  have hjob := hall.work _ hwalk rfl "c" (by decide) _ (isLast_twoCalls hsmall) _ htext
  rw [hpath] at hjob
  have hlist : (registered twoCalls).extensions = ["c"] := by decide +kernel
  exact ⟨(htells.found "C" _).2 (isLast_twoCalls hcapital), (htells.missing "h").2 hheader, hlist,
    hjob⟩

end Discovery.Engine

end Marginalia
