import Marginalia.Discovery.Sources
import Marginalia.Proofs.Discovery.Reading
import Marginalia.Proofs.Files.Walk
import Marginalia.Proofs.Language.Registry
import Mathlib.Data.List.Perm.Basic

set_option autoImplicit false

/-!
# What the collector lists

The collector lists the files that the walk comes to, those of a wanted extension, and
no two of them are the same path.
-/

namespace Marginalia.Discovery

open Marginalia.Language

variable {x : Exclusions} {t : FileTree} {root : Path}

/-! ## Files of the walk -/

/-- Different ways lead to different paths. -/
theorem same_pathOf {v v' : FileTree.Visit} (hroot : root.bytes ≠ []) (hv : v.IsBelow [])
    (hv' : v'.IsBelow []) (hne : v.names ≠ v'.names) :
    (pathOf root v).same (pathOf root v') = false := by
  obtain ⟨names, hnames, his⟩ := hv
  obtain ⟨names', hnames', his'⟩ := hv'
  rw [List.nil_append] at hnames hnames'
  rw [← hnames] at his
  rw [← hnames'] at his'
  rw [Path.same, pathOf, pathOf, Path.parts_foldl_child hroot his,
    Path.parts_foldl_child hroot his',
    beq_eq_false_iff_ne]
  refine fun heq => hne ?_
  exact List.map_injective_iff.2 (fun _ _ h => Path.Part.name.inj h) (List.append_cancel_left heq)

/-- The file of a visit under the extension it is looked up by, if it has one. -/
def fileOf? (root : Path) (v : FileTree.Visit) : Option (String × Path) :=
  if v.directory then none
  else (pathOf root v).extension?.map fun e => (normalExtension e, pathOf root v)

theorem fileOf?_eq_some_iff {v : FileTree.Visit} {extension : String} {p : Path} :
    fileOf? root v = some (extension, p) ↔
      v.directory = false ∧ pathOf root v = p ∧
        ∃ e, p.extension? = some e ∧ normalExtension e = extension := by
  unfold fileOf?
  split
  · rename_i hdirectory
    simp [hdirectory]
  · rename_i hdirectory
    rw [Option.map_eq_some_iff]
    constructor
    · rintro ⟨e, he, heq⟩
      cases heq
      exact ⟨by simpa using hdirectory, rfl, e, he, rfl⟩
    · rintro ⟨-, rfl, e, he, rfl⟩
      exact ⟨e, he, rfl⟩

theorem mem_walkedFiles_iff {extension : String} {p : Path} :
    (extension, p) ∈ walkedFiles x t root ↔
      ∃ v ∈ t.walk (fun v => !x.excludes root v) root, v.directory = false ∧ pathOf root v = p ∧
        ∃ e, p.extension? = some e ∧ normalExtension e = extension := by
  rw [show walkedFiles x t root =
    (t.walk (fun v => !x.excludes root v) root).filterMap (fileOf? root) from rfl,
    List.mem_filterMap]
  simp only [fileOf?_eq_some_iff]

/-- No two files of the walk are the same path. -/
theorem apart_walkedFiles (ht : t.IsProper) (hroot : root.bytes ≠ []) :
    (walkedFiles x t root).Pairwise fun a b => a.2.same b.2 = false := by
  have hspreads := ht.spreads_walk (fun v => !x.excludes root v) root
  refine List.Pairwise.filterMap (fileOf? root) ?_
    (List.Pairwise.and_mem.1 (List.pairwise_map.1 hspreads.ways))
  rintro v v' ⟨hv, hv', hne⟩ ⟨_, p⟩ hp ⟨_, p'⟩ hp'
  obtain ⟨-, rfl, -⟩ := fileOf?_eq_some_iff.1 hp
  obtain ⟨-, rfl, -⟩ := fileOf?_eq_some_iff.1 hp'
  exact same_pathOf hroot (hspreads.below v hv) (hspreads.below v' hv') hne

/-! ## Files by extension -/

/-- The files of the walk that have an extension, in the order of paths. -/
def filesOf (x : Exclusions) (t : FileTree) (root : Path) (extension : String) : List Path :=
  (((walkedFiles x t root).filter (·.1 == extension)).map (·.2)).mergeSort Path.notAfter

theorem mem_filesOf_iff {extension : String} {p : Path} :
    p ∈ filesOf x t root extension ↔ (extension, p) ∈ walkedFiles x t root := by
  rw [filesOf, (List.mergeSort_perm _ _).mem_iff, List.mem_map]
  constructor
  · rintro ⟨⟨e, q⟩, hmem, rfl⟩
    obtain ⟨hmem, he⟩ := List.mem_filter.1 hmem
    exact beq_iff_eq.1 he ▸ hmem
  · intro hmem
    exact ⟨(extension, p), List.mem_filter.2 ⟨hmem, beq_self_eq_true _⟩, rfl⟩

theorem apart_filesOf (ht : t.IsProper) (hroot : root.bytes ≠ []) (extension : String) :
    Path.Apart (filesOf x t root extension) := by
  have hfiles := (apart_walkedFiles (x := x) ht hroot).filter (·.1 == extension)
  exact Path.Apart.perm (List.pairwise_map.2 hfiles) (List.mergeSort_perm _ _).symm

/-- The collector has an entry for each extension that is asked for, with the files of the
walk that have it. -/
theorem mem_entries_sources_iff {extensions : List String} {s : String × List Path} :
    s ∈ (sources x t root extensions).entries ↔
      s.1 ∈ extensions.map normalExtension ∧ s.2 = filesOf x t root s.1 := by
  obtain ⟨extension, files⟩ := s
  rw [Index.mem_entries_iff, show sources x t root extensions = Index.ofList
    ((extensions.map normalExtension).map fun e => (e, filesOf x t root e)) from rfl,
    Index.get?_ofList_keyed]
  split
  · rename_i hasked
    rw [Option.some.injEq, eq_comm]
    exact (and_iff_right hasked).symm
  · rename_i hnot
    exact iff_of_false nofun fun h => hnot h.1

theorem mem_keys_sources_iff {extensions : List String} {extension : String} :
    extension ∈ (sources x t root extensions).keys ↔
      extension ∈ extensions.map normalExtension := by
  rw [sources, Index.mem_keys_ofList, List.map_map]
  exact iff_of_eq (congrArg (extension ∈ ·) (List.map_id _))

theorem map_normalExtension {extensions : List String}
    (hnormal : ∀ e ∈ extensions, normalExtension e = e) :
    extensions.map normalExtension = extensions :=
  (List.map_congr_left hnormal).trans (List.map_id' _)

/-- The entries for extensions that are in the form in which they are looked up. -/
theorem mem_sources_iff {extensions : List String}
    (hnormal : ∀ e ∈ extensions, normalExtension e = e) {s : String × List Path} :
    s ∈ (sources x t root extensions).entries ↔
      s.1 ∈ extensions ∧ s.2 = filesOf x t root s.1 := by
  rw [mem_entries_sources_iff, map_normalExtension hnormal]

/-- All files that the collector lists. -/
def collected (x : Exclusions) (t : FileTree) (root : Path) (extensions : List String) :
    List Path :=
  (sources x t root extensions).entries.flatMap (·.2)

/-- A file is listed exactly if the walk comes to it and its extension is wanted. -/
theorem mem_collected_iff {extensions : List String}
    (hnormal : ∀ e ∈ extensions, normalExtension e = e) {p : Path} :
    p ∈ collected x t root extensions ↔
      ∃ v ∈ t.walk (fun v => !x.excludes root v) root, v.directory = false ∧ pathOf root v = p ∧
        ∃ e, p.extension? = some e ∧ normalExtension e ∈ extensions := by
  simp only [collected, List.mem_flatMap, mem_sources_iff hnormal]
  constructor
  · rintro ⟨⟨extension, files⟩, ⟨hwanted, hfiles⟩, hp⟩
    simp only at hwanted hfiles hp
    rw [hfiles, mem_filesOf_iff, mem_walkedFiles_iff] at hp
    obtain ⟨v, hv, hfile, hpath, e, he, rfl⟩ := hp
    exact ⟨v, hv, hfile, hpath, e, he, hwanted⟩
  · rintro ⟨v, hv, hfile, hpath, e, he, hwanted⟩
    refine ⟨(normalExtension e, filesOf x t root (normalExtension e)), ⟨hwanted, rfl⟩, ?_⟩
    exact mem_filesOf_iff.2 (mem_walkedFiles_iff.2 ⟨v, hv, hfile, hpath, e, he, rfl⟩)

/-- No file is listed twice. -/
theorem apart_collected (ht : t.IsProper) (hroot : root.bytes ≠ []) {extensions : List String}
    (hnormal : ∀ e ∈ extensions, normalExtension e = e) :
    Path.Apart (collected x t root extensions) := by
  refine List.pairwise_flatMap.2 ⟨fun s hs => ?_, ?_⟩
  · rw [((mem_sources_iff hnormal).1 hs).2]
    exact apart_filesOf ht hroot s.1
  · refine (List.Pairwise.and_mem.1 (sources x t root extensions).rising).imp ?_
    rintro s s' ⟨hs, hs', hlt⟩ p hp p' hp'
    rw [((mem_sources_iff hnormal).1 hs).2, mem_filesOf_iff] at hp
    rw [((mem_sources_iff hnormal).1 hs').2, mem_filesOf_iff] at hp'
    have hne : (s.1, p) ≠ (s'.1, p') := fun heq =>
      String.ne_of_lt hlt (Prod.mk.inj heq).1
    have : Std.Symm fun a b : String × Path => a.2.same b.2 = false :=
      ⟨fun a b hab => (Path.same_comm b.2 a.2).trans hab⟩
    have hsame := (apart_walkedFiles ht hroot).forall hp hp' hne
    exact hsame

end Marginalia.Discovery
