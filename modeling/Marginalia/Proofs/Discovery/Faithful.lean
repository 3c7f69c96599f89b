import Marginalia.Proofs.Discovery.TodoPart
import Marginalia.Proofs.Path.Relative

set_option autoImplicit false

/-!
# How faithful recorded paths are

The path recorded for a file tells its parts below the root as they are shown, and joined to
the root it leads back to the file if they are texts.  So no two files that a scan lists go by
the same recorded path unless their names are shown alike, and a comment that is found leads
back to the file that it was found in if the names of the file are texts.
-/

namespace Marginalia.Discovery.Engine

open Marginalia.Path (Part)

/-- Paths that begin with the parts of the root, whatever the root is, have the same recorded
path if and only if their parts below it are shown alike, dots aside; and if these are texts,
if and only if they are the same.  A recorded path is joined to the root into a path that is
recorded in the same way, and that has the same parts, dots aside, exactly if these are texts.
Of two files that a scan lists and whose names are texts each has a recorded path of its own.
The path on a comment is recorded for the file that the comment is found in, and leads to it if
the names of the file are texts. -/
theorem recordedPath_tells_file (e : Engine) {p q : Path} {below below' : List Part}
    (hp : p.parts = e.root.parts ++ below) (hq : q.parts = e.root.parts ++ below') :
    (e.recordedPath p = e.recordedPath q ↔
      (below.filter (· != .here)).map Part.reread = (below'.filter (· != .here)).map Part.reread) ∧
    (e.root.IsTextBelow p → e.root.IsTextBelow q →
      (e.recordedPath p = e.recordedPath q ↔
        below.filter (· != .here) = below'.filter (· != .here))) ∧
    e.recordedPath (e.root.join ⟨e.recordedPath p⟩) = e.recordedPath p ∧
    ((e.root.join ⟨e.recordedPath p⟩).parts.filter (· != .here) = p.parts.filter (· != .here) ↔
      e.root.IsTextBelow p) ∧
    ∀ t tags finish found, t.IsProper → e.registry.IsBuilt → e.registry.RecordPaths →
      (finish (e.jobs t)).Perm (e.jobs t) → e.discover t tags finish = .ok found →
        (∀ f ∈ e.listed t, ∀ g ∈ e.listed t, e.root.IsTextBelow f → e.root.IsTextBelow g →
          f ≠ g → e.recordedPath f ≠ e.recordedPath g) ∧
        ∀ k ∈ found, ∃ f ∈ e.listed t, k ∈ e.commentsOf t tags f ∧ e.recordedPath f = k.filepath ∧
          (e.root.IsTextBelow f → e.resolve ⟨k.filepath⟩ = f) := by
  have hreread : ∀ {ps : List Part}, (∀ part ∈ ps, part.isText = true) →
      (ps.filter (· != .here)).map Part.reread = ps.filter (· != .here) := fun h =>
    Path.map_reread_eq_self_iff.2 (Path.forall_isText_filter_iff.2 h)
  have hiff : e.recordedPath p = e.recordedPath q ↔ _ := Path.relativeTo_eq_iff hp hq
  refine ⟨hiff, fun hptext hqtext => ?_, Path.relativeTo_join_relativeTo hp,
    Path.filter_parts_join_relativeTo_iff hp, ?_⟩
  · rw [hiff, hreread ((Path.isTextBelow_iff hp).1 hptext),
      hreread ((Path.isTextBelow_iff hq).1 hqtext)]
  · intro t tags finish found ht hreg hrecord hfinish hfound
    have hdir := isDirectory_of_discover hfound
    refine ⟨fun f hf g hg hftext hgtext hne heq =>
      hne (recordedPath_inj ht hreg hdir hf hg hftext hgtext heq), fun k hk => ?_⟩
    obtain ⟨f, hf, hcomment⟩ := (mem_found_iff ht hreg hfinish hfound).1 hk
    have hrecorded := filepath_of_mem_commentsOf hrecord hcomment
    refine ⟨f, hf, hcomment, hrecorded.symm, fun htext => ?_⟩
    rw [hrecorded]
    exact resolve_recordedPath ht hreg hdir hf htext

/-- Two spellings of a path below the root of a project, and the scan of the project. -/
theorem recordedPath_tells_file_stash :
    stashEngine.recordedPath ⟨"/srv/./a//b.c"⟩ = stashEngine.recordedPath ⟨"/srv/a/b.c"⟩ ∧
      (stashEngine.root.join ⟨stashEngine.recordedPath ⟨"/srv/./a//b.c"⟩⟩).parts =
        Path.parts ⟨"/srv/a/b.c"⟩ ∧
      ∃ found, stashEngine.discover stashTree ["TODO"] List.reverse = .ok found ∧
        ∀ k ∈ found, ∃ f ∈ stashEngine.listed stashTree,
          k ∈ stashEngine.commentsOf stashTree ["TODO"] f ∧
            stashEngine.recordedPath f = k.filepath ∧
            (stashEngine.root.IsTextBelow f → stashEngine.resolve ⟨k.filepath⟩ = f) := by
  have h := @recordedPath_tells_file stashEngine ⟨"/srv/./a//b.c"⟩ ⟨"/srv/a/b.c"⟩
    [.name "a", .name "b.c"] [.name "a", .name "b.c"] (by decide) (by decide)
  refine ⟨h.1.2 rfl, by decide, _, if_pos isDirectory_stashTree, ?_⟩
  exact (h.2.2.2.2 stashTree ["TODO"] List.reverse _ isProper_stashTree
    Language.Registry.isBuilt_standard Language.Registry.recordPaths_standard
    (List.reverse_perm _) (if_pos isDirectory_stashTree)).2

/-- An engine with a root that is spelled with a dot in front. -/
def dottedEngine : Engine := { garbledEngine with root := ⟨"./src"⟩ }

/-- Different names below the root are recorded alike where they are no texts, and the path
that is recorded leads to neither.  And a path below a root that begins with a dot is recorded
as one deeper below it when it is itself spelled without the dot. -/
theorem recordedPath_hides_file :
    ((garbledPath 0xfe).parts = garbledEngine.root.parts ++ [.name (garbledName 0xfe)] ∧
      (garbledPath 0xff).parts = garbledEngine.root.parts ++ [.name (garbledName 0xff)] ∧
      garbledEngine.recordedPath (garbledPath 0xfe) =
        garbledEngine.recordedPath (garbledPath 0xff) ∧
      (garbledEngine.root.join ⟨garbledEngine.recordedPath (garbledPath 0xfe)⟩).parts =
        garbledEngine.root.parts ++ [.name "\ufffd.py"] ∧
      garbledName 0xfe ≠ garbledName 0xff ∧ garbledName 0xfe ≠ "\ufffd.py") ∧
    (dottedEngine.root.parts = [.here, .name "src"] ∧
      Path.parts ⟨"src/a.c"⟩ = [.name "src", .name "a.c"] ∧
      Path.parts ⟨"./src/src/a.c"⟩ = [.here, .name "src", .name "src", .name "a.c"] ∧
      dottedEngine.recordedPath ⟨"src/a.c"⟩ = "src/a.c" ∧
      dottedEngine.recordedPath ⟨"./src/src/a.c"⟩ = "src/a.c") := by
  decide

end Marginalia.Discovery.Engine
