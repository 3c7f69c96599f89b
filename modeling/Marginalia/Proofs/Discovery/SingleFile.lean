import Marginalia.Command.Run
import Marginalia.Proofs.Files.Route
import Marginalia.Proofs.Language.Recording
import Marginalia.Proofs.Path.Lexical
import Marginalia.Proofs.Path.Relative

set_option autoImplicit false

/-!
# The path of a file that is scanned alone

A command names a file by a path as seen from where it is run, and the notes of
the file are kept under what is left of this path once it is plain and taken
relative to the source root.  A scan of the file alone starts from that text and
records a path of its own on the comments.  The two are the same for a file below
the root.  For a file elsewhere the recorded path has one slash more in front, so
that none of its comments is in the scope of the pass that follows.
-/

namespace Marginalia

open Marginalia.Text

/-! ## Both paths -/

namespace Path

/-- Whether a path, dots and double dots aside, leads to another path or below it. -/
def LeadsBelow (root p : Path) : Prop := root.parts <+: p.plainParts

variable {root p : Path}

/-- A path that leads below an absolute one leads there by names. -/
theorem LeadsBelow.exists_names (hroot : root.isAbsolute = true) (hp : p.isAbsolute = true)
    (h : LeadsBelow root p) :
    ∃ base below, root.parts = .root :: base.map .name ∧ p.ResolvesTo (base ++ below) := by
  obtain ⟨rest, hrest⟩ := h
  obtain ⟨names, hnames⟩ := exists_resolvesTo hp
  rw [hnames.plainParts, parts_of_isAbsolute hroot, List.cons_append, List.cons.injEq] at hrest
  obtain ⟨base, below, rfl, hbase, -⟩ := List.map_eq_append_iff.1 hrest.2.symm
  exact ⟨base, below, by rw [parts_of_isAbsolute hroot, hbase], hnames⟩

/-- Below the root, the text of a path relative to it is recorded again. -/
theorem relativeTo_join_of_leadsBelow (hroot : root.isAbsolute = true) (hp : p.isAbsolute = true)
    (h : LeadsBelow root p) :
    root.relativeTo (root.join ⟨root.plainRelativeTo p⟩) = root.plainRelativeTo p := by
  obtain ⟨base, below, hbase, hnames⟩ := h.exists_names hroot hp
  have hsteps := isStep_of_mem_names fun s hs =>
    hnames.2.isName s (List.mem_append_right base hs)
  have hne : root.bytes ≠ [] := by
    intro hempty
    simp [isAbsolute, hempty] at hroot
  rw [plainRelativeTo_of_below hbase hnames, ← joinParts_names_eq_text, relativeTo_of_parts
    (parts_join hne (isAbsolute_joinParts hsteps)), inner_joinParts hsteps, joinParts_reread]

theorem plainRelativeTo_of_not_leadsBelow (h : ¬LeadsBelow root p) :
    root.plainRelativeTo p = (ofParts p.plainParts).text := by
  rw [plainRelativeTo, stripParts_eq_none_iff.2 h]

/-- Elsewhere a path is named as it is shown. -/
theorem parts_plainRelativeTo (hp : p.isAbsolute = true) (h : ¬LeadsBelow root p) :
    parts ⟨root.plainRelativeTo p⟩ = p.plainParts.map Part.reread := by
  obtain ⟨names, hplain, hnames⟩ := isPlain_plainParts hp
  rw [plainRelativeTo_of_not_leadsBelow h, hplain, parts_text_ofParts_plain hnames, List.map_cons,
    List.map_map, List.map_map]
  rfl

/-- Elsewhere a command names a file by an absolute text. -/
theorem isAbsolute_plainRelativeTo (hp : p.isAbsolute = true) (h : ¬LeadsBelow root p) :
    isAbsolute ⟨root.plainRelativeTo p⟩ = true := by
  obtain ⟨names, hplain, -⟩ := isPlain_plainParts hp
  rw [isAbsolute_iff_head?, parts_plainRelativeTo hp h, hplain]
  rfl

theorem leadsBelow_plainRelativeTo_iff (hp : p.isAbsolute = true) (h : ¬LeadsBelow root p) :
    LeadsBelow root ⟨root.plainRelativeTo p⟩ ↔ root.parts <+: p.plainParts.map Part.reread := by
  have hparts := parts_plainRelativeTo hp h
  obtain ⟨names, hplain, hnames⟩ := isPlain_plainParts hp
  have hreread : IsPlain (p.plainParts.map Part.reread) :=
    ⟨names.map RawText.reread, by rw [hplain, List.map_cons, List.map_map, List.map_map]; rfl,
      fun s hs => by
        obtain ⟨n, hn, rfl⟩ := List.mem_map.1 hs
        exact (hnames n hn).reread⟩
  rw [LeadsBelow, plainParts_of_isPlain (hparts.symm ▸ hreread), hparts]

/-- The name of a text that leads elsewhere leads elsewhere too. -/
theorem not_leadsBelow_of_isText (hp : p.isAbsolute = true) (h : ¬LeadsBelow root p)
    (htext : p.plainParts.all Part.isText = true) :
    ¬LeadsBelow root ⟨root.plainRelativeTo p⟩ := by
  have hself : p.plainParts.map Part.reread = p.plainParts :=
    (List.map_congr_left fun part hpart =>
      Part.reread_eq_self_iff.2 (List.all_eq_true.1 htext part hpart)).trans (List.map_id _)
  rwa [leadsBelow_plainRelativeTo_iff hp h, hself]

/-- Elsewhere, the text of a path gets one more slash in front, unless it is the
root of all paths. -/
theorem relativeTo_join_of_not_leadsBelow (hp : p.isAbsolute = true) (h : ¬LeadsBelow root p)
    (hnamed : ¬LeadsBelow root ⟨root.plainRelativeTo p⟩) :
    root.relativeTo (root.join ⟨root.plainRelativeTo p⟩) =
      if p.plainParts = [.root] then root.plainRelativeTo p
      else "/" ++ root.plainRelativeTo p := by
  have hparts := parts_plainRelativeTo hp h
  rw [leadsBelow_plainRelativeTo_iff hp h] at hnamed
  obtain ⟨names, hplain, hnames⟩ := isPlain_plainParts hp
  have hbelow : root.below? ⟨root.plainRelativeTo p⟩ = none := by
    rw [below?, hparts, stripParts_eq_none_iff.2 hnamed]
  have hrecorded : root.relativeTo (root.join ⟨root.plainRelativeTo p⟩) =
      joinWith "/" ("/" :: names.map RawText.shown) := by
    rw [join, if_pos (isAbsolute_plainRelativeTo hp h), relativeTo, hbelow, Option.getD_none,
      hparts, joinParts_reread, hplain, joinParts_root_names]
  rw [hrecorded, plainRelativeTo_of_not_leadsBelow h, hplain]
  cases names with
  | nil => decide
  | cons s names =>
    rw [if_neg (by simp), text_ofParts_plain hnames, ← joinParts_names_eq_text, joinParts_names,
      List.map_cons, joinWith, String.intercalate_cons_cons, String.append_assoc]
    rfl

/-- Whether a path leads below the root of a source tree or is the root of all
paths. -/
def KeepsText (root p : Path) : Prop := LeadsBelow root p ∨ p.plainParts = [.root]

theorem relativeTo_join_of_not_keepsText (hp : p.isAbsolute = true) (h : ¬KeepsText root p)
    (hnamed : ¬LeadsBelow root ⟨root.plainRelativeTo p⟩) :
    root.relativeTo (root.join ⟨root.plainRelativeTo p⟩) = "/" ++ root.plainRelativeTo p := by
  obtain ⟨hbelow, hplain⟩ := not_or.1 h
  rw [relativeTo_join_of_not_leadsBelow hp hbelow hnamed, if_neg hplain]

theorem relativeTo_join_eq_iff (hroot : root.isAbsolute = true) (hp : p.isAbsolute = true) :
    root.relativeTo (root.join ⟨root.plainRelativeTo p⟩) = root.plainRelativeTo p ↔
      KeepsText root p := by
  by_cases hbelow : LeadsBelow root p
  · exact iff_of_true (relativeTo_join_of_leadsBelow hroot hp hbelow) (.inl hbelow)
  · by_cases hnamed : LeadsBelow root ⟨root.plainRelativeTo p⟩
    · -- the text is absolute, and what is recorded for it is relative
      have habsolute := isAbsolute_plainRelativeTo hp hbelow
      obtain ⟨rest, hrest⟩ := (leadsBelow_plainRelativeTo_iff hp hbelow).1 hnamed
      rw [← parts_plainRelativeTo hp hbelow] at hrest
      have hsteps :=
        isStep_of_parts (fun hempty => by simp [isAbsolute, hempty] at hroot) hrest.symm
      have hrecorded :
          isAbsolute ⟨root.relativeTo (root.join ⟨root.plainRelativeTo p⟩)⟩ = false := by
        rw [join, if_pos habsolute, relativeTo_of_parts hrest.symm, isAbsolute_joinParts hsteps]
      refine iff_of_false (fun heq => ?_) fun hkeeps => ?_
      · rw [heq, habsolute] at hrecorded
        cases hrecorded
      · have htext : p.plainParts.all Part.isText = true := by
          rw [hkeeps.resolve_left hbelow]
          rfl
        exact not_leadsBelow_of_isText hp hbelow htext hnamed
    · rw [relativeTo_join_of_not_leadsBelow hp hbelow hnamed]
      split
      · rename_i hplain
        exact iff_of_true rfl (.inr hplain)
      · rename_i hplain
        refine iff_of_false (fun heq => ?_) (not_or.2 ⟨hbelow, hplain⟩)
        -- the two texts differ in length
        have hlen := congrArg String.length heq
        rw [String.length_append] at hlen
        have : "/".length = 1 := rfl
        omega

/-- Names below a root that leads to them are written as a command names the file. -/
theorem plainRelativeTo_of_leadsBelow (hroot : root.isAbsolute = true) (hp : p.isAbsolute = true)
    {names : List RawText} (hparts : p.parts = root.parts ++ names.map .name)
    (h : LeadsBelow root p) : root.plainRelativeTo p = root.relativeTo p := by
  obtain ⟨base, -, hbase, -⟩ := h.exists_names hroot hp
  have hall : p.parts = .root :: (base ++ names).map .name := by
    rw [hparts, hbase, List.map_append, List.cons_append]
  rw [plainRelativeTo_of_below hbase (resolvesTo_of_parts hall), relativeTo_of_parts hparts,
    joinParts_names_eq_text]

end Path

/-! ## Where a command is run -/

/-- The directory a command is run in, without links in it. -/
def Session.place (s : Session) : Path := (s.tree.canonical s.directory).toOption.getD s.directory

theorem Session.isAbsolute_place {s : Session} (h : s.directory.isAbsolute = true) :
    s.place.isAbsolute = true := by
  unfold Session.place FileTree.canonical
  cases s.tree.stat s.directory with
  | error f => exact h
  | ok found => exact FileTree.isAbsolute_pathOf found.1

theorem run_notePath (c : Config) (file : Path) (s : Session) :
    (Run.notePath c file).run.run s =
      (.ok (c.sourceRoot.plainRelativeTo (s.place.join file)), s) :=
  rfl

/-! ## Scanning one file -/

namespace Discovery.Engine

open Marginalia.Language (Registry)

variable {e : Engine} {t : FileTree} {tags : List String} {file : Path}

/-- The comments of a file that is scanned alone carry the path recorded for it. -/
theorem filepath_of_mem_discoverFile (hrecord : e.registry.RecordPaths) {comments : List Comment}
    (h : e.discoverFile t tags file = .ok comments) :
    ∀ k ∈ comments, k.filepath = e.recordedPath (e.resolve file) := by
  unfold discoverFile at h
  dsimp only at h
  split at h
  · cases h
  · split at h
    · rename_i extractor text hget htext
      rw [← Except.ok.inj h]
      intro k hk
      have hmem := (List.mem_filter.1 hk).1
      rw [Job.comments?] at hmem
      cases hfound : extractor.extract (e.recordedPath (e.resolve file)) text (.ofList tags) with
      | none =>
        rw [hfound] at hmem
        exact absurd hmem List.not_mem_nil
      | some found =>
        rw [hfound] at hmem
        exact hrecord _ extractor hget _ _ _ _ hfound k hmem
    · rw [← Except.ok.inj h]
      exact fun k hk => absurd hk List.not_mem_nil
  · rw [← Except.ok.inj h]
    exact fun k hk => absurd hk List.not_mem_nil

/-- The one fault of a scan of a file alone is that the file is missing, and it
names the path recorded for the file. -/
theorem error_of_discoverFile {f : Fault} (h : e.discoverFile t tags file = .error f) :
    f = .sourceMissing (e.recordedPath (e.resolve file)) := by
  unfold discoverFile at h
  dsimp only at h
  split at h
  · exact (Except.error.inj h).symm
  · split at h <;> cases h
  · cases h

/-- A command that scans one file keeps its notes under a text that the scan records
for it exactly if the file lies below the source root or is the root of all paths.
Any other file is recorded with one slash more in front, unless its names are no texts and
are shown as names below the root, and no comment found in it is in the scope of the pass
over its notes. -/
theorem recordedPath_notePath_iff {c : Config} {s : Session} {e : Engine} {file : Path}
    {n : String} (hroot : c.sourceRoot.isAbsolute = true)
    (hdirectory : s.directory.isAbsolute = true) (he : e.root = c.sourceRoot)
    (hrecord : e.registry.RecordPaths) (hn : ((Run.notePath c file).run.run s).1 = .ok n) :
    (e.recordedPath (e.resolve ⟨n⟩) = n ↔ e.root.KeepsText (s.place.join file)) ∧
      (¬e.root.KeepsText (s.place.join file) →
        (s.place.join file).plainParts.all Path.Part.isText = true ∨ ¬e.root.LeadsBelow ⟨n⟩ →
          e.recordedPath (e.resolve ⟨n⟩) = "/" ++ n) ∧
      (∀ t tags comments, e.discoverFile t tags ⟨n⟩ = .ok comments → ∀ k ∈ comments,
        (Reconcile.inScope (some n) k = true ↔ e.root.KeepsText (s.place.join file))) ∧
      ∀ t tags missing, e.discoverFile t tags ⟨n⟩ = .error (.sourceMissing missing) →
        (missing = n ↔ e.root.KeepsText (s.place.join file)) := by
  rw [run_notePath, Except.ok.injEq] at hn
  subst hn
  rw [← he] at hroot ⊢
  have hfile : (s.place.join file).isAbsolute = true :=
    Path.isAbsolute_join_of_isAbsolute (Session.isAbsolute_place hdirectory) file
  have hiff := Path.relativeTo_join_eq_iff hroot hfile
  refine ⟨hiff, fun hkeeps hnamed => ?_, ?_, ?_⟩
  · refine Path.relativeTo_join_of_not_keepsText hfile hkeeps ?_
    exact hnamed.elim (Path.not_leadsBelow_of_isText hfile (not_or.1 hkeeps).1) id
  · intro t tags comments hfound k hk
    have hpath := filepath_of_mem_discoverFile hrecord hfound k hk
    simp only [Reconcile.inScope, Option.all_some, beq_iff_eq, hpath]
    exact hiff
  · intro t tags missing hfound
    cases error_of_discoverFile hfound
    exact hiff

/-! ## A file beside the source root -/

/-- The settings of a project at `/srv/p`. -/
def neighbourConfig : Config := .ofRoot ⟨"/srv/p"⟩

/-- A session in the directory of the project. -/
def neighbourSession : Session :=
  { tree := { entries := [(["srv"], .directory), (["srv", "p"], .directory)] }
    directory := ⟨"/srv/p"⟩, input := "", draws := fun _ => default, printed := "" }

/-- The engine of the project. -/
def neighbourEngine : Engine :=
  { root := ⟨"/srv/p"⟩, registry := .standard, exclusions := ⟨[], []⟩
    workers := defaultWorkers, readChunk := defaultReadChunk }

theorem place_neighbourSession : neighbourSession.place = ⟨"/srv/p"⟩ := by
  have hstat : neighbourSession.tree.stat ⟨"/srv/p"⟩ = .ok (["srv", "p"], .directory) :=
    FileTree.Descends.stat (.down (by decide) rfl (.last (by decide) rfl (by nofun))) (by decide)
      (by decide) rfl
  have hpathOf : FileTree.pathOf ["srv", "p"] = ⟨"/srv/p"⟩ := by decide
  rw [Session.place, FileTree.canonical, show neighbourSession.directory = ⟨"/srv/p"⟩ from rfl,
    hstat]
  exact hpathOf

theorem notePath_neighbour :
    ((Run.notePath neighbourConfig ⟨"../x.c"⟩).run.run neighbourSession).1 = .ok "/srv/x.c" := by
  rw [run_notePath, place_neighbourSession]
  exact congrArg Except.ok (by decide)

/-- The condition at work for a file beside the root of its project. -/
theorem recordedPath_notePath_iff_neighbour :
    (neighbourEngine.recordedPath (neighbourEngine.resolve ⟨"/srv/x.c"⟩) = "/srv/x.c" ↔
        neighbourEngine.root.KeepsText (neighbourSession.place.join ⟨"../x.c"⟩)) ∧
      (¬neighbourEngine.root.KeepsText (neighbourSession.place.join ⟨"../x.c"⟩) →
        neighbourEngine.recordedPath (neighbourEngine.resolve ⟨"/srv/x.c"⟩) =
          "/" ++ "/srv/x.c") :=
  have h := recordedPath_notePath_iff (c := neighbourConfig) (s := neighbourSession)
    (e := neighbourEngine) rfl rfl rfl Registry.recordPaths_standard notePath_neighbour
  have htext : (neighbourSession.place.join ⟨"../x.c"⟩).plainParts.all Path.Part.isText = true := by
    rw [place_neighbourSession]
    decide
  ⟨h.1, fun hkeeps => h.2.1 hkeeps (.inl htext)⟩

/-- The notes of a file beside the root are kept under its absolute path, and the
scan of the file records two slashes in front of it. -/
theorem recordedPath_ne_notePath :
    ((Run.notePath neighbourConfig ⟨"../x.c"⟩).run.run neighbourSession).1 = .ok "/srv/x.c" ∧
      neighbourEngine.recordedPath (neighbourEngine.resolve ⟨"/srv/x.c"⟩) = "//srv/x.c" ∧
      "//srv/x.c" ≠ "/srv/x.c" := by
  refine ⟨notePath_neighbour, ?_, by decide⟩
  show Path.relativeTo ⟨"/srv/p"⟩ (Path.join ⟨"/srv/p"⟩ ⟨"/srv/x.c"⟩) = "//srv/x.c"
  decide

end Discovery.Engine

end Marginalia
