import Marginalia.Proofs.Discovery.Batches
import Marginalia.Proofs.Files.Closing
import Marginalia.Proofs.Path.Order
import Marginalia.Proofs.Path.Relative

set_option autoImplicit false

/-!
# The files that are wanted

What a scan looks at is told from the paths alone.  A file is wanted if a way of the tree
leads to it, its extension is asked for, and no path on the way is excluded, from the root
down to the file itself.  The collector lists the files that are wanted, each once, in the
order of paths, and no other: a text that is no pattern, a directory that cannot be read and
a link that leads back or nowhere take away nothing but what is only reached through them.
-/

namespace Marginalia.Discovery

open Marginalia.Language

variable {t : FileTree} {root : Path} {base : Place} {patterns : List String}
  {directories : List Path} {extensions : List String}

/-! ## Exclusion -/

/-- Whether a path is excluded: it is that of a directory to stay out of, or one of the texts
is a pattern that matches it as seen from the root, which only a text can do. -/
def IsExcluded (root : Path) (patterns : List String) (directories : List Path)
    (directory : Bool) (p : Path) : Prop :=
  (directory = true ∧ ∃ d ∈ directories, p.same d = true) ∨
    ∃ text ∈ patterns, ∃ g, Glob.read? text = some g ∧ root.IsTextBelow p ∧
      g.matchesPath (root.relativeTo p) = true

/-- What is kept out of a walk are the excluded paths. -/
theorem excludes_ofTexts_iff {v : FileTree.Visit} (hroot : root.bytes ≠ [])
    (hnames : ∀ s ∈ v.names, Path.IsName s) :
    (Exclusions.ofTexts patterns directories).excludes root v = true ↔
      IsExcluded root patterns directories v.directory (pathOf root v) := by
  have hrelative : root.relativeTo (pathOf root v) = (Path.ofNames v.names).text :=
    Path.relativeTo_foldl_child hroot hnames
  have hparts : (pathOf root v).parts = root.parts ++ v.names.map .name :=
    Path.parts_foldl_child hroot hnames
  have htext : root.IsTextBelow (pathOf root v) ↔ (Path.ofNames v.names).bytes.isText = true := by
    rw [Path.isTextBelow_iff hparts, Path.ofNames,
      RawText.isText_intercalate (by decide), List.all_eq_true]
    exact List.forall_mem_map
  have hmatch : ∀ g : Glob, (Path.ofNames v.names).bytes.text?.any g.matchesPath = true ↔
      root.IsTextBelow (pathOf root v) ∧ g.matchesPath (Path.ofNames v.names).text = true := by
    intro g
    rw [htext, RawText.text?]
    split
    · exact (and_iff_right ‹_›).symm
    · exact iff_of_false nofun fun h => absurd h.1 ‹_›
  rw [Exclusions.excludes, Exclusions.ofTexts, Bool.or_eq_true, Bool.and_eq_true, List.any_eq_true,
    List.any_eq_true, IsExcluded, hrelative]
  refine or_congr_right ?_
  simp only [List.mem_filterMap, hmatch]
  constructor
  · rintro ⟨g, ⟨text, hpattern, hread⟩, hmatches⟩
    exact ⟨text, hpattern, g, hread, hmatches⟩
  · rintro ⟨text, hpattern, g, hread, hmatches⟩
    exact ⟨g, ⟨text, hpattern, hread⟩, hmatches⟩

/-! ## Wanted files -/

/-- Whether a file is wanted under an extension: a way leads to it, its extension is that one
in the form in which extensions are looked up, and no path down to it is excluded. -/
def IsWanted (t : FileTree) (root : Path) (base : Place) (patterns : List String)
    (directories : List Path) (extension : String) (p : Path) : Prop :=
  (∃ e, p.extension? = some e ∧ normalExtension e = extension) ∧
    ∃ names, t.Way [] base true names false ∧ names.foldl Path.child root = p ∧
      ∀ above, above <+: names →
        ¬IsExcluded root patterns directories (decide (above ≠ names))
          (above.foldl Path.child root)

/-- A walk is let along a way to a file if no path down to the file is excluded. -/
theorem keepsAlong_iff {names : List RawText} (hroot : root.bytes ≠ [])
    (hnames : ∀ s ∈ names, Path.IsName s) :
    FileTree.KeepsAlong
        (fun v => !(Exclusions.ofTexts patterns directories).excludes root v) [] names false ↔
      ∀ above, above <+: names →
        ¬IsExcluded root patterns directories (decide (above ≠ names))
          (above.foldl Path.child root) := by
  refine forall_congr' fun above => imp_congr_right fun habove => ?_
  have hbelow : ∀ s ∈ above, Path.IsName s := fun s hs => hnames s (habove.subset hs)
  rw [Bool.false_or, List.nil_append, Bool.not_eq_true', ← Bool.not_eq_true,
    excludes_ofTexts_iff hroot hbelow, pathOf]

/-- The files of an extension are those that are wanted. -/
theorem mem_filesOf_iff_isWanted (ht : t.IsProper) (hroot : t.stat root = .ok (base, .directory))
    {extension : String} {p : Path} :
    p ∈ filesOf (.ofTexts patterns directories) t root extension ↔
      IsWanted t root base patterns directories extension p := by
  have htext := FileTree.bytes_ne_of_stat hroot
  rw [mem_filesOf_iff, mem_walkedFiles_iff]
  constructor
  · rintro ⟨⟨names, directory⟩, hv, hfile, hpath, he⟩
    obtain rfl : directory = false := hfile
    obtain ⟨hway, hkeep⟩ := (FileTree.mem_walk_iff hroot).1 hv
    exact ⟨he, names, hway, hpath, (keepsAlong_iff htext (hway.isName ht)).1 hkeep⟩
  · rintro ⟨he, names, hway, hpath, hkeep⟩
    refine ⟨⟨names, false⟩, (FileTree.mem_walk_iff hroot).2 ⟨hway, ?_⟩, rfl, hpath, he⟩
    exact (keepsAlong_iff htext (hway.isName ht)).2 hkeep

/-- Whatever of a tree can be read, the collector has one entry for each extension that is
asked for, and in it the files that are wanted, each once and in the order of paths.
Directories that cannot be read take no way away to a file that lies in none of them.  The
ways that are left are those of the whole tree, links included, that go through none. -/
theorem sources_hold_wanted {closed : Place → Bool} (ht : t.IsProper)
    (hroot : (t.closing closed).stat root = .ok (base, .directory)) :
    (∀ e, e ∈ (sources (.ofTexts patterns directories) (t.closing closed) root extensions).keys ↔
      e ∈ extensions.map normalExtension) ∧
    (∀ e files, (e, files) ∈
        (sources (.ofTexts patterns directories) (t.closing closed) root extensions).entries →
      files.Pairwise Path.Precedes ∧
        ∀ p, p ∈ files ↔ IsWanted (t.closing closed) root base patterns directories e p) ∧
    (∀ names content, names ≠ [] →
      (∀ front, front <+: names → front ≠ names → t.entryAt? (base ++ front) = some .directory) →
      t.entryAt? (base ++ names) = some (.file content) →
      FileTree.isShown closed (base ++ names) = true →
      (t.closing closed).Way [] base true names false) ∧
    ∀ names last, (t.closing closed).Way [] base true names last ↔
      t.ShownWay closed [] base true names last := by
  have htext := FileTree.bytes_ne_of_stat hroot
  refine ⟨fun e => ?_, fun e files hentry => ?_, fun names content hne hdirectories hfile => ?_,
    fun names last => FileTree.way_closing_iff⟩
  · rw [sources, Index.mem_keys_ofList, List.map_map]
    exact iff_of_eq (congrArg (e ∈ ·) (List.map_id _))
  · obtain ⟨-, hfiles⟩ := mem_entries_sources_iff.1 hentry
    simp only at hfiles
    subst hfiles
    refine ⟨?_, fun p => mem_filesOf_iff_isWanted (ht.closing closed) hroot⟩
    have hwalked := (apart_walkedFiles (x := .ofTexts patterns directories) (ht.closing closed)
      htext).filter (·.1 == e)
    exact Path.Apart.pairwise_precedes (List.pairwise_map.2 hwalked)
  · exact FileTree.way_closing hdirectories hfile hne

/-! ## A tree with a loop

Two source files in a directory, beside a link back to it and a directory that cannot be
read.  One of the files is excluded; the other text is no pattern. -/

/-- The tree. -/
def loopTree : FileTree :=
  { entries :=
      [(["srv"], .directory), (["srv", "a.C"], .file (.bytes "// TODO a".toUTF8)),
       (["srv", "b.c"], .file (.bytes "// TODO b".toUTF8)), (["srv", "back"], .link ⟨"/srv"⟩),
       (["srv", "lock"], .directory), (["srv", "lock", "c.c"], .file (.bytes ⟨#[]⟩))] }

/-- The directory that cannot be read. -/
def isLock (place : Place) : Bool := place == ["srv", "lock"]

theorem stat_loopTree : (loopTree.closing isLock).stat ⟨"/srv"⟩ = .ok (["srv"], .directory) :=
  FileTree.Descends.stat (.last (by decide) rfl (by nofun)) (by decide) (by decide) rfl

/-- One of the files is wanted if a way leads to it. -/
theorem isWanted_loopTree (hway : (loopTree.closing isLock).Way [] ["srv"] true ["a.C"] false) :
    IsWanted (loopTree.closing isLock) ⟨"/srv"⟩ ["srv"] ["b.c", "[b"] [] "c" ⟨"/srv/a.C"⟩ := by
  refine ⟨⟨"C", by decide, by decide⟩, ["a.C"], hway, by decide, ?_⟩
  refine (keepsAlong_iff (by decide) (by decide)).1 fun above habove => ?_
  rcases List.prefix_cons_iff.1 habove with rfl | ⟨rest, rfl, hrest⟩
  · decide
  · obtain rfl := List.prefix_nil.1 hrest
    decide

/-- The files of the tree that are wanted under the one extension that is asked for. -/
theorem sources_hold_wanted_loop :
    loopTree.IsProper ∧ (loopTree.closing isLock).stat ⟨"/srv"⟩ = .ok (["srv"], .directory) ∧
    ∃ files,
      ("c", files) ∈ (sources (.ofTexts ["b.c", "[b"] []) (loopTree.closing isLock) ⟨"/srv"⟩
        [".C", "c"]).entries ∧
      files.Pairwise Path.Precedes ∧ ⟨"/srv/a.C"⟩ ∈ files ∧
        ∀ p, p ∈ files ↔
          IsWanted (loopTree.closing isLock) ⟨"/srv"⟩ ["srv"] ["b.c", "[b"] [] "c" p := by
  have ht : loopTree.IsProper := ⟨by decide, by decide⟩
  obtain ⟨hkeys, hentries, hways, -⟩ :=
    @sources_hold_wanted loopTree ⟨"/srv"⟩ ["srv"] ["b.c", "[b"] []
    [".C", "c"] isLock ht stat_loopTree
  obtain ⟨⟨_, files⟩, hentry, rfl⟩ := List.mem_map.1 ((hkeys "c").2 (by decide))
  obtain ⟨hordered, hfiles⟩ := hentries "c" files hentry
  have hway : (loopTree.closing isLock).Way [] ["srv"] true ["a.C"] false := by
    refine hways ["a.C"] _ (by decide) (fun front hfront hproper => ?_) rfl (by decide)
    rcases List.prefix_cons_iff.1 hfront with rfl | ⟨rest, rfl, hrest⟩
    · rfl
    · exact absurd (by rw [List.prefix_nil.1 hrest]) hproper
  exact ⟨ht, stat_loopTree, files, hentry, hordered, (hfiles _).2 (isWanted_loopTree hway), hfiles⟩

end Marginalia.Discovery
