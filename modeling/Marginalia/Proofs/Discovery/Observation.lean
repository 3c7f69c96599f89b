import Marginalia.Proofs.Discovery.Batches
import Marginalia.Proofs.Files.Overwrite
import Marginalia.Proofs.Language.Recording
import Marginalia.Proofs.Path.Relative
import Marginalia.Proofs.Reconcile.Plan

set_option autoImplicit false

/-!
# What a scan observes

A listed file lies below the root by names, so the path recorded for it tells which file
it is as long as its names are texts; names that are none may be shown alike.  The comments
that a scan finds for a path are those of the files recorded under it, and the comment that
counts at a place is the first one that such a file has there.
-/

namespace Marginalia.Discovery.Engine

open Marginalia.Reconcile (firstAt firstAt_append)
open Marginalia.Text (joinWith)

variable {e : Engine} {t : FileTree} {tags : List String} {p : Path}

/-! ## Listed files -/

/-- A listed file lies below the root by names. -/
theorem exists_names_of_mem_listed (ht : t.IsProper) (hreg : e.registry.IsBuilt)
    (hroot : t.isDirectory e.root = true) (hp : p ∈ e.listed t) :
    ∃ names, names ≠ [] ∧ (∀ s ∈ names, Path.IsName s) ∧ p = names.foldl Path.child e.root := by
  obtain ⟨v, hv, hfile, rfl, -⟩ := (mem_listed_iff hreg).1 hp
  obtain ⟨names, hnames, hare⟩ := (ht.spreads_walk _ _).below v hv
  rw [List.nil_append] at hnames
  refine ⟨v.names, ht.names_ne_nil hroot hv hfile, ?_, rfl⟩
  rwa [hnames]

/-- A listed file is known by its parts below the root. -/
theorem exists_parts_of_mem_listed (ht : t.IsProper) (hreg : e.registry.IsBuilt)
    (hroot : t.isDirectory e.root = true) (hp : p ∈ e.listed t) :
    ∃ names : List RawText, (∀ s ∈ names, Path.IsName s) ∧ p = names.foldl Path.child e.root ∧
      p.parts = e.root.parts ++ names.map .name := by
  obtain ⟨names, -, hnames, rfl⟩ := exists_names_of_mem_listed ht hreg hroot hp
  exact ⟨names, hnames, rfl,
    Path.parts_foldl_child (FileTree.bytes_ne_of_isDirectory hroot) hnames⟩

/-- The path that is recorded for a listed file leads to the names that are shown for it. -/
theorem resolve_recordedPath_foldl (hroot : t.isDirectory e.root = true) {names : List RawText}
    (hne : names ≠ []) (hnames : ∀ s ∈ names, Path.IsName s) :
    e.resolve ⟨e.recordedPath (names.foldl Path.child e.root)⟩ =
      (names.map RawText.reread).foldl Path.child e.root := by
  have hbytes := FileTree.bytes_ne_of_isDirectory hroot
  have hreread : ∀ s ∈ names.map RawText.reread, Path.IsName s := fun s hs => by
    obtain ⟨n, hn, rfl⟩ := List.mem_map.1 hs
    exact (hnames n hn).reread
  rw [recordedPath, Path.relativeTo_foldl_child hbytes hnames, resolve,
    Path.mk_text_ofNames, Path.foldl_child_eq_join hbytes (by simpa using hne) hreread]

/-- A listed file whose names are texts is found again under the path that is recorded for
it. -/
theorem resolve_recordedPath (ht : t.IsProper) (hreg : e.registry.IsBuilt)
    (hroot : t.isDirectory e.root = true) (hp : p ∈ e.listed t) (htext : e.root.IsTextBelow p) :
    e.resolve ⟨e.recordedPath p⟩ = p := by
  obtain ⟨names, hne, hnames, rfl⟩ := exists_names_of_mem_listed ht hreg hroot hp
  have hparts := Path.parts_foldl_child (FileTree.bytes_ne_of_isDirectory hroot) hnames
  rw [resolve_recordedPath_foldl hroot hne hnames, Path.map_reread_of_isTextBelow hparts htext]

theorem isAbsolute_of_mem_listed (ht : t.IsProper) (hreg : e.registry.IsBuilt)
    (hdir : t.isDirectory e.root = true) (hroot : e.root.isAbsolute = true)
    (hp : p ∈ e.listed t) : p.isAbsolute = true := by
  obtain ⟨names, hne, hnames, rfl⟩ := exists_names_of_mem_listed ht hreg hdir hp
  rw [Path.foldl_child_eq_join (FileTree.bytes_ne_of_isDirectory hdir) hne hnames]
  exact Path.isAbsolute_join_of_isAbsolute hroot _

/-- Files whose names are texts are told apart by the paths that are recorded for them. -/
theorem recordedPath_inj (ht : t.IsProper) (hreg : e.registry.IsBuilt)
    (hroot : t.isDirectory e.root = true) {q : Path} (hp : p ∈ e.listed t) (hq : q ∈ e.listed t)
    (hptext : e.root.IsTextBelow p) (hqtext : e.root.IsTextBelow q)
    (heq : e.recordedPath p = e.recordedPath q) : p = q := by
  rw [← resolve_recordedPath ht hreg hroot hp hptext, heq,
    resolve_recordedPath ht hreg hroot hq hqtext]

/-- Whether a listed file is the only one that is recorded under its path. -/
def IsRecordedAlone (e : Engine) (t : FileTree) (p : Path) : Prop :=
  ∀ q ∈ e.listed t, e.recordedPath q = e.recordedPath p → q = p

/-- The comments that a scan has of one file; none if there is no work on it or the work
breaks down. -/
def commentsOf (e : Engine) (t : FileTree) (tags : List String) (p : Path) : List Comment :=
  (e.batch? t tags p).getD []

/-- The comments of a file that has a text and an extractor. -/
theorem commentsOf_eq {extractor : Language.Extractor} {text : String}
    (hget : e.registry.get? (p.extension?.getD "") = some extractor)
    (htext : readText t p = .ok text) :
    e.commentsOf t tags p =
      (extractor.extract (e.recordedPath p) text (.ofList tags)).getD [] := by
  rw [commentsOf, batch?, job?, hget, htext]
  rfl

theorem filepath_of_mem_commentsOf (hrecord : e.registry.RecordPaths) {k : Comment}
    (hk : k ∈ e.commentsOf t tags p) : k.filepath = e.recordedPath p := by
  unfold commentsOf batch? job? at hk
  split at hk
  · rename_i extractor text hget htext
    rw [Option.bind_some, Job.comments?] at hk
    cases hfound : extractor.extract (e.recordedPath p) text (.ofList tags) with
    | none =>
      rw [hfound] at hk
      exact absurd hk List.not_mem_nil
    | some found =>
      rw [hfound] at hk
      exact hrecord _ extractor hget _ _ _ _ hfound k hk
  · exact absurd hk List.not_mem_nil

/-- The comment of a file that counts on a line: the first one there. -/
def firstOn (e : Engine) (t : FileTree) (tags : List String) (p : Path) (line : UInt32) :
    Option Comment :=
  (e.commentsOf t tags p).find? (·.line == line)

/-- Among comments of one file a place is told by its line. -/
theorem firstAt_eq_find?_line {comments : List Comment} {filepath : String}
    (h : ∀ k ∈ comments, k.filepath = filepath) (line : UInt32) :
    firstAt comments (filepath, line) = comments.find? (·.line == line) := by
  refine List.find?_congr fun k hk => ?_
  rw [Bool.eq_iff_iff, beq_iff_eq, beq_iff_eq, Comment.place, h k hk, Prod.mk.injEq,
    and_iff_right rfl]

theorem firstAt_commentsOf (hrecord : e.registry.RecordPaths) (line : UInt32) :
    firstAt (e.commentsOf t tags p) (e.recordedPath p, line) = e.firstOn t tags p line :=
  firstAt_eq_find?_line (fun _ => filepath_of_mem_commentsOf hrecord) line

theorem firstAt_commentsOf_of_ne (hrecord : e.registry.RecordPaths) {filepath : String}
    (hne : e.recordedPath p ≠ filepath) (line : UInt32) :
    firstAt (e.commentsOf t tags p) (filepath, line) = none := by
  refine List.find?_eq_none.2 fun k hk hplace => hne ?_
  rw [← filepath_of_mem_commentsOf hrecord hk]
  exact (Prod.mk.inj (beq_iff_eq.1 hplace)).1

/-! ## The comments of all files -/

theorem flatten_filterMap_batch? (order : List Path) :
    (order.filterMap (e.batch? t tags)).flatten = order.flatMap (e.commentsOf t tags) := by
  induction order with
  | nil => rfl
  | cons q order ih =>
    rw [List.flatMap_cons, ← ih]
    cases hbatch : e.batch? t tags q with
    | none => simp [hbatch, commentsOf]
    | some batch => simp [hbatch, commentsOf]

theorem firstAt_commentsOf_eq (hrecord : e.registry.RecordPaths) (q : Location) :
    firstAt (e.commentsOf t tags p) q =
      if e.recordedPath p = q.1 then e.firstOn t tags p q.2 else none := by
  obtain ⟨filepath, line⟩ := q
  split
  · rename_i hfile
    subst hfile
    exact firstAt_commentsOf hrecord line
  · rename_i hfile
    exact firstAt_commentsOf_of_ne hrecord hfile line

/-- The first comment at a place among those of many files is the first that one of the files
recorded under the path of the place has there. -/
theorem firstAt_flatMap (hrecord : e.registry.RecordPaths) (order : List Path) (q : Location) :
    firstAt (order.flatMap (e.commentsOf t tags)) q =
      order.findSome? fun p =>
        if e.recordedPath p = q.1 then e.firstOn t tags p q.2 else none := by
  rw [firstAt, List.find?_flatMap]
  exact congrArg (List.findSome? · order) (funext fun p => firstAt_commentsOf_eq hrecord q)

/-- A file without a text has no comments. -/
theorem commentsOf_of_no_text (h : ∀ text, readText t p ≠ .ok text) :
    e.commentsOf t tags p = [] := by
  have hjob : e.job? t p = none := by
    unfold job?
    split
    · rename_i text _ htext
      exact absurd htext (h _)
    · rfl
  rw [commentsOf, batch?, hjob]
  rfl

theorem firstOn_of_no_text {line : UInt32} (h : ∀ text, readText t p ≠ .ok text) :
    e.firstOn t tags p line = none := by
  rw [firstOn, commentsOf_of_no_text h]
  rfl

/-- What a full scan finds: at a place the first comment that one of the files recorded under
its path has on the line, and nothing where no listed file has any. -/
structure Finds (e : Engine) (t : FileTree) (tags : List String) (found : List Comment) :
    Prop where
  seen : ∀ q k, firstAt found q = some k →
    ∃ p ∈ e.listed t, e.recordedPath p = q.1 ∧ e.firstOn t tags p q.2 = some k
  missed : ∀ q, firstAt found q = none →
    ∀ p ∈ e.listed t, e.recordedPath p = q.1 → e.firstOn t tags p q.2 = none

/-- At a place in a file that is recorded alone, the first comment that the file has there is
found. -/
theorem Finds.alone {found : List Comment} (h : e.Finds t tags found) (hp : p ∈ e.listed t)
    (halone : e.IsRecordedAlone t p) (line : UInt32) :
    firstAt found (e.recordedPath p, line) = e.firstOn t tags p line := by
  cases hfirst : firstAt found (e.recordedPath p, line) with
  | none => exact (h.missed _ hfirst p hp rfl).symm
  | some k =>
    obtain ⟨q, hq, hrecorded, hk⟩ := h.seen _ k hfirst
    exact (halone q hq hrecorded ▸ hk).symm

/-- Nothing is found under a path that no listed file is recorded under. -/
theorem Finds.unlisted {found : List Comment} (h : e.Finds t tags found) {filepath : String}
    (hne : ∀ p ∈ e.listed t, e.recordedPath p ≠ filepath) (line : UInt32) :
    firstAt found (filepath, line) = none := by
  cases hfirst : firstAt found (filepath, line) with
  | none => rfl
  | some k =>
    obtain ⟨p, hp, hrecorded, -⟩ := h.seen _ k hfirst
    exact absurd hrecorded (hne p hp)

theorem isDirectory_of_discover {finish : List Job → List Job} {found : List Comment}
    (h : e.discover t tags finish = .ok found) : t.isDirectory e.root = true := by
  unfold discover at h
  split at h
  · assumption
  · cases h

/-- What a full scan has found are the comments of its files, those of one file behind those
of the file on which the work was finished before. -/
theorem exists_order_of_discover {finish : List Job → List Job} {found : List Comment}
    (ht : t.IsProper) (hreg : e.registry.IsBuilt)
    (hfinish : (finish (e.jobs t)).Perm (e.jobs t))
    (h : e.discover t tags finish = .ok found) :
    ∃ order, e.IsFinishedAs t tags (finish (e.jobs t)) order ∧
      found = order.flatMap (e.commentsOf t tags) := by
  have hroot := isDirectory_of_discover h
  obtain ⟨order, hfinished⟩ : ∃ order, e.IsFinishedAs t tags (finish (e.jobs t)) order :=
    exists_isFinishedAs hroot ht hreg hfinish
  have hfound := hfinished.discover_eq hroot
  rw [h, Except.ok.injEq, flatten_filterMap_batch?] at hfound
  exact ⟨order, hfinished, hfound⟩

/-- In whatever order the work on the files is finished, the same comments count. -/
theorem finds_of_discover {finish : List Job → List Job} {found : List Comment}
    (ht : t.IsProper) (hreg : e.registry.IsBuilt) (hrecord : e.registry.RecordPaths)
    (hfinish : (finish (e.jobs t)).Perm (e.jobs t))
    (h : e.discover t tags finish = .ok found) : e.Finds t tags found := by
  obtain ⟨order, hfinished, rfl⟩ := exists_order_of_discover ht hreg hfinish h
  refine ⟨fun q k hk => ?_, fun q hnone p hp hrecorded => ?_⟩
  · rw [firstAt_flatMap hrecord] at hk
    obtain ⟨p, hp, hk⟩ := List.exists_of_findSome?_eq_some hk
    split at hk
    · exact ⟨p, ((hfinished.files p).1 hp).1, ‹_›, hk⟩
    · cases hk
  · by_cases htext : ∃ text, readText t p = .ok text
    · rw [firstAt_flatMap hrecord, List.findSome?_eq_none_iff] at hnone
      have hp := hnone p ((hfinished.files p).2 ⟨hp, htext⟩)
      rwa [if_pos hrecorded] at hp
    · exact firstOn_of_no_text fun text htext' => htext ⟨text, htext'⟩

/-! ## What is missed -/

/-- Why a scan sees no comment on a line of a file that it lists. -/
inductive Misses (e : Engine) (t : FileTree) (tags : List String) (p : Path) (line : UInt32) :
    Prop
  /-- the file cannot be read, or is no text -/
  | unread {f : ReadFault} (h : readText t p = .error f)
  /-- the work on the file breaks down -/
  | dropped {text : String} (htext : readText t p = .ok text) (h : e.batch? t tags p = none)
  /-- the file is read and the work on it finished without a comment on the line -/
  | clear {batch : List Comment} (hbatch : e.batch? t tags p = some batch)
      (h : ∀ k ∈ batch, k.line ≠ line)

theorem misses_iff {line : UInt32} :
    e.Misses t tags p line ↔ e.firstOn t tags p line = none := by
  have hclear : e.firstOn t tags p line = none ↔ ∀ k ∈ e.commentsOf t tags p, k.line ≠ line := by
    simp only [firstOn, List.find?_eq_none, beq_iff_eq, ne_eq]
  constructor
  · rintro (⟨h⟩ | ⟨htext, h⟩ | ⟨hbatch, h⟩)
    · exact firstOn_of_no_text fun text htext => by
        rw [h] at htext
        cases htext
    · rw [firstOn, commentsOf, h]
      rfl
    · rwa [hclear, commentsOf, hbatch]
  · intro h
    rw [hclear, commentsOf] at h
    cases hbatch : e.batch? t tags p with
    | some batch =>
      rw [hbatch] at h
      exact .clear hbatch h
    | none =>
      cases htext : readText t p with
      | ok text => exact .dropped htext hbatch
      | error f => exact .unread htext

/-- Whether a scan sees no comment at a place: none of the files that it lists and records
under the path has any on the line that is seen, if there is such a file at all. -/
def Overlooks (e : Engine) (t : FileTree) (tags : List String) (q : Location) : Prop :=
  ∀ p ∈ e.listed t, e.recordedPath p = q.1 → e.Misses t tags p q.2

theorem Finds.overlooks_iff {found : List Comment} (h : e.Finds t tags found) {q : Location} :
    e.Overlooks t tags q ↔ firstAt found q = none := by
  constructor
  · intro hmisses
    refine Option.eq_none_iff_forall_ne_some.2 fun k hk => ?_
    obtain ⟨p, hp, hrecorded, hfirst⟩ := h.seen q k hk
    rw [misses_iff.1 (hmisses p hp hrecorded)] at hfirst
    cases hfirst
  · exact fun hnone p hp hrecorded => misses_iff.2 (h.missed q hnone p hp hrecorded)

/-! ## A file that is scanned alone -/

/-- The comments of one file that carry a tag. -/
def todosOf (e : Engine) (t : FileTree) (tags : List String) (p : Path) : List Comment :=
  (e.commentsOf t tags p).filter (·.kind == .todo)

theorem todosOf_of_no_text (h : ∀ text, readText t p ≠ .ok text) : e.todosOf t tags p = [] := by
  rw [todosOf, commentsOf_of_no_text h]
  rfl

/-- The first comment with a tag on a line of a file. -/
def firstTodoOn (e : Engine) (t : FileTree) (tags : List String) (p : Path) (line : UInt32) :
    Option Comment :=
  (e.todosOf t tags p).find? (·.line == line)

/-- A scan of a file alone finds the comments with a tag that a full scan has of it. -/
theorem discoverFile_eq (e : Engine) (t : FileTree) (tags : List String) (file : Path) :
    e.discoverFile t tags file =
      match t.stat (e.resolve file) with
      | .error .notFound => .error (.sourceMissing (e.recordedPath (e.resolve file)))
      | _ => .ok (e.todosOf t tags (e.resolve file)) := by
  unfold discoverFile
  dsimp only
  split
  · rename_i hstat
    rw [hstat]
  · rename_i place content hstat
    rw [hstat]
    unfold todosOf commentsOf batch? job?
    rcases e.registry.get? ((e.resolve file).extension?.getD "") with _ | extractor
    · rcases readText t (e.resolve file) with fault | text <;> rfl
    · rcases readText t (e.resolve file) with fault | text <;> rfl
  · rename_i hmissing hfile
    have htext : ∀ text, readText t (e.resolve file) ≠ .ok text := by
      intro text htext
      obtain ⟨place, data, hstat, -⟩ := FileTree.exists_bytes_of_readText htext
      exact hfile place _ hstat
    rw [todosOf_of_no_text htext]
    split
    · exact absurd ‹_› hmissing
    · rfl

/-- A scan of a file alone finds the same for all who start it. -/
theorem discoverFile_of_entries {t' : FileTree} (h : t'.entries = t.entries) {file : Path}
    (hfile : (e.resolve file).isAbsolute = true) :
    e.discoverFile t' tags file = e.discoverFile t tags file := by
  unfold discoverFile readText
  dsimp only
  rw [FileTree.stat_of_entries h hfile, FileTree.read_of_entries h hfile]

theorem kind_of_mem_todosOf {k : Comment} (hk : k ∈ e.todosOf t tags p) : k.kind = .todo :=
  beq_iff_eq.1 (List.mem_filter.1 hk).2

theorem filepath_of_mem_todosOf (hrecord : e.registry.RecordPaths) {k : Comment}
    (hk : k ∈ e.todosOf t tags p) : k.filepath = e.recordedPath p :=
  filepath_of_mem_commentsOf hrecord (List.mem_filter.1 hk).1

theorem firstAt_todosOf (hrecord : e.registry.RecordPaths) (line : UInt32) :
    firstAt (e.todosOf t tags p) (e.recordedPath p, line) = e.firstTodoOn t tags p line :=
  firstAt_eq_find?_line (fun _ => filepath_of_mem_todosOf hrecord) line

theorem firstAt_todosOf_of_ne (hrecord : e.registry.RecordPaths) {filepath : String}
    (hne : e.recordedPath p ≠ filepath) (line : UInt32) :
    firstAt (e.todosOf t tags p) (filepath, line) = none :=
  List.find?_eq_none.2 fun k hk =>
    List.find?_eq_none.1 (firstAt_commentsOf_of_ne hrecord hne line) k (List.mem_filter.1 hk).1

/-- Where the first comment on a line carries a tag, it is the first that does. -/
theorem firstTodoOn_of_firstOn {line : UInt32} {k : Comment} (h : e.firstOn t tags p line = some k)
    (hkind : k.kind = .todo) : e.firstTodoOn t tags p line = some k := by
  obtain ⟨hline, before, after, hsplit, hbefore⟩ := List.find?_eq_some_iff_append.1 h
  rw [firstTodoOn, todosOf, hsplit, List.filter_append, List.find?_append,
    List.filter_cons_of_pos (by simp [hkind]), List.find?_cons, hline]
  have hnone : (before.filter (·.kind == .todo)).find? (·.line == line) = none :=
    List.find?_eq_none.2 fun a ha hon =>
      absurd hon (by simpa using hbefore a (List.mem_filter.1 ha).1)
  rw [hnone, Option.none_or]

/-- Where there is a comment with a tag, there is a comment. -/
theorem exists_firstOn_of_firstTodoOn {line : UInt32} {k : Comment}
    (h : e.firstTodoOn t tags p line = some k) : ∃ first, e.firstOn t tags p line = some first := by
  rw [← Option.isSome_iff_exists, firstOn, List.find?_isSome]
  have hline : (k.line == line) = true := by simpa using List.find?_some h
  exact ⟨k, (List.mem_filter.1 (List.mem_of_find?_eq_some h)).1, hline⟩

end Marginalia.Discovery.Engine
