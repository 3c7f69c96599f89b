import Marginalia.Proofs.Command.FoundProject
import Marginalia.Proofs.Command.Steps
import Marginalia.Proofs.Store.Listing

set_option autoImplicit false

/-!
# The listing of a project

A listing that is asked for on the command line shows the notes that are of the file and of
the kind asked for, in the order of the listing of all notes, whichever query of the store
they come from.
-/

namespace Marginalia

open Marginalia.Text (decimalString)

/-! ## What is printed -/

/-- Notes on one line each. -/
def Note.allLines (notes : List Note) : String :=
  String.join (notes.map fun n => n.oneLine ++ "\n")

/-- What a listing of notes prints. -/
def Format.showNotes : Format → List Note → String
  | .json, notes => notesJson notes ++ "\n"
  | .text, [] => "No notes found.\n" ++ "Run notter scan to collect notes from your comments.\n"
  | .text, notes =>
    Note.allLines notes ++ "\n" ++ decimalString notes.length ++ " notes\n"

namespace Run

variable {s : Session} {c : Config} {store : Store}

theorem run_say (line : String) (s : Session) :
    (say line).run.run s = (.ok (), { s with printed := s.printed ++ (line ++ "\n") }) := rfl

/-- Lines that are said one after the other. -/
theorem run_sayEach (notes : List Note) (s : Session) :
    (notes.forM fun n => say n.oneLine).run.run s =
      (.ok (), { s with printed := s.printed ++ Note.allLines notes }) := by
  induction notes generalizing s with
  | nil =>
    rw [Note.allLines, List.map_nil, String.join_nil, String.append_empty]
    rfl
  | cons n notes ih =>
    rw [List.forM, run_bind_of_ok (run_say n.oneLine s), ih]
    simp only [Note.allLines, List.map_cons, String.join_cons, String.append_assoc]

/-! ## One listing -/

/-- Opening a project whose file of notes holds a store changes nothing. -/
theorem run_openProject (hc : Config.discover s.tree s.place = .ok c) (h : HasNotes c store s) :
    openProject.run.run s = (.ok c, s) := by
  have hopen : openStore s.tree c.notesPath = some (store, s.tree) := by
    rw [openStore, h]
  unfold openProject openNotes
  rw [run_bind_of_ok (run_openConfig hc), run_bind, run_bind_of_ok (run_tree s), hopen]
  rfl

/-- Whether a note is asked for. -/
def asksFor (c : Config) (s : Session) (kind : Option Kind) (file : Option Path) (n : Note) :
    Bool :=
  file.all (n.filepath == noteName c s ·) && kind.all (n.kind == ·)

/-- How notes that were found are shown. -/
theorem run_showFound (format : Format) (found : List Note) (s : Session) :
    (match format with
      | .json => say (notesJson found)
      | .text =>
        if found.isEmpty then do
          say "No notes found."
          sayHint
        else do
          found.forM fun n => say n.oneLine
          say ""
          say (decimalString found.length ++ " notes")).run.run s =
      (.ok (), { s with printed := s.printed ++ format.showNotes found }) := by
  cases format with
  | json => rfl
  | text =>
    cases found with
    | nil =>
      rw [List.isEmpty_nil, if_pos rfl, run_bind_of_ok (run_say _ s), sayHint, run_say,
        String.append_assoc]
      rfl
    | cons n rest =>
      have hshown : Format.text.showNotes (n :: rest) = Note.allLines (n :: rest) ++ "\n" ++
          decimalString (n :: rest).length ++ " notes\n" := rfl
      rw [List.isEmpty_cons, if_neg Bool.false_ne_true, hshown,
        run_bind_of_ok (run_sayEach (n :: rest) s), run_bind_of_ok (run_say _ _), run_say]
      simp only [String.append_assoc]
      rfl

/-- A listing shows the notes asked for, whichever query of the store finds them. -/
theorem run_list {notes : List Note} (hc : Config.discover s.tree s.place = .ok c)
    (h : HasNotes c store s) (hviews : store.Views notes) (kind : Option Kind)
    (file : Option Path) (format : Format) :
    (list kind file format).run.run s =
      (.ok (), { s with
        printed := s.printed ++ format.showNotes (notes.filter (asksFor c s kind file)) }) := by
  unfold list
  rw [run_bind_of_ok (run_openProject hc h), run_bind_of_ok (run_notes h)]
  cases file with
  | some file =>
    have hasks : asksFor c s kind (some file) = fun n =>
        kind.all (n.kind == ·) && n.filepath == noteName c s file :=
      funext fun n => Bool.and_comm _ _
    dsimp only
    rw [run_bind_of_ok (run_notePath c file s), hviews.byFile,
      run_bind_of_ok (run_orFail .ofStore (.ok _) s), hasks, ← List.filter_filter]
    exact run_showFound format _ s
  | none =>
    cases kind with
    | some kind =>
      have hasks : asksFor c s (some kind) none = fun n => n.kind == kind && n.kind == kind :=
        funext fun n => (Bool.and_self _).symm
      dsimp only
      rw [hviews.byKind, run_bind_of_ok (run_orFail .ofStore (.ok _) s), hasks,
        ← List.filter_filter]
      exact run_showFound format _ s
    | none =>
      dsimp only
      rw [hviews.all, run_bind_of_ok (run_orFail .ofStore (.ok _) s)]
      exact run_showFound format _ s

end Run

/-! ## Every store -/

open Run in
/-- After every run of operations that leaves rows which can be read, all queries are views
of one listing, and a listing on the command line shows the notes of it that are asked
for. -/
theorem Operation.queries_view_listing (ops : List (Operation × Mishaps))
    (h : (run ops).IsReadable) :
    ∃ notes, (run ops).Views notes ∧
      ∀ (s : Session) (c : Config), Config.discover s.tree s.place = .ok c →
        HasNotes c (run ops) s → ∀ kind file (format : Format),
          (list kind file format).run.run s = (.ok (), { s with
            printed := s.printed ++ format.showNotes (notes.filter (asksFor c s kind file)) }) := by
  obtain ⟨notes, hall⟩ := h
  have hviews := (intact_run ops).views hall
  exact ⟨notes, hviews, fun s c hc hnotes => run_list hc hnotes hviews⟩

/-! ## A small project -/

namespace Run

/-- The tree of a project with both notes. -/
def listedTree : FileTree :=
  { entries :=
      [(["srv"], .directory), (["srv", ".notter"], .directory),
       (["srv", ".notter", "config.json"], .file (.bytes (Config.ofRoot ⟨"/srv"⟩).print.toUTF8)),
       (["srv", ".notter", "notes.db"], .file (.notes (Operation.run Operation.twoNotes)))] }

/-- A session in the project. -/
def listedSession : Session :=
  { tree := listedTree, directory := ⟨"/srv"⟩, input := "", draws := fun _ => default
    printed := "" }

theorem descends_listedTree {name : String} {content : Content}
    (hname : Path.IsName name ∧ name.utf8ByteSize ≤ maxNameLength)
    (hentry : listedTree.entryAt? ["srv", ".notter", name] = some (.file content)) :
    listedTree.Descends [] ["srv", ".notter", name] (.file content) :=
  .down (by decide) rfl (.down (by decide) rfl (.last hname hentry (by nofun)))

theorem place_listedSession : listedSession.place = ⟨"/srv"⟩ := by
  have hstat : listedTree.stat ⟨"/srv"⟩ = .ok (["srv"], .directory) :=
    FileTree.Descends.stat (.last (by decide) rfl (by nofun)) (by decide) (by decide) rfl
  rw [Session.place, FileTree.canonical, show listedSession.directory = ⟨"/srv"⟩ from rfl,
    show listedSession.tree = listedTree from rfl, hstat]
  decide

theorem discover_listedSession :
    Config.discover listedSession.tree listedSession.place = .ok (.ofRoot ⟨"/srv"⟩) := by
  have hcandidate : Config.candidate ⟨"/srv"⟩ = ⟨"/srv/.notter/config.json"⟩ := by decide
  have hstat : listedTree.stat (Config.candidate ⟨"/srv"⟩) =
      .ok (["srv", ".notter", "config.json"],
        .file (.bytes (Config.ofRoot ⟨"/srv"⟩).print.toUTF8)) := by
    rw [hcandidate]
    exact (descends_listedTree (by decide) rfl).stat (by decide) (by decide) rfl
  have hnearest : Config.nearest? listedSession.tree listedSession.place = some ⟨"/srv"⟩ := by
    rw [place_listedSession, Config.nearest?, Path.ancestors]
    exact List.find?_cons_of_pos (by
      rw [FileTree.isFile, show listedSession.tree = listedTree from rfl, hstat])
  rw [Config.discover_of_nearest? hnearest]
  refine Config.load_printed ?_ ⟨Config.isBounded_ofRoot _, by decide⟩
  rw [FileTree.read, show listedSession.tree = listedTree from rfl, hstat]

theorem hasNotes_listedSession :
    HasNotes (.ofRoot ⟨"/srv"⟩) (Operation.run Operation.twoNotes) listedSession := by
  have hpath : (Config.ofRoot ⟨"/srv"⟩).notesPath = ⟨"/srv/.notter/notes.db"⟩ := by decide
  have hstat : listedTree.stat ⟨"/srv/.notter/notes.db"⟩ = .ok
      (["srv", ".notter", "notes.db"], .file (.notes (Operation.run Operation.twoNotes))) :=
    (descends_listedTree (by decide) rfl).stat (by decide) (by decide) rfl
  rw [HasNotes, hpath, show listedSession.tree = listedTree from rfl, FileTree.read, hstat]

end Run

open Run in
/-- Those of the notes of the file are shown that are of a kind. -/
theorem Operation.queries_view_listing_twoNotes :
    (run twoNotes).IsReadable ∧ ∃ notes, (run twoNotes).Views notes ∧
      (list (some .todo) (some ⟨"a.c"⟩) .text).run.run listedSession =
        (.ok (), { listedSession with
          printed := listedSession.printed ++ Format.text.showNotes (notes.filter
            (asksFor (.ofRoot ⟨"/srv"⟩) listedSession (some .todo) (some ⟨"a.c"⟩))) }) := by
  obtain ⟨notes, hviews, hlist⟩ := queries_view_listing twoNotes isReadable_twoNotes
  exact ⟨isReadable_twoNotes, notes, hviews,
    hlist _ _ discover_listedSession hasNotes_listedSession _ _ _⟩

end Marginalia
