import Marginalia.Proofs.Command.Steps
import Marginalia.Proofs.Discovery.Observation
import Marginalia.Proofs.Language.Builtin
import Marginalia.Proofs.Reconcile.Convergence
import Marginalia.Proofs.Reconcile.Success

set_option autoImplicit false

/-!
# What a full scan prunes

A pass knows the comments that were discovered and nothing of why others were not.  So a
full scan prunes the note at a place whenever it sees no comment there: because the file
is gone, because the comment is, but also because the file could not be read this time,
is no text, or because the work on it broke down.
-/

namespace Marginalia.Run

open Marginalia.Discovery (Engine Job readText)
open Marginalia.Reconcile (firstAt oldNoteIn oneNote)
open Marginalia.Time (Instant)

variable {c : Config} {e : Engine} {tags : List String} {finish : List Job → List Job}
  {store : Store} {s s' : Session}

/-- A full scan that ends well takes out the note at a place exactly if it overlooks the
place, for whatever reason, and every other note keeps its identifier. -/
theorem scanAll_prunes_iff (hnotes : HasNotes c store s) (hreach : store.Reachable)
    (hclock : ∀ n, (s.draws n).now.IsProper) (htree : s.tree.IsProper)
    (hreg : e.registry.IsBuilt) (hrecord : e.registry.RecordPaths)
    (hfinish : (finish (e.jobs s.tree)).Perm (e.jobs s.tree))
    (hrun : (scanAll c e tags finish).run.run s = (.ok (), s')) :
    ∃ before store', store.all = .ok before ∧ HasNotes c store' s' ∧ ∀ n ∈ before,
      (store'.rowAt? n.filepath n.line = none ↔ e.Overlooks s.tree tags n.place) ∧
        ∀ r, store'.rowAt? n.filepath n.line = some r → r.id = n.id.toText := by
  obtain ⟨found, report, d, hscanned⟩ := exists_scanned hnotes hrun
  obtain ⟨ns, hholds⟩ := hreach.holds
  obtain ⟨before, hall⟩ := Reconcile.exists_all_of_pass
    (d := ⟨store, s.draws⟩) (congrArg Prod.fst hscanned.passed)
  have hshows := hholds.shows_of_all hall
  obtain ⟨ns', hserves⟩ := Reconcile.serves_of_ok (d := ⟨store, s.draws⟩) hshows hclock
    hscanned.passed
  obtain ⟨listing, hlisting, hperm⟩ := Reconcile.exists_all hshows
  obtain rfl : before = listing := Except.ok.inj (hall.symm.trans hlisting)
  have hfinds := Engine.finds_of_discover htree hreg hrecord hfinish hscanned.discovered
  refine ⟨before, d.store, hall, hscanned.written.hasNotes hnotes, fun n hn => ?_⟩
  have hat : Note.at? ns n.place = some n :=
    hholds.at?_eq_some_iff.2 ⟨hperm.mem_iff.1 hn, rfl⟩
  have hrow : d.store.rowAt? n.filepath n.line = (Note.at? ns' n.place).map Row.ofNote :=
    hserves.holds.rowAt?_eq n.filepath n.line
  rw [hrow, Option.map_eq_none_iff, hfinds.overlooks_iff]
  constructor
  · constructor
    · intro hgone
      refine Option.eq_none_iff_forall_ne_some.2 fun k hk => ?_
      obtain ⟨m, hm, -⟩ := hserves.outcome.exists_agrees rfl hk
      rw [hgone] at hm
      cases hm
    · exact hserves.outcome.pruned n.place rfl
  · intro r hr
    obtain ⟨m, hm, rfl⟩ := Option.map_eq_some_iff.1 hr
    exact congrArg NoteId.toText (hserves.outcome.keeps hat hm).1

/-- A full scan ends well where there is a note already at each place that it finds a comment
at. -/
theorem exists_run_scanAll_of_known {ns : List Note} (hnotes : HasNotes c store s)
    (hshows : store.Shows ns) (hclock : ∀ n, (s.draws n).now.IsProper) (htree : s.tree.IsProper)
    (hdir : s.tree.isDirectory e.root = true) (hreg : e.registry.IsBuilt)
    (hrecord : e.registry.RecordPaths) (hfinish : (finish (e.jobs s.tree)).Perm (e.jobs s.tree))
    (hknown : ∀ p ∈ e.listed s.tree, ∀ k ∈ e.commentsOf s.tree tags p,
      ∃ n, Note.at? ns k.place = some n) :
    ∃ found d ns' s', e.Finds s.tree tags found ∧
      (scanAll c e tags finish).run.run s = (.ok (), s') ∧ WritesNotes c d.store s s' ∧
      Reconcile.Serves found none ⟨store, s.draws⟩ ns d ns' := by
  obtain ⟨found, hfound⟩ : ∃ found, e.discover s.tree tags finish = .ok found := ⟨_, if_pos hdir⟩
  have hfinds := Engine.finds_of_discover htree hreg hrecord hfinish hfound
  have hplaces : ∀ q k, Location.isIn none q → firstAt found q = some k →
      ∃ n, Note.at? ns q = some n := by
    intro q k _ hfirst
    obtain ⟨p, hp, -, hon⟩ := hfinds.seen q k hfirst
    have hplace : k.place = q := by simpa using List.find?_some hfirst
    exact hplace ▸ hknown p hp k (List.mem_of_find?_eq_some hon)
  obtain ⟨report, d, ns', hpass, hserves⟩ :=
    Reconcile.exists_serves (d := ⟨store, s.draws⟩) hshows hclock hplaces
  obtain ⟨s', hrun, hwritten⟩ := exists_run_scanAll hnotes hfound hpass
  exact ⟨found, d, ns', s', hfinds, hrun, hwritten, hserves⟩

/-! ## A project with one source file

The project has one source file and one note, of the first line of the file.  The name of the
file is a text or none, and what the file holds is left open: what a full scan makes of the
note is told by the comments that are found in the file. -/

/-- The names that the source file may have. -/
def soleNames : List RawText := ["a.c", 0xff :: ".c"]

/-- The settings of the project. -/
def soleConfig : Config := .ofRoot ⟨"/srv"⟩

/-- The tree of the project, by the name of the file and by what the file holds. -/
def soleTree (name : RawText) (data : ByteArray) : FileTree :=
  { entries :=
      [(["srv"], .directory), (["srv", ".notter"], .directory),
       (["srv", ".notter", "notes.db"], .file (.notes (oneNote name.shown))),
       (["srv", name], .file (.bytes data))] }

/-- The engine of the project. -/
def soleEngine : Engine :=
  { root := ⟨"/srv"⟩, registry := .standard
    exclusions := .ofTexts [] soleConfig.discoveryOptions.skipDirectories
    workers := Discovery.defaultWorkers, readChunk := Discovery.defaultReadChunk }

/-- The path of the source file. -/
def solePath (name : RawText) : Path := soleEngine.root.child name

/-- A session in the project, with a clock that stands still. -/
def soleSession (name : RawText) (data : ByteArray) : Session :=
  { tree := soleTree name data, directory := ⟨"/srv"⟩, input := ""
    draws := fun n => ⟨.ofRandom n, ⟨0, 0⟩⟩, printed := "" }

theorem keepsTime_soleSession (name : RawText) (data : ByteArray) :
    (soleSession name data).KeepsTime :=
  fun _ => show (Instant.mk 0 0).IsProper ∧ (Instant.mk 0 0).YearWithin 0 9998 by decide

section SoleFile

variable {name : RawText} (hname : name ∈ soleNames) (data : ByteArray)

include hname

theorem isProper_soleTree : (soleTree name data).IsProper := by
  have hplaces : ([["srv"], ["srv", ".notter"], ["srv", ".notter", "notes.db"],
      ["srv", name]] : List Place).Nodup ∧
      ∀ place ∈ ([["srv"], ["srv", ".notter"], ["srv", ".notter", "notes.db"],
        ["srv", name]] : List Place), ∀ s ∈ place, Path.IsName s := by
    rcases List.mem_pair.1 hname with rfl | rfl <;> decide
  exact ⟨hplaces.1, fun e he => hplaces.2 e.1 (List.mem_map_of_mem (f := (·.1)) he)⟩

theorem stat_soleTree_root : (soleTree name data).stat ⟨"/srv"⟩ = .ok (["srv"], .directory) := by
  rcases List.mem_pair.1 hname with rfl | rfl <;>
    exact FileTree.Descends.stat (.last (by decide) rfl (by nofun)) (by decide) (by decide) rfl

theorem stat_soleTree_file : (soleTree name data).stat (solePath name) =
    .ok (["srv", name], .file (.bytes data)) := by
  rcases List.mem_pair.1 hname with rfl | rfl <;>
    exact FileTree.Descends.stat (.down (by decide) rfl (.last (by decide) rfl (by nofun)))
      (by decide) (by decide) rfl

theorem hasNotes_soleSession :
    HasNotes soleConfig (oneNote name.shown) (soleSession name data) := by
  have hnotes : soleConfig.notesPath = ⟨"/srv/.notter/notes.db"⟩ := by decide
  have hstat : (soleTree name data).stat ⟨"/srv/.notter/notes.db"⟩ =
      .ok (["srv", ".notter", "notes.db"], .file (.notes (oneNote name.shown))) := by
    rcases List.mem_pair.1 hname with rfl | rfl <;>
      exact FileTree.Descends.stat
        (.down (by decide) rfl (.down (by decide) rfl (.last (by decide) rfl (by nofun))))
        (by decide) (by decide) rfl
  rw [HasNotes, hnotes, show (soleSession name data).tree = soleTree name data from rfl,
    FileTree.read, hstat]

theorem isDirectory_soleTree : (soleTree name data).isDirectory soleEngine.root = true := by
  rw [FileTree.isDirectory, show soleEngine.root = ⟨"/srv"⟩ from rfl, stat_soleTree_root hname]

/-- A walk comes to the file when it is kept out of the state directory. -/
theorem walk_soleTree {keep : FileTree.Visit → Bool} (hroot : keep ⟨[], true⟩ = true)
    (hstate : keep ⟨[".notter"], true⟩ = false) (hfile : keep ⟨[name], false⟩ = true) :
    (soleTree name data).walk keep ⟨"/srv"⟩ = [⟨[], true⟩, ⟨[name], false⟩] := by
  have hdepth : (soleTree name data).walkDepth = 24 + 1 := rfl
  have hnames : (soleTree name data).namesIn ["srv"] = ([".notter", name] : Place) := by
    rcases List.mem_pair.1 hname with rfl | rfl <;> rfl
  have hdown : (soleTree name data).walkName keep 24 [] [] ["srv"] ".notter" = [] :=
    FileTree.walkFrom_refused hstate
  have hleaf : (soleTree name data).walkName keep 24 [] [] ["srv"] name = [⟨[name], false⟩] := by
    rcases List.mem_pair.1 hname with rfl | rfl <;> exact FileTree.walkFrom_file hfile
  rw [FileTree.walk, stat_soleTree_root hname, hdepth]
  dsimp only
  rw [FileTree.walkFrom_directory hroot, hnames, List.flatMap_cons, List.flatMap_cons,
    List.flatMap_nil, hdown, hleaf]
  rfl

theorem extension?_solePath : (solePath name).extension? = some "c" := by
  rcases List.mem_pair.1 hname with rfl | rfl <;> decide

/-- The one file that a scan lists. -/
theorem mem_listed_sole {p : Path} :
    p ∈ soleEngine.listed (soleTree name data) ↔ p = solePath name := by
  have hwalk := @walk_soleTree name hname data
    (fun v => !soleEngine.exclusions.excludes soleEngine.root v) (by decide) (by decide)
    (by rcases List.mem_pair.1 hname with rfl | rfl <;> decide)
  rw [Engine.mem_listed_iff Language.Registry.isBuilt_standard]
  constructor
  · rintro ⟨v, hv, hfile, rfl, -⟩
    rcases List.mem_pair.1 (hwalk ▸ hv) with rfl | rfl
    · cases hfile
    · rfl
  · rintro rfl
    refine ⟨⟨[name], false⟩, ?_, rfl, rfl, "c", extension?_solePath hname, ?_⟩
    · exact hwalk ▸ List.mem_pair.2 (.inr rfl)
    · exact @Language.mem_extensions_standard Language.cRule (by decide) "c" (by decide)

/-- The file is recorded by its name as it is shown. -/
theorem recordedPath_sole : soleEngine.recordedPath (solePath name) = name.shown := by
  rcases List.mem_pair.1 hname with rfl | rfl <;> decide

/-- The comments of the file, by those of its text. -/
theorem commentsOf_sole {text : String} {comments : List Comment}
    (htext : String.fromUTF8? data = some text)
    (hextract : (Language.Extractor.ofRule? Language.cRule).bind
      (·.extract name.shown text (.ofList ["TODO"])) = some comments) :
    soleEngine.commentsOf (soleTree name data) ["TODO"] (solePath name) = comments := by
  obtain ⟨extractor, hrule, hcomments⟩ := Option.bind_eq_some_iff.1 hextract
  have hget : soleEngine.registry.get? ((solePath name).extension?.getD "") = some extractor := by
    rw [extension?_solePath hname, Option.getD_some, ← hrule]
    exact @Language.get?_standard Language.cRule (by decide) "c" (by decide)
  have hread : readText (soleTree name data) (solePath name) = .ok text := by
    rw [readText, FileTree.read, stat_soleTree_file hname]
    simp only [Content.text?, htext]
  rw [Engine.commentsOf_eq hget hread, recordedPath_sole hname, hcomments]
  rfl

/-- A full scan of the project ends well when all comments of the file are on its first
line, where the note is. -/
theorem exists_run_sole
    (hlines : ∀ k ∈ soleEngine.commentsOf (soleTree name data) ["TODO"] (solePath name),
      k.line = 1) :
    ∃ found d ns s', soleEngine.Finds (soleTree name data) ["TODO"] found ∧
      (∀ line, firstAt found (name.shown, line) =
        soleEngine.firstOn (soleTree name data) ["TODO"] (solePath name) line) ∧
      (scanAll soleConfig soleEngine ["TODO"] id).run.run (soleSession name data) =
        (.ok (), s') ∧
      WritesNotes soleConfig d.store (soleSession name data) s' ∧
      Reconcile.Serves found none ⟨oneNote name.shown, (soleSession name data).draws⟩
        [oldNoteIn name.shown] d ns := by
  obtain ⟨found, d, ns, s', hfinds, hrun, hwritten, hserves⟩ := exists_run_scanAll_of_known
    (hasNotes_soleSession hname data) (Reconcile.oneNote_shows name.shown)
    (fun n => (keepsTime_soleSession name data n).1) (isProper_soleTree hname data)
    (isDirectory_soleTree hname data) Language.Registry.isBuilt_standard
    Language.Registry.recordPaths_standard (.of_eq (id_eq _)) fun p hp k hk => by
      obtain rfl := (mem_listed_sole hname data).1 hp
      have hplace : k.place = (name.shown, 1) := Prod.ext
        ((Engine.filepath_of_mem_commentsOf Language.Registry.recordPaths_standard hk).trans
          (recordedPath_sole hname)) (hlines k hk)
      exact hplace ▸ ⟨_, (Reconcile.oneNote_shows name.shown).at?_eq_some_iff.2
        ⟨List.mem_singleton.2 rfl, rfl⟩⟩
  refine ⟨found, d, ns, s', hfinds, fun line => ?_, hrun, hwritten, hserves⟩
  rw [← recordedPath_sole hname]
  exact hfinds.alone ((mem_listed_sole hname data).2 rfl)
    (fun q hq _ => (mem_listed_sole hname data).1 hq) line

end SoleFile

/-! ## A file that is no text any more

The source file of the project cannot be decoded. -/

/-- A byte that is no text. -/
def spoilt : ByteArray := ⟨#[0xff]⟩

theorem mem_soleNames_plain : Text.bytes "a.c" ∈ soleNames := List.mem_pair.2 (.inl rfl)

theorem readText_spoilt :
    readText (soleTree "a.c" spoilt) (solePath "a.c") = .error (.decode (solePath "a.c")) := by
  have hutf : String.fromUTF8? spoilt = none := by decide
  rw [readText, FileTree.read, stat_soleTree_file mem_soleNames_plain]
  simp only [Content.text?, hutf]

theorem commentsOf_spoilt :
    soleEngine.commentsOf (soleTree "a.c" spoilt) ["TODO"] (solePath "a.c") = [] :=
  Engine.commentsOf_of_no_text fun text htext => by
    rw [readText_spoilt] at htext
    cases htext

/-- The scan of the project ends well, and the note is gone after it. -/
theorem exists_run_spoilt :
    ∃ s' store', (scanAll soleConfig soleEngine ["TODO"] id).run.run (soleSession "a.c" spoilt) =
        (.ok (), s') ∧ HasNotes soleConfig store' s' ∧ store'.rowAt? "a.c" 1 = none := by
  obtain ⟨found, d, ns, s', -, hfirst, hrun, hwritten, hserves⟩ :=
    exists_run_sole mem_soleNames_plain spoilt fun k hk => by
      rw [commentsOf_spoilt] at hk
      exact absurd hk List.not_mem_nil
  have hnone : firstAt found ("a.c", 1) = none := by
    refine (hfirst 1).trans ?_
    rw [Engine.firstOn, commentsOf_spoilt]
    rfl
  refine ⟨s', d.store, hrun,
    hwritten.hasNotes (hasNotes_soleSession mem_soleNames_plain spoilt), ?_⟩
  rw [hserves.holds.rowAt?_eq, hserves.outcome.pruned ("a.c", 1) rfl hnone]
  rfl

/-- The exact condition at work in the project. -/
theorem scanAll_prunes_iff_spoilt :
    ∃ s' before store',
      (scanAll soleConfig soleEngine ["TODO"] id).run.run (soleSession "a.c" spoilt) =
        (.ok (), s') ∧
      (oneNote "a.c").all = .ok before ∧ HasNotes soleConfig store' s' ∧
      ∀ n ∈ before,
        (store'.rowAt? n.filepath n.line = none ↔
            soleEngine.Overlooks (soleTree "a.c" spoilt) ["TODO"] n.place) ∧
          ∀ r, store'.rowAt? n.filepath n.line = some r → r.id = n.id.toText := by
  obtain ⟨s', -, hrun, -⟩ := exists_run_spoilt
  obtain ⟨before, store', hall, hnotes, hspec⟩ :=
    scanAll_prunes_iff (hasNotes_soleSession mem_soleNames_plain spoilt)
      (Reconcile.oneNote_reachable _) (fun n => (keepsTime_soleSession _ spoilt n).1)
      (isProper_soleTree mem_soleNames_plain spoilt) Language.Registry.isBuilt_standard
      Language.Registry.recordPaths_standard (.of_eq (id_eq _)) hrun
  exact ⟨s', before, store', hrun, hall, hnotes, hspec⟩

/-- A file that is there and is listed, and is only no text this time, loses its note. -/
theorem scanAll_prunes_undecoded :
    solePath "a.c" ∈ soleEngine.listed (soleTree "a.c" spoilt) ∧
      soleEngine.recordedPath (solePath "a.c") = "a.c" ∧
      readText (soleTree "a.c" spoilt) (solePath "a.c") = .error (.decode (solePath "a.c")) ∧
      (∃ n, (oneNote "a.c").all = .ok [n] ∧ n.place = ("a.c", 1)) ∧
      ∃ s' store', (scanAll soleConfig soleEngine ["TODO"] id).run.run (soleSession "a.c" spoilt) =
        (.ok (), s') ∧ HasNotes soleConfig store' s' ∧ store'.rowAt? "a.c" 1 = none :=
  ⟨(mem_listed_sole mem_soleNames_plain spoilt).2 rfl, recordedPath_sole mem_soleNames_plain,
    readText_spoilt, ⟨Reconcile.oldNote, congrArg Prod.fst Reconcile.smallDesk_list, rfl⟩,
    exists_run_spoilt⟩

end Marginalia.Run
