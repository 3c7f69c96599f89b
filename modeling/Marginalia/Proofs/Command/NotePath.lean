import Marginalia.Proofs.Command.Standing
import Marginalia.Proofs.Discovery.StateDirectory
import Marginalia.Proofs.Path.Lexical

set_option autoImplicit false

/-!
# One path for the notes of a file

A command takes a file as seen from the directory it is run in.  Its notes are kept under
the names that the path of the file leads to by its letters, as they are shown: below the
source root only those below it, elsewhere all of them with a slash before each.  So the text
is the same whatever the spelling of the file is, and a command does the same for a file
wherever it is run.  If the names are texts, the text tells which file it is and is a spelling
of the file itself.
-/

namespace Marginalia

open Marginalia.Discovery (Engine)
open Marginalia.Text (joinWith)

/-- A command on the notes of one file. -/
inductive FileCommand where
  | add (line : UInt32) (text : String) (todo : Bool)
  | showNote (line : UInt32) (format : Format)
  | edit (line : UInt32) (text : String)
  | delete (line : UInt32)
  | list (kind : Option Kind) (format : Format)
  | scan (tags : List String)

/-- The command for a file. -/
def FileCommand.on (file : Path) : FileCommand → Command
  | .add line text todo => .add file line text todo
  | .showNote line format => .showNote file line format
  | .edit line text => .edit file line text
  | .delete line => .delete file line
  | .list kind format => .list kind (some file) format
  | .scan tags => .scan tags (some file)

namespace Run

variable {α : Type} {here here' : Place} {s s' : Session} {c : Config}

/-! ## Parts of the commands -/

section Parts

variable (h : s.Alike here here' s')

include h

theorem agree_sayReport (r : Report) : Agree here here' s s' (sayReport r) (sayReport r) := by
  unfold sayReport
  split
  · exact agree_bind (agree_say h _) fun _ _ _ h₁ => agree_say h₁ _
  · refine agree_bind (agree_say h _) fun _ _ _ h₁ => ?_
    refine agree_bind (agree_say h₁ _) fun _ _ _ h₂ => ?_
    refine agree_bind (agree_say h₂ _) fun _ _ _ h₃ => ?_
    refine agree_bind (agree_say h₃ _) fun _ _ _ h₄ => ?_
    refine agree_bind (agree_say h₄ _) fun _ _ _ h₅ => ?_
    exact agree_forM (fun key _ _ h => agree_say h _) _ h₅

/-- When a note was written and changed, and its text. -/
theorem agree_sayTimes (n : Note) :
    let times : Run Unit := do
      say ("  Created:  " ++ n.createdAt.toSecondText)
      say ("  Updated:  " ++ n.updatedAt.toSecondText)
      say ""
      (Text.lines n.text.toList).forM fun l => say ("  " ++ String.ofList l)
    Agree here here' s s' times times := by
  refine agree_bind (agree_say h _) fun _ _ _ h₁ => ?_
  refine agree_bind (agree_say h₁ _) fun _ _ _ h₂ => ?_
  refine agree_bind (agree_say h₂ _) fun _ _ _ h₃ => ?_
  exact agree_forM (fun l _ _ h => agree_say h _) _ h₃

theorem agree_noteAt (hp : c.notesPath.isAbsolute = true) (filepath : String) (line : UInt32)
    (advice : String) :
    Agree here here' s s' (noteAt c filepath line advice) (noteAt c filepath line advice) := by
  unfold noteAt
  refine agree_bind (agree_notes h hp) fun store _ _ h₁ => ?_
  split
  · exact agree_pure h₁ _
  · exact agree_throw h₁ _
  · exact agree_throw h₁ _

/-- A scan of a file in one place does the same in both sessions. -/
theorem agree_scanFile {file file' : Path} (hroot : c.sourceRoot.isAbsolute = true)
    (heq : c.sourceRoot.plainRelativeTo ((FileTree.pathOf here).join file) =
      c.sourceRoot.plainRelativeTo ((FileTree.pathOf here').join file')) {e : Engine}
    (he : e.root = c.sourceRoot) (tags : List String) :
    Agree here here' s s' (scanFile c e tags file) (scanFile c e tags file') := by
  have hp : c.notesPath.isAbsolute = true := Config.isAbsolute_notesPath hroot
  refine agree_bind (agree_notePath h heq) fun filepath s₁ s₁' h₁ => ?_
  have hfile : (e.resolve ⟨filepath⟩).isAbsolute = true :=
    Path.isAbsolute_join_of_isAbsolute (he ▸ hroot) _
  refine agree_tree_bind ?_
  rw [Engine.discoverFile_of_entries h₁.entries hfile]
  split
  · exact agree_bind (agree_attempt h₁ hp _) fun r _ _ h₂ => agree_sayReport h₂ r
  · exact agree_bind (agree_attempt h₁ hp _) fun _ _ _ h₂ => agree_say h₂ _
  · exact agree_throw h₁ _

/-- The engine of a project starts at its source root. -/
theorem agree_engineFor_bind {k k' : Engine → Run α}
    (hk : ∀ e : Engine, e.root = c.sourceRoot → Agree here here' s s' (k e) (k' e)) :
    Agree here here' s s' (engineFor c >>= k) (engineFor c >>= k') := by
  unfold engineFor
  cases hcreate : Engine.create? c.sourceRoot .standard c.discoveryOptions with
  | error f => exact agree_throw h _
  | ok e => exact hk e (Engine.eq_of_create? hcreate).1

end Parts

variable {file file' : Path}

/-- Most commands on a file open the project and then tell which file it is. -/
theorem agree_openFile_bind (h : s.Alike here here' s') (hroot : c.sourceRoot.isAbsolute = true)
    (hc : Config.discover s.tree s.place = .ok c)
    (hc' : Config.discover s'.tree s'.place = .ok c)
    (heq : c.sourceRoot.plainRelativeTo ((FileTree.pathOf here).join file) =
      c.sourceRoot.plainRelativeTo ((FileTree.pathOf here').join file'))
    {k : Config → String → Run α}
    (hk : ∀ filepath s₁ s₁', s₁.Alike here here' s₁' →
      Agree here here' s₁ s₁' (k c filepath) (k c filepath)) :
    Agree here here' s s' (openProject >>= fun c => notePath c file >>= k c)
      (openProject >>= fun c => notePath c file' >>= k c) :=
  agree_openProject_bind h (Config.isAbsolute_notesPath hroot) hc hc' fun _ _ h₁ =>
    agree_bind (agree_notePath h₁ heq) hk

/-- A command does the same in both sessions when it is given a file in one place as seen
from where they stand. -/
theorem agree_on (h : s.Alike here here' s') (hroot : c.sourceRoot.isAbsolute = true)
    (hc : Config.discover s.tree s.place = .ok c)
    (hc' : Config.discover s'.tree s'.place = .ok c)
    (heq : c.sourceRoot.plainRelativeTo ((FileTree.pathOf here).join file) =
      c.sourceRoot.plainRelativeTo ((FileTree.pathOf here').join file')) (f : FileCommand) :
    Agree here here' s s' (f.on file).run (f.on file').run := by
  have hp : c.notesPath.isAbsolute = true := Config.isAbsolute_notesPath hroot
  -- once the path is told, the rest of a command is the same in both sessions
  cases f with
  | add line text todo =>
    refine agree_openFile_bind h hroot hc hc' heq fun filepath s₁ s₁' h₁ => ?_
    refine agree_bind (agree_draw h₁) fun drawn s₂ s₂' h₂ => ?_
    refine agree_bind (agree_notes h₂ hp) fun store s₃ s₃' h₃ => ?_
    split
    · exact agree_bind (agree_setNotes h₃ hp _) fun _ s₄ s₄' h₄ => agree_say h₄ _
    · exact agree_throw h₃ _
    · exact agree_throw h₃ _
  | showNote line format =>
    refine agree_openFile_bind h hroot hc hc' heq fun filepath s₁ s₁' h₁ => ?_
    refine agree_bind (agree_noteAt h₁ hp filepath line listAdvice) fun n s₂ s₂' h₂ => ?_
    cases format with
    | json => exact agree_say h₂ _
    | text =>
      refine agree_bind (agree_say h₂ _) fun _ s₃ s₃' h₃ => ?_
      refine agree_bind (agree_say h₃ _) fun _ s₄ s₄' h₄ => ?_
      dsimp only
      split
      · exact agree_bind (agree_say h₄ _) fun _ _ _ h₅ => agree_sayTimes h₅ n
      · exact agree_bind (agree_say h₄ _) fun _ _ _ h₅ => agree_sayTimes h₅ n
      · exact agree_sayTimes h₄ n
  | edit line text =>
    refine agree_openFile_bind h hroot hc hc' heq fun filepath s₁ s₁' h₁ => ?_
    refine agree_bind (agree_noteAt h₁ hp filepath line _) fun existing s₂ s₂' h₂ => ?_
    refine agree_bind (agree_draw h₂) fun drawn s₃ s₃' h₃ => ?_
    refine agree_bind (agree_notes h₃ hp) fun store s₄ s₄' h₄ => ?_
    refine agree_bind (agree_orFail h₄ .ofStore _) fun changed s₅ s₅' h₅ => ?_
    exact agree_bind (agree_setNotes h₅ hp changed) fun _ s₆ s₆' h₆ => agree_say h₆ _
  | delete line =>
    refine agree_openFile_bind h hroot hc hc' heq fun filepath s₁ s₁' h₁ => ?_
    refine agree_bind (agree_noteAt h₁ hp filepath line listAdvice) fun _ s₂ s₂' h₂ => ?_
    refine agree_bind (agree_notes h₂ hp) fun store s₃ s₃' h₃ => ?_
    exact agree_bind (agree_setNotes h₃ hp _) fun _ s₄ s₄' h₄ => agree_say h₄ _
  | list kind format =>
    refine agree_openProject_bind h hp hc hc' fun s₁ s₁' h₁ => ?_
    refine agree_bind (agree_notes h₁ hp) fun store s₂ s₂' h₂ => ?_
    refine agree_bind (agree_notePath h₂ heq) fun filepath s₃ s₃' h₃ => ?_
    refine agree_bind (agree_orFail h₃ .ofStore _) fun found s₄ s₄' h₄ => ?_
    cases format with
    | json => exact agree_say h₄ _
    | text =>
      dsimp only
      split
      · exact agree_bind (agree_say h₄ _) fun _ s₅ s₅' h₅ => agree_say h₅ _
      · refine agree_bind (agree_forM (fun n _ _ h => agree_say h _) _ h₄) fun _ s₅ s₅' h₅ => ?_
        exact agree_bind (agree_say h₅ _) fun _ s₆ s₆' h₆ => agree_say h₆ _
  | scan tags =>
    refine agree_openProject_bind h hp hc hc' fun s₁ s₁' h₁ => ?_
    exact agree_engineFor_bind h₁ fun e he => agree_scanFile h₁ hroot heq he _

/-! ## Any spelling of a file -/

/-- What the text tells that notes are kept under, of a file that is told by the names that
its path leads to. -/
structure IsKeptUnder (c : Config) (base names : List RawText) (n : String) : Prop where
  /-- the names are names, also as they are shown: not empty, no dot and no double dots -/
  isName : ∀ name ∈ names, Path.IsName name ∧ Path.IsName name.reread
  /-- a file below the source root is told by the names below it, -/
  below : ∀ rest, names = base ++ rest → n = joinWith "/" (rest.map RawText.shown)
  /-- and any other by all names, with a slash before each -/
  elsewhere : ¬base <+: names → n = "/" ++ joinWith "/" (names.map RawText.shown)
  /-- taken as a path at the source root the text stands for itself, unless it leads below the
  root and the file lies elsewhere, -/
  again_iff : ∀ r : Session, r.place.parts = c.sourceRoot.parts →
    ((notePath c ⟨n⟩).run.run r = (.ok n, r) ↔
      (base <+: names ↔ base <+: Path.toldNames base names))
  /-- so it stands for itself if the file lies below the root, or if the names are texts -/
  again : base <+: names ∨ (∀ name ∈ names, name.isText = true) →
    ∀ r : Session, r.place.parts = c.sourceRoot.parts → (notePath c ⟨n⟩).run.run r = (.ok n, r)

theorem isKeptUnder_plainRelativeTo {c : Config} {p : Path} {base names : List RawText}
    (hroot : c.sourceRoot.parts = .root :: base.map .name) (h : p.ResolvesTo names) :
    IsKeptUnder c base names (c.sourceRoot.plainRelativeTo p) := by
  have htext : ∀ l : List RawText, (Path.ofNames l).text = joinWith "/" (l.map RawText.shown) :=
    fun l => (Path.joinParts_names_eq_text l).symm.trans (Path.joinParts_names l)
  have hagain : ∀ r : Session, r.place.parts = c.sourceRoot.parts →
      ((notePath c ⟨c.sourceRoot.plainRelativeTo p⟩).run.run r =
          (.ok (c.sourceRoot.plainRelativeTo p), r) ↔
        (base <+: names ↔ base <+: Path.toldNames base names)) := fun r hr => by
    rw [run_notePath, Prod.mk.injEq, Except.ok.injEq, and_iff_left rfl]
    exact Path.plainRelativeTo_join_iff hroot hr h
  refine ⟨fun name hname => ⟨h.2.isName name hname, (h.2.isName name hname).reread⟩, ?_, ?_,
    hagain, fun hor r hr => (hagain r hr).2 ?_⟩
  · rintro rest rfl
    rw [Path.plainRelativeTo_of_below hroot h, htext]
  · intro hbase
    rw [Path.plainRelativeTo_of_elsewhere hroot h hbase, htext]
  · rcases hor with ⟨rest, rfl⟩ | hnames
    · rw [Path.toldNames_append]
      exact iff_of_true (List.prefix_append _ _) (List.prefix_append _ _)
    · rw [Path.toldNames_eq_self hnames]

/-- The text that notes of a file are kept under.  Every absolute path leads to names, and
two files are kept under one text if and only if both lie below the source root or neither
does, and the names that their paths lead to are shown alike; if these are texts, if and only
if they are the same.  Commands on paths that lead to the same names do the same, each run in
the directory that its path is seen from. -/
theorem notePath_of_file {c : Config} {base : List RawText} {s s' : Session}
    (hroot : c.sourceRoot.parts = .root :: base.map .name)
    (hs : s.directory.isAbsolute = true) (hs' : s'.directory.isAbsolute = true)
    (file file' : Path) :
    ∃ names names' n n',
      (∀ l, (s.place.join file).ResolvesTo l ↔ l = names) ∧
      (∀ l, (s'.place.join file').ResolvesTo l ↔ l = names') ∧
      (notePath c file).run.run s = (.ok n, s) ∧
      (notePath c file').run.run s' = (.ok n', s') ∧
      IsKeptUnder c base names n ∧ IsKeptUnder c base names' n' ∧
      (n = n' ↔ (base <+: names ↔ base <+: names') ∧
        names.map RawText.shown = names'.map RawText.shown) ∧
      ((∀ name ∈ names, name.isText = true) → (∀ name ∈ names', name.isText = true) →
        (n = n' ↔ names = names')) ∧
      (names = names' → ∀ here here', s.Alike here here' s' →
        Config.discover s.tree s.place = .ok c → Config.discover s'.tree s'.place = .ok c →
          ∀ f : FileCommand, Agree here here' s s' (f.on file).run (f.on file').run) := by
  have hfile := Path.isAbsolute_join_of_isAbsolute (Session.isAbsolute_place hs) file
  have hfile' := Path.isAbsolute_join_of_isAbsolute (Session.isAbsolute_place hs') file'
  obtain ⟨names, hnames⟩ := Path.exists_resolvesTo hfile
  obtain ⟨names', hnames'⟩ := Path.exists_resolvesTo hfile'
  have hiff := Path.plainRelativeTo_eq_iff hroot hnames hnames'
  refine ⟨names, names', _, _, fun l => ⟨fun h => h.unique hnames, fun h => h ▸ hnames⟩,
    fun l => ⟨fun h => h.unique hnames', fun h => h ▸ hnames'⟩, run_notePath c file s,
    run_notePath c file' s', isKeptUnder_plainRelativeTo hroot hnames,
    isKeptUnder_plainRelativeTo hroot hnames', hiff, fun htext htext' => ?_, ?_⟩
  · -- texts that are shown alike are the same
    have hself : ∀ l : List RawText, (∀ name ∈ l, name.isText = true) →
        (l.map RawText.shown).map Text.bytes = l := fun l hl =>
      List.map_map.trans ((List.map_congr_left fun name hname =>
        RawText.bytes_shown_iff.2 (hl name hname)).trans (List.map_id l))
    rw [hiff]
    refine ⟨fun h => ?_, fun h => h ▸ ⟨Iff.rfl, rfl⟩⟩
    rw [← hself names htext, h.2, hself names' htext']
  · intro heq here here' halike hc hc' f
    have hsame := hiff.2 (heq ▸ ⟨Iff.rfl, rfl⟩)
    rw [Session.place_of_stat halike.stands, Session.place_of_stat halike.stands'] at hsame
    exact agree_on halike ((Path.isAbsolute_iff_head? _).2 (by rw [hroot]; rfl)) hc hc' hsame f

/-- The text that notes of a file are kept under in the project at `/srv/p`. -/
theorem run_notePath_neighbour {file : Path} {n : String}
    (h : Path.plainRelativeTo ⟨"/srv/p"⟩ (Path.join ⟨"/srv/p"⟩ file) = n) :
    (notePath Engine.neighbourConfig file).run.run Engine.neighbourSession =
      (.ok n, Engine.neighbourSession) := by
  rw [run_notePath, Engine.place_neighbourSession,
    show Engine.neighbourConfig.sourceRoot = ⟨"/srv/p"⟩ from rfl, h]

/-- Two files whose names are no texts have their notes under one text.  And a file beside the
source root is scanned under another text than the other commands keep its notes under. -/
theorem notePath_hides_file :
    ((Engine.neighbourSession.place.join ⟨0xfe :: ".c"⟩).ResolvesTo ["srv", "p", 0xfe :: ".c"] ∧
      (Engine.neighbourSession.place.join ⟨0xff :: ".c"⟩).ResolvesTo ["srv", "p", 0xff :: ".c"] ∧
      (notePath Engine.neighbourConfig ⟨0xfe :: ".c"⟩).run.run Engine.neighbourSession =
        (.ok "\ufffd.c", Engine.neighbourSession) ∧
      (notePath Engine.neighbourConfig ⟨0xff :: ".c"⟩).run.run Engine.neighbourSession =
        (.ok "\ufffd.c", Engine.neighbourSession)) ∧
    ((notePath Engine.neighbourConfig ⟨"../x.c"⟩).run.run Engine.neighbourSession =
        (.ok "/srv/x.c", Engine.neighbourSession) ∧
      Engine.neighbourEngine.recordedPath (Engine.neighbourEngine.resolve ⟨"/srv/x.c"⟩) =
        "//srv/x.c") := by
  rw [Engine.place_neighbourSession]
  refine ⟨⟨(Path.resolvesTo_iff (by decide)).2 (by decide),
    (Path.resolvesTo_iff (by decide)).2 (by decide), run_notePath_neighbour (by decide),
    run_notePath_neighbour (by decide)⟩, run_notePath_neighbour (by decide), ?_⟩
  show Path.relativeTo ⟨"/srv/p"⟩ (Path.join ⟨"/srv/p"⟩ ⟨"/srv/x.c"⟩) = "//srv/x.c"
  decide

/-! ## A project that a command is run in twice -/

/-- A session in the state directory of a project. -/
def innerSession : Session :=
  { twinSession ⟨"/srv/q"⟩ with directory := ⟨"/srv/q/.notter"⟩ }

theorem stat_innerSession : innerSession.tree.stat innerSession.directory =
    .ok (["srv", "q", ".notter"], .directory) :=
  FileTree.Descends.stat (.down (by decide) rfl (.down (by decide) rfl
    (.last (by decide) rfl (by nofun)))) (by decide) (by decide) rfl

theorem place_innerSession : innerSession.place = ⟨"/srv/q/.notter"⟩ := by
  rw [Session.place_of_stat stat_innerSession]
  decide

theorem discover_innerSession :
    Config.discover innerSession.tree innerSession.place = .ok (twinConfig ⟨"/srv/q"⟩) := by
  -- the state directory holds no settings of a project of its own
  have hlost : (twinTree ⟨"/srv/q"⟩).isFile ⟨"/srv/q/.notter/.notter/config.json"⟩ = false := by
    have hdown : (twinTree ⟨"/srv/q"⟩).Descends [] ["srv", "q", ".notter"] .directory :=
      .down (by decide) rfl (.down (by decide) rfl (.last (by decide) rfl (by nofun)))
    obtain ⟨fewer, hgo⟩ := FileTree.follow_append _ (hdown.follow true linkBudget)
    have hlocate : (twinTree ⟨"/srv/q"⟩).locate true ⟨"/srv/q/.notter/.notter/config.json"⟩ =
        .error .notFound := by
      have hsegments : Path.segments ⟨"/srv/q/.notter/.notter/config.json"⟩ =
          [] :: ((["srv", "q", ".notter"] : Place) ++ ([".notter", "config.json"] : Place)) := by
        decide
      rw [FileTree.locate_of_isSound (by decide), FileTree.start?,
        if_pos (by decide : Path.isAbsolute ⟨"/srv/q/.notter/.notter/config.json"⟩ = true),
        hsegments]
      refine (FileTree.follow_skipped (.inl rfl)).trans ((hgo true _ (by decide)).trans ?_)
      rw [FileTree.follow_name (FileTree.isLookedUp_of_isName (by decide))]
      rfl
    rw [FileTree.isFile, FileTree.stat, hlocate]
  have hnearest : Config.nearest? innerSession.tree innerSession.place = some ⟨"/srv/q"⟩ := by
    have hfound := nearest?_twinSession ⟨"/srv/q"⟩
    have hancestors : Path.ancestors ⟨"/srv/q/.notter"⟩ =
        ⟨"/srv/q/.notter"⟩ :: Path.ancestors ⟨"/srv/q"⟩ := by decide
    have hcandidate : Config.candidate ⟨"/srv/q/.notter"⟩ =
        ⟨"/srv/q/.notter/.notter/config.json"⟩ := by decide
    rw [place_twinSession] at hfound
    rw [place_innerSession, Config.nearest?, hancestors, List.find?_cons_of_neg]
    · exact hfound
    · rw [hcandidate]
      exact Bool.eq_false_iff.1 hlost
  exact (Config.discover_of_nearest? hnearest).trans (load_twinSession _ (by decide))

/-- A file of the project, named from its root and from its state directory: its notes are
kept under one text, and commands on it do the same. -/
theorem notePath_of_file_inner :
    (notePath (twinConfig ⟨"/srv/q"⟩) ⟨"lib//./a.c"⟩).run.run (twinSession ⟨"/srv/q"⟩) =
        (.ok "lib/a.c", twinSession ⟨"/srv/q"⟩) ∧
      (notePath (twinConfig ⟨"/srv/q"⟩) ⟨"../lib/a.c"⟩).run.run innerSession =
        (.ok "lib/a.c", innerSession) ∧
      ∀ f : FileCommand, Agree ["srv", "q"] ["srv", "q", ".notter"] (twinSession ⟨"/srv/q"⟩)
        innerSession (f.on ⟨"lib//./a.c"⟩).run (f.on ⟨"../lib/a.c"⟩).run := by
  obtain ⟨names, names', n, n', hresolves, hresolves', hn, hn', hkept, -, hsame, -, hagree⟩ :=
    @notePath_of_file (twinConfig ⟨"/srv/q"⟩) ["srv", "q"] (twinSession ⟨"/srv/q"⟩) innerSession
      (by decide) rfl rfl ⟨"lib//./a.c"⟩ ⟨"../lib/a.c"⟩
  have hleads : Path.ResolvesTo ((twinSession ⟨"/srv/q"⟩).place.join ⟨"lib//./a.c"⟩)
      ["srv", "q", "lib", "a.c"] := by
    rw [place_twinSession, Path.resolvesTo_iff (by decide)]
    decide
  have hleads' : innerSession.place.join ⟨"../lib/a.c"⟩ |>.ResolvesTo
      ["srv", "q", "lib", "a.c"] := by
    rw [place_innerSession, Path.resolvesTo_iff (by decide)]
    decide
  obtain rfl := (hresolves _).1 hleads
  obtain rfl := (hresolves' _).1 hleads'
  obtain rfl := hsame.2 ⟨Iff.rfl, rfl⟩
  obtain rfl : n = "lib/a.c" := (hkept.below ["lib", "a.c"] rfl).trans (by decide)
  refine ⟨hn, hn', hagree rfl _ _ ⟨rfl, rfl, rfl, rfl, ?_, stat_innerSession⟩ ?_
    discover_innerSession⟩
  · exact FileTree.Descends.stat (.down (by decide) rfl (.last (by decide) rfl (by nofun)))
      (by decide) (by decide) rfl
  · exact (Config.discover_of_nearest? (nearest?_twinSession _)).trans
      (load_twinSession _ (by decide))

end Run

end Marginalia
