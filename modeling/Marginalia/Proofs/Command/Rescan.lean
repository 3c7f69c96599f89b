import Marginalia.Proofs.Command.Pruning
import Marginalia.Proofs.Reconcile.Idempotence
import Marginalia.Proofs.Reconcile.Refresh

set_option autoImplicit false

/-!
# A file scanned alone after a full scan

A full scan keeps the first comment of each line.  A scan of one file sees its comments
with a tag only, and keeps the first of these.  So after a full scan it leaves the notes
with a tag as they are and removes the others of the file, unless a comment with a tag
stands behind the first one on the line: the note then becomes that comment.
-/

namespace Marginalia

/-! ## The path of a listed file -/

namespace Discovery.Engine

variable {e : Engine} {t : FileTree} {p q : Path}

section Listed

variable (ht : t.IsProper) (hreg : e.registry.IsBuilt) (hdir : t.isDirectory e.root = true)
  (hroot : e.root.isAbsolute = true) (hp : p ∈ e.listed t)

include ht hreg hdir hp

/-- The last part of a listed file is a name. -/
theorem exists_plainParts_of_mem_listed :
    ∃ before s, p.plainParts = before ++ [.name s] := by
  obtain ⟨names, hne, hnames, rfl⟩ := exists_names_of_mem_listed ht hreg hdir hp
  have hparts := Path.parts_foldl_child (FileTree.bytes_ne_of_isDirectory hdir) hnames
  obtain ⟨front, s, rfl⟩ := (List.eq_nil_or_concat' names).resolve_left hne
  rw [List.map_append, ← List.append_assoc] at hparts
  obtain ⟨before, hplain⟩ := Path.plainParts_of_parts hparts
  exact ⟨before, s, hplain⟩

include hroot

/-- Below the root a command names a listed file as it is recorded. -/
theorem plainRelativeTo_of_mem_listed (h : e.root.LeadsBelow p) :
    e.root.plainRelativeTo p = e.recordedPath p := by
  obtain ⟨names, -, -, hparts⟩ := exists_parts_of_mem_listed ht hreg hdir hp
  exact Path.plainRelativeTo_of_leadsBelow hroot
    (isAbsolute_of_mem_listed ht hreg hdir hroot hp) hparts h

/-- Elsewhere it names the file as no listed file is recorded, -/
theorem recordedPath_ne_plainRelativeTo (h : ¬e.root.LeadsBelow p) (hq : q ∈ e.listed t) :
    e.recordedPath q ≠ e.root.plainRelativeTo p := by
  intro heq
  obtain ⟨names, -, hnames, rfl⟩ := exists_names_of_mem_listed ht hreg hdir hq
  have habsolute := Path.isAbsolute_plainRelativeTo
    (isAbsolute_of_mem_listed ht hreg hdir hroot hp) h
  have hreread : ∀ s ∈ names.map RawText.reread, Path.IsName s := fun s hs => by
    obtain ⟨n, hn, rfl⟩ := List.mem_map.1 hs
    exact (hnames n hn).reread
  rw [← heq, recordedPath,
    Path.relativeTo_foldl_child (FileTree.bytes_ne_of_isDirectory hdir) hnames,
    Path.mk_text_ofNames, Path.isAbsolute_ofNames hreread] at habsolute
  cases habsolute

/-- and what is found in the file when it is scanned alone is recorded elsewhere too. -/
theorem recordedPath_resolve_ne (h : ¬e.root.LeadsBelow p) :
    e.recordedPath (e.resolve ⟨e.root.plainRelativeTo p⟩) ≠ e.root.plainRelativeTo p := by
  obtain ⟨before, s, hplain⟩ := exists_plainParts_of_mem_listed ht hreg hdir hp
  have hkeeps : ¬e.root.KeepsText p := by
    rintro (hbelow | hbare)
    · exact h hbelow
    · rw [hplain, List.append_eq_singleton_iff] at hbare
      simp at hbare
  exact mt (Path.relativeTo_join_eq_iff hroot
    (isAbsolute_of_mem_listed ht hreg hdir hroot hp)).1 hkeeps

end Listed

end Discovery.Engine

namespace Run

open Reconcile (firstAt Outcome Serves Settled Refreshes)
open Discovery (Engine Job)

variable {c : Config} {e : Engine} {tags : List String} {finish : List Job → List Job}
  {store : Store} {s s₁ s₂ : Session} {ns : List Note} {p file : Path}

/-! ## The first scan -/

/-- After a full scan that ends well the notes tell of the comments that count, and each
can be changed once more. -/
theorem exists_settled (hnotes : HasNotes c store s) (hreach : store.Reachable)
    (htimes : store.TimesWithin 0 9998) (hclock : s.KeepsTime) (htree : s.tree.IsProper)
    (hreg : e.registry.IsBuilt) (hrecord : e.registry.RecordPaths)
    (hfinish : (finish (e.jobs s.tree)).Perm (e.jobs s.tree))
    (hrun : (scanAll c e tags finish).run.run s = (.ok (), s₁)) :
    ∃ found store₁ ns₁, s.tree.isDirectory e.root = true ∧ e.Finds s.tree tags found ∧
      Settled found none ns₁ ∧ WritesNotes c store₁ s s₁ ∧
      store₁.Holds ns₁ ∧ ∀ n ∈ ns₁, n.HasRoom 1 := by
  obtain ⟨found, report, d, hscanned⟩ := exists_scanned hnotes hrun
  obtain ⟨ns, hshows, -⟩ := Reconcile.shows_of_reachable hreach htimes
  obtain ⟨ns₁, hserves⟩ := Reconcile.serves_of_ok (d := ⟨store, s.draws⟩) hshows
    (fun n => (hclock n).1) hscanned.passed
  refine ⟨found, d.store, ns₁, Engine.isDirectory_of_discover hscanned.discovered, ?_,
    hserves.outcome.settled, hscanned.written, hserves.holds, ?_⟩
  · exact Engine.finds_of_discover htree hreg hrecord hfinish hscanned.discovered
  · refine hserves.room 1 (fun n => (hclock n).2.hasRoom (by decide)) fun n hn => ?_
    obtain ⟨hcreated, hupdated⟩ := hshows.timesWithin htimes n hn
    exact ⟨(hshows.readable n hn).1, hupdated.hasRoom (by decide)⟩

/-! ## Notes that tell of what was found -/

section Settled

variable {t : FileTree} {found : List Comment} (hfinds : e.Finds t tags found)
  (hsettled : Settled found none ns) (hp : p ∈ e.listed t)

include hfinds hsettled hp

/-- A note is where a comment with a tag is. -/
theorem exists_at?_of_firstTodoOn (halone : e.IsRecordedAlone t p) {line : UInt32} {k : Comment}
    (h : e.firstTodoOn t tags p line = some k) :
    ∃ n, Note.at? ns (e.recordedPath p, line) = some n := by
  obtain ⟨first, hfirst⟩ := Engine.exists_firstOn_of_firstTodoOn h
  obtain ⟨n, hat, -⟩ := hsettled.agreed (e.recordedPath p, line) first rfl
    ((hfinds.alone hp halone line).trans hfirst)
  exact ⟨n, hat⟩

/-- A note with a tag says what the first comment with a tag on its line says. -/
theorem exists_agrees_of_todo (halone : e.IsRecordedAlone t p) (hholds : store.Holds ns)
    {n : Note} (hn : n ∈ ns)
    (hfile : n.filepath = e.recordedPath p) (hkind : n.kind = .todo) :
    ∃ k, e.firstTodoOn t tags p n.line = some k ∧ Reconcile.agrees n k = true := by
  have hat : Note.at? ns n.place = some n := hholds.at?_eq_some_iff.2 ⟨hn, rfl⟩
  cases hfirst : firstAt found n.place with
  | none =>
    rw [hsettled.bare _ rfl hfirst] at hat
    cases hat
  | some k =>
    obtain ⟨m, hm, hagrees⟩ := hsettled.agreed _ k rfl hfirst
    obtain rfl : n = m := Option.some.inj (hat.symm.trans hm)
    have hon : e.firstOn t tags p n.line = some k := by
      rw [← hfinds.alone hp halone, ← hfile]
      exact hfirst
    have htodo : k.kind = .todo := ((Reconcile.agrees_iff n k).1 hagrees).2.symm.trans hkind
    exact ⟨k, Engine.firstTodoOn_of_firstOn hon htodo, hagrees⟩

variable (ht : t.IsProper) (hreg : e.registry.IsBuilt) (hrecord : e.registry.RecordPaths)
  (hdir : t.isDirectory e.root = true) (hroot : e.root.isAbsolute = true)
  (htold : e.root.LeadsBelow p → e.root.IsTextBelow p ∧ e.IsRecordedAlone t p)

include ht hreg hrecord hdir hroot htold

/-- What is found in a listed file that is scanned alone is at places of notes. -/
theorem exists_at?_of_todosOf {line : UInt32} {k : Comment}
    (h : firstAt (e.todosOf t tags (e.resolve ⟨e.root.plainRelativeTo p⟩))
      (e.root.plainRelativeTo p, line) = some k) :
    ∃ n, Note.at? ns (e.root.plainRelativeTo p, line) = some n := by
  by_cases hbelow : e.root.LeadsBelow p
  · obtain ⟨htext, halone⟩ := htold hbelow
    rw [Engine.plainRelativeTo_of_mem_listed ht hreg hdir hroot hp hbelow,
      Engine.resolve_recordedPath ht hreg hdir hp htext, Engine.firstAt_todosOf hrecord] at h
    rw [Engine.plainRelativeTo_of_mem_listed ht hreg hdir hroot hp hbelow]
    exact exists_at?_of_firstTodoOn hfinds hsettled hp halone h
  · rw [Engine.firstAt_todosOf_of_ne hrecord
      (Engine.recordedPath_resolve_ne ht hreg hdir hroot hp hbelow)] at h
    cases h

variable {store' : Store} {ns' before after : List Note} (hholds : store.Holds ns)
  (hholds' : store'.Holds ns')
  (houtcome : Outcome (e.todosOf t tags (e.resolve ⟨e.root.plainRelativeTo p⟩))
    (some (e.root.plainRelativeTo p)) ns ns')

include hholds hholds' houtcome

/-- The pass over a file that is named as it is recorded refreshes its notes. -/
theorem refreshes_of_outcome (hbefore : before.Perm ns) (hafter : after.Perm ns')
    (hbelow : e.root.LeadsBelow p) :
    Refreshes (e.recordedPath p) (e.firstTodoOn t tags p) before after := by
  obtain ⟨htext, halone⟩ := htold hbelow
  rw [Engine.plainRelativeTo_of_mem_listed ht hreg hdir hroot hp hbelow,
    Engine.resolve_recordedPath ht hreg hdir hp htext] at houtcome
  have hfirst : e.firstTodoOn t tags p = fun line =>
      firstAt (e.todosOf t tags p) (e.recordedPath p, line) :=
    funext fun line => (Engine.firstAt_todosOf hrecord line).symm
  rw [hfirst]
  refine houtcome.refreshes hholds hholds' hbefore hafter
    (fun k => Engine.kind_of_mem_todosOf) (fun line k hk => ?_) fun n hn hfile hkind => ?_
  · rw [Engine.firstAt_todosOf hrecord] at hk
    exact exists_at?_of_firstTodoOn hfinds hsettled hp halone hk
  · obtain ⟨k, hk, hagrees⟩ := exists_agrees_of_todo hfinds hsettled hp halone hholds hn hfile
        hkind
    refine ⟨k, ?_, hagrees⟩
    rw [show n.place = (e.recordedPath p, n.line) from Prod.ext hfile rfl,
      Engine.firstAt_todosOf hrecord]
    exact hk

omit htold in
/-- The pass over a file that is named otherwise leaves all notes. -/
theorem perm_of_outcome (hbelow : ¬e.root.LeadsBelow p) : ns'.Perm ns := by
  refine houtcome.perm_of_bare hholds hholds' (fun line => ?_) fun line => ?_
  · exact Engine.firstAt_todosOf_of_ne hrecord
      (Engine.recordedPath_resolve_ne ht hreg hdir hroot hp hbelow) line
  · exact hsettled.bare _ rfl (hfinds.unlisted (fun q hq =>
      Engine.recordedPath_ne_plainRelativeTo ht hreg hdir hroot hp hbelow hq) line)

end Settled

/-! ## The second scan -/

/-- A scan of one file ends well if a note is wherever it finds a comment. -/
theorem exists_serves_scanFile {t : FileTree} {name : String} (hnotes : HasNotes c store s)
    (hshows : store.Shows ns) (hclock : s.KeepsTime) (hname : noteName c s file = name)
    (hsame : e.discoverFile s.tree tags ⟨name⟩ = e.discoverFile t tags ⟨name⟩)
    (hknown : ∀ line k, firstAt (e.todosOf t tags (e.resolve ⟨name⟩)) (name, line) = some k →
      ∃ n, Note.at? ns (name, line) = some n) :
    ∃ s' d ns', (scanFile c e tags file).run.run s = (.ok (), s') ∧ WritesNotes c d.store s s' ∧
      Serves (e.todosOf t tags (e.resolve ⟨name⟩)) (some name) ⟨store, s.draws⟩ ns d ns' := by
  subst hname
  rw [Engine.discoverFile_eq e t] at hsame
  split at hsame
  · rename_i hmissing
    have htext : ∀ text, Discovery.readText t (e.resolve ⟨noteName c s file⟩) ≠ .ok text := by
      intro text htext
      obtain ⟨place, data, hstat, -⟩ := FileTree.exists_bytes_of_readText htext
      rw [hmissing] at hstat
      cases hstat
    have hnone : e.todosOf t tags (e.resolve ⟨noteName c s file⟩) = [] :=
      Engine.todosOf_of_no_text htext
    obtain ⟨keys, d, ns', hpurge, hserves⟩ :=
      Reconcile.exists_serves_purge (d := ⟨store, s.draws⟩) hshows (noteName c s file)
    obtain ⟨s', hrun, hwritten⟩ := exists_run_scanFile_of_missing hnotes hsame hpurge
    exact ⟨s', d, ns', hrun, hwritten, hnone ▸ hserves⟩
  · have hplaces : ∀ q k, q.isIn (some (noteName c s file)) →
        firstAt (e.todosOf t tags (e.resolve ⟨noteName c s file⟩)) q = some k →
        ∃ n, Note.at? ns q = some n := by
      rintro ⟨filepath, line⟩ k hin hk
      obtain rfl : filepath = _ := Reconcile.isIn_some_iff.1 hin
      exact hknown line k hk
    obtain ⟨report, d, ns', hpass, hserves⟩ := Reconcile.exists_serves
      (d := ⟨store, s.draws⟩) hshows (fun n => (hclock n).1) hplaces
    obtain ⟨s', hrun, hwritten⟩ := exists_run_scanFile hnotes hsame hpass
    exact ⟨s', d, ns', hrun, hwritten, hserves⟩

/-- A file that a full scan has listed, scanned alone with the same tags in a tree where
nothing else has changed, loses the notes on whose line no comment carries a tag, and the
notes on whose line one stands behind the first become that comment.  All other notes stay
as they are, and none is added.  If the file is named by a path that does not lead below
the root, nothing changes at all.  A file below the root is asked to have names that are
texts and a recorded path of its own; by the text of a path no other is found again. -/
theorem scanFile_refreshes (hroot : c.sourceRoot.isAbsolute = true) (he : e.root = c.sourceRoot)
    (hreg : e.registry.IsBuilt) (hrecord : e.registry.RecordPaths)
    (hnotes : HasNotes c store s) (hreach : store.Reachable)
    (htimes : store.TimesWithin 0 9998) (hclock : s.KeepsTime) (htree : s.tree.IsProper)
    (hfinish : (finish (e.jobs s.tree)).Perm (e.jobs s.tree))
    (hrun : (scanAll c e tags finish).run.run s = (.ok (), s₁)) (hp : p ∈ e.listed s.tree)
    (hentries : s₂.tree.entries = s₁.tree.entries) (hclock₂ : s₂.KeepsTime)
    (htold : e.root.LeadsBelow p → e.root.IsTextBelow p ∧ e.IsRecordedAlone s.tree p)
    (hfile : (s₂.place.join file).plainParts = p.plainParts) :
    ∃ s₃ store₁ store₂ before after,
      HasNotes c store₁ s₁ ∧ store₁.all = .ok before ∧
      (scanFile c e tags file).run.run s₂ = (.ok (), s₃) ∧
      HasNotes c store₂ s₃ ∧ store₂.all = .ok after ∧
      (e.root.LeadsBelow p →
        Refreshes (e.recordedPath p) (e.firstTodoOn s.tree tags p) before after) ∧
      (¬e.root.LeadsBelow p → after.Perm before) := by
  obtain ⟨found, store₁, ns₁, hdir, hfinds, hsettled, hwritten, hholds, hroom⟩ :=
    exists_settled hnotes hreach htimes hclock htree hreg hrecord hfinish hrun
  have hnotes₁ : HasNotes c store₁ s₁ := hwritten.hasNotes hnotes
  have hnotes₂ : HasNotes c store₁ s₂ :=
    (FileTree.read_of_entries hentries (Path.isAbsolute_join_of_isAbsolute
      (Path.isAbsolute_join_of_isAbsolute hroot _) _)).trans hnotes₁
  have hshows : store₁.Shows ns₁ := ⟨hholds, fun n hn => (hroom n hn).timesWithin⟩
  obtain ⟨before, hbefore, hperm⟩ := Reconcile.exists_all hshows
  rw [← he] at hroot
  have hsame : e.discoverFile s₂.tree tags ⟨e.root.plainRelativeTo p⟩ =
      e.discoverFile s.tree tags ⟨e.root.plainRelativeTo p⟩ :=
    (Engine.discoverFile_of_entries hentries (Path.isAbsolute_join_of_isAbsolute hroot _)).trans
      (FileTree.discoverFile_write_notes hnotes hwritten e tags _)
  have hname : noteName c s₂ file = e.root.plainRelativeTo p := by
    rw [he]
    exact Path.plainRelativeTo_congr _ hfile
  obtain ⟨s₃, d, ns₂, hrun₂, hwritten₂, hserves⟩ :=
    exists_serves_scanFile hnotes₂ hshows hclock₂ hname hsame fun line k =>
      exists_at?_of_todosOf hfinds hsettled hp htree hreg hrecord hdir hroot htold
  have hroom₂ := hserves.room 0 (fun n => (hclock₂ n).2.hasRoom (by decide)) hroom
  have hshows₂ : d.store.Shows ns₂ := ⟨hserves.holds, fun n hn => (hroom₂ n hn).timesWithin⟩
  obtain ⟨after, hafter, hperm₂⟩ := Reconcile.exists_all hshows₂
  refine ⟨s₃, store₁, d.store, before, after, hnotes₁, hbefore, hrun₂,
    hwritten₂.hasNotes hnotes₂, hafter,
    fun hbelow => ?_, fun hbelow => ?_⟩
  · exact refreshes_of_outcome hfinds hsettled hp htree hreg hrecord hdir hroot htold hholds
      hserves.holds hserves.outcome hperm hperm₂ hbelow
  · have hsame := perm_of_outcome hfinds hsettled hp htree hreg hrecord hdir hroot hholds
      hserves.holds hserves.outcome hbelow
    exact hperm₂.trans (hsame.trans hperm.symm)

/-! ## After a full scan of the project with one source file -/

section SoleFile

variable {name : RawText} (hname : name ∈ soleNames) (data : ByteArray)

/-- A later session in the project. -/
def soleLater (name : RawText) (data : ByteArray) (t : FileTree) : Session :=
  { soleSession name data with tree := t }

include hname

theorem place_soleLater {store : Store} {s : Session}
    (h : WritesNotes soleConfig store (soleSession name data) s) :
    (soleLater name data s.tree).place = ⟨"/srv"⟩ := by
  have hcanonical : s.tree.canonical ⟨"/srv"⟩ = .ok ⟨"/srv"⟩ := by
    rw [FileTree.canonical_of_write (hasNotes_soleSession hname data) h, FileTree.canonical,
      show (soleSession name data).tree = soleTree name data from rfl, stat_soleTree_root hname]
    exact congrArg Except.ok (show FileTree.pathOf ["srv"] = ⟨"/srv"⟩ by decide)
  rw [Session.place, soleLater, show (soleSession name data).directory = ⟨"/srv"⟩ from rfl,
    hcanonical]
  rfl

/-- After a full scan of the project its note is the first comment of the file, if all are on
the first line and this one is none that the note tells of already. -/
theorem exists_run_first {front : Comment} {rest : List Comment}
    (hcomments : soleEngine.commentsOf (soleTree name data) ["TODO"] (solePath name) =
      front :: rest) (hlines : ∀ k ∈ front :: rest, k.line = 1)
    (hdiffers : Reconcile.agrees (Reconcile.oldNoteIn name.shown) front = false) :
    ∃ store₁ ns₁ n s₁, (scanAll soleConfig soleEngine ["TODO"] id).run.run
        (soleSession name data) = (.ok (), s₁) ∧
      WritesNotes soleConfig store₁ (soleSession name data) s₁ ∧
      store₁.Holds ns₁ ∧ (∀ m ∈ ns₁, m.HasRoom 1) ∧
      Note.at? ns₁ (name.shown, 1) = some n ∧ n.toDraft = .ofComment front := by
  obtain ⟨found, d, ns₁, s₁, -, hfirst, hrun, hwritten, hserves⟩ :=
    exists_run_sole hname data fun k hk => hlines k (hcomments ▸ hk)
  have hfront : firstAt found (name.shown, 1) = some front := by
    rw [hfirst 1, Engine.firstOn, hcomments]
    exact List.find?_cons_of_pos (beq_iff_eq.2 (hlines front List.mem_cons_self))
  have hat : Note.at? [Reconcile.oldNoteIn name.shown] (name.shown, 1) =
      some (Reconcile.oldNoteIn name.shown) :=
    (Reconcile.oneNote_shows name.shown).at?_eq_some_iff.2 ⟨List.mem_singleton.2 rfl, rfl⟩
  obtain ⟨t, ht⟩ := hserves.outcome.updated _ front _ rfl hfront hat hdiffers
  refine ⟨d.store, ns₁, _, s₁, hrun, hwritten, hserves.holds, ?_, ht, rfl⟩
  refine hserves.room 1 (fun n => (keepsTime_soleSession name data n).2.hasRoom (by decide))
    fun n hn => ?_
  obtain ⟨hcreated, hupdated⟩ :=
    Reconcile.timesWithin_oldNoteIn name.shown (show 1970 ≤ 9998 by decide)
  rw [List.mem_singleton.1 hn]
  exact ⟨hcreated.mono (by decide) (by decide), hupdated.hasRoom (by decide)⟩

/-- A scan of the file alone then ends well if a note is wherever it finds a comment in the
file that the name leads to as it is shown. -/
theorem exists_run_again {store₁ : Store} {ns₁ : List Note} {s₁ : Session}
    (hwritten : WritesNotes soleConfig store₁ (soleSession name data) s₁)
    (hholds : store₁.Holds ns₁) (hroom : ∀ m ∈ ns₁, m.HasRoom 1)
    (hknown : ∀ line k, firstAt (soleEngine.todosOf (soleTree name data) ["TODO"]
        (soleEngine.resolve ⟨name.shown⟩)) (name.shown, line) = some k →
      ∃ n, Note.at? ns₁ (name.shown, line) = some n) :
    ∃ s₂ d ns₂, (scanFile soleConfig soleEngine ["TODO"] ⟨name⟩).run.run
        (soleLater name data s₁.tree) = (.ok (), s₂) ∧ HasNotes soleConfig d.store s₂ ∧
      Serves (soleEngine.todosOf (soleTree name data) ["TODO"]
        (soleEngine.resolve ⟨name.shown⟩)) (some name.shown)
        ⟨store₁, (soleSession name data).draws⟩ ns₁ d ns₂ ∧ ∀ m ∈ ns₂, m.HasRoom 0 := by
  have hnotes := hasNotes_soleSession hname data
  have hnotes₂ : HasNotes soleConfig store₁ (soleLater name data s₁.tree) :=
    hwritten.hasNotes hnotes
  have hname₂ : noteName soleConfig (soleLater name data s₁.tree) ⟨name⟩ = name.shown := by
    rw [noteName, place_soleLater hname data hwritten]
    rcases List.mem_pair.1 hname with rfl | rfl <;> decide
  obtain ⟨s₂, d, ns₂, hrun₂, hwritten₂, hserves⟩ := exists_serves_scanFile hnotes₂
    ⟨hholds, fun m hm => (hroom m hm).timesWithin⟩ (keepsTime_soleSession name data) hname₂
    (FileTree.discoverFile_write_notes hnotes hwritten soleEngine ["TODO"] ⟨name.shown⟩) hknown
  exact ⟨s₂, d, ns₂, hrun₂, hwritten₂.hasNotes hnotes₂, hserves,
    hserves.room 0 (fun k => (keepsTime_soleSession name data k).2.hasRoom (by decide)) hroom⟩

end SoleFile

/-! ## Two comments on a line -/

/-- A comment with a tag behind one without. -/
def pairText : String := "/* a */ /* TODO b */\n"

/-- The comment that a full scan keeps. -/
def frontComment : Comment := ⟨"a.c", "/* a */", 1, .note, false⟩

/-- The comment that a scan of the file alone keeps. -/
def backComment : Comment := ⟨"a.c", "/* TODO b */", 1, .todo, false⟩

theorem commentsOf_pair :
    soleEngine.commentsOf (soleTree "a.c" pairText.toUTF8) ["TODO"] (solePath "a.c") =
      [frontComment, backComment] :=
  commentsOf_sole mem_soleNames_plain _ (FileTree.fromUTF8?_toUTF8 pairText)
    (Language.extract_of_sorted (by decide) (by decide +kernel) (by decide +kernel))

/-- After a full scan of the project its note is the comment in front. -/
theorem exists_run_pair :
    ∃ store₁ ns₁ n s₁, (scanAll soleConfig soleEngine ["TODO"] id).run.run
        (soleSession "a.c" pairText.toUTF8) = (.ok (), s₁) ∧
      WritesNotes soleConfig store₁ (soleSession "a.c" pairText.toUTF8) s₁ ∧
      store₁.Holds ns₁ ∧ (∀ m ∈ ns₁, m.HasRoom 1) ∧
      Note.at? ns₁ ("a.c", 1) = some n ∧ n.toDraft = .ofComment frontComment :=
  exists_run_first mem_soleNames_plain _ commentsOf_pair (by decide) (by decide)

/-- The scan of the file of the project, after a full scan. -/
theorem scanFile_refreshes_pair :
    ∃ s₁ s₃ store₁ store₂ before after,
      (scanAll soleConfig soleEngine ["TODO"] id).run.run (soleSession "a.c" pairText.toUTF8) =
        (.ok (), s₁) ∧
      HasNotes soleConfig store₁ s₁ ∧ store₁.all = .ok before ∧
      (scanFile soleConfig soleEngine ["TODO"] ⟨"a.c"⟩).run.run
        (soleLater "a.c" pairText.toUTF8 s₁.tree) = (.ok (), s₃) ∧
      HasNotes soleConfig store₂ s₃ ∧ store₂.all = .ok after ∧
      Refreshes "a.c"
        (soleEngine.firstTodoOn (soleTree "a.c" pairText.toUTF8) ["TODO"] (solePath "a.c"))
        before after := by
  obtain ⟨_, _, _, s₁, hrun, hwritten, -⟩ := exists_run_pair
  have hbelow : soleEngine.root.LeadsBelow (solePath "a.c") := by
    show Path.parts ⟨"/srv"⟩ <+: (solePath "a.c").plainParts
    decide
  have hfile : ((soleLater "a.c" pairText.toUTF8 s₁.tree).place.join ⟨"a.c"⟩).plainParts =
      (solePath "a.c").plainParts := by
    rw [place_soleLater mem_soleNames_plain _ hwritten]
    decide
  have halone : soleEngine.IsRecordedAlone (soleTree "a.c" pairText.toUTF8) (solePath "a.c") :=
    fun q hq _ => (mem_listed_sole mem_soleNames_plain _).1 hq
  obtain ⟨s₃, store₁, store₂, before, after, hnotes₁, hbefore, hrun₂, hnotes₂, hafter, hsame, -⟩ :=
    scanFile_refreshes (by decide) (show soleEngine.root = soleConfig.sourceRoot from rfl)
      Language.Registry.isBuilt_standard Language.Registry.recordPaths_standard
      (hasNotes_soleSession mem_soleNames_plain _) (Reconcile.oneNote_reachable _)
      (Reconcile.oneNote_timesWithin _) (keepsTime_soleSession "a.c" pairText.toUTF8)
      (isProper_soleTree mem_soleNames_plain _) (.of_eq (id_eq _)) hrun
      ((mem_listed_sole mem_soleNames_plain _).2 rfl)
      (show (soleLater "a.c" pairText.toUTF8 s₁.tree).tree.entries = s₁.tree.entries from rfl)
      (keepsTime_soleSession "a.c" pairText.toUTF8) (fun _ => ⟨by decide, halone⟩) hfile
  have hrecorded : soleEngine.recordedPath (solePath "a.c") = "a.c" :=
    recordedPath_sole mem_soleNames_plain
  refine ⟨s₁, s₃, store₁, store₂, before, after, hrun, hnotes₁, hbefore, hrun₂, hnotes₂, hafter, ?_⟩
  rw [← hrecorded]
  exact hsame hbelow

/-- The note that a full scan leaves without a tag is not removed by a scan of the file but
changed, to the comment that stands behind. -/
theorem exists_run_revised :
    ∃ s₁ s₂ store₁ store₂ n m,
      (scanAll soleConfig soleEngine ["TODO"] id).run.run (soleSession "a.c" pairText.toUTF8) =
        (.ok (), s₁) ∧
      HasNotes soleConfig store₁ s₁ ∧ store₁.get "a.c" 1 = .ok n ∧
      n.toDraft = .ofComment frontComment ∧
      (scanFile soleConfig soleEngine ["TODO"] ⟨"a.c"⟩).run.run
        (soleLater "a.c" pairText.toUTF8 s₁.tree) = (.ok (), s₂) ∧
      HasNotes soleConfig store₂ s₂ ∧ store₂.get "a.c" 1 = .ok m ∧
      m.toDraft = .ofComment backComment ∧ m.id = n.id := by
  obtain ⟨store₁, ns₁, n, s₁, hrun, hwritten, hholds, hroom, hat, hdraft⟩ := exists_run_pair
  have htodos : soleEngine.todosOf (soleTree "a.c" pairText.toUTF8) ["TODO"]
      (soleEngine.resolve ⟨"a.c"⟩) = [backComment] := by
    rw [show soleEngine.resolve ⟨"a.c"⟩ = solePath "a.c" by decide, Engine.todosOf,
      commentsOf_pair]
    rfl
  obtain ⟨s₂, d, ns₂, hrun₂, hnotes₂, hserves, hroom₂⟩ :=
    exists_run_again mem_soleNames_plain _ hwritten hholds hroom fun line k hk => by
      have hk : firstAt [backComment] ("a.c", line) = some k := htodos ▸ hk
      have hline := Reconcile.place_of_firstAt hk
      rw [List.mem_singleton.1 (List.mem_of_find?_eq_some hk)] at hline
      exact ⟨n, hline ▸ hat⟩
  have hfirst : firstAt (soleEngine.todosOf (soleTree "a.c" pairText.toUTF8) ["TODO"]
      (soleEngine.resolve ⟨"a.c"⟩)) ("a.c", 1) = some backComment := by
    rw [htodos]
    rfl
  have hdiffers : Reconcile.agrees n backComment = false := by
    have htext : n.text = "/* a */" := congrArg Draft.text hdraft
    simp [Reconcile.agrees, htext, backComment]
  obtain ⟨t, ht⟩ := hserves.outcome.updated ("a.c", 1) backComment n rfl hfirst hat hdiffers
  refine ⟨s₁, s₂, store₁, d.store, n, n.revise (.ofComment backComment) t, hrun,
    hwritten.hasNotes (hasNotes_soleSession mem_soleNames_plain _), ?_, hdraft, hrun₂, hnotes₂, ?_,
    rfl, rfl⟩
  · exact hholds.get_eq_ok_iff.2 ⟨hat, (hroom n (hholds.at?_eq_some_iff.1 hat).1).timesWithin⟩
  · exact hserves.holds.get_eq_ok_iff.2
      ⟨ht, (hroom₂ _ (hserves.holds.at?_eq_some_iff.1 ht).1).timesWithin⟩

/-! ## A name that is no text -/

/-- The name of the source file, when it is none. -/
def garbledSole : RawText := 0xff :: ".c"

theorem mem_soleNames_garbled : garbledSole ∈ soleNames := List.mem_pair.2 (.inr rfl)

/-- The comment of the file. -/
def garbledComment : Comment := ⟨"\ufffd.c", "// TODO a", 1, .todo, false⟩

theorem commentsOf_garbledSole :
    soleEngine.commentsOf (soleTree garbledSole "// TODO a\n".toUTF8) ["TODO"]
      (solePath garbledSole) = [garbledComment] :=
  commentsOf_sole mem_soleNames_garbled _ (FileTree.fromUTF8?_toUTF8 _)
    (Language.extract_of_sorted (by decide) (by decide +kernel) (by decide +kernel))

/-- Nothing is where the name leads to as it is shown. -/
theorem stat_shown_garbledSole (data : ByteArray) :
    (soleTree garbledSole data).stat (soleEngine.resolve ⟨"\ufffd.c"⟩) = .error .notFound := by
  have hpath : soleEngine.resolve ⟨"\ufffd.c"⟩ = ⟨"/srv/\ufffd.c"⟩ := by decide
  have hsegments : Path.segments ⟨"/srv/\ufffd.c"⟩ = ([[], "srv", "\ufffd.c"] : Place) := by decide
  have hlocate : (soleTree garbledSole data).locate true ⟨"/srv/\ufffd.c"⟩ =
      .ok (.vacant ["srv", "\ufffd.c"] false) := by
    rw [FileTree.locate_of_isSound (by decide), FileTree.start?, if_pos (by decide), hsegments]
    refine (FileTree.follow_skipped (.inl rfl)).trans ?_
    rw [FileTree.follow_directory (FileTree.isLookedUp_of_isName (by decide)) rfl,
      if_neg (by decide), FileTree.follow_name (FileTree.isLookedUp_of_isName (by decide))]
    rfl
  rw [hpath, FileTree.stat, hlocate]

/-- The note of a file that is there and holds the comment is removed by a scan of the file:
what is looked for is the name as it is shown, and no file goes by it. -/
theorem exists_run_mistaken :
    ∃ s₁ s₂ store₁ store₂ n,
      (scanAll soleConfig soleEngine ["TODO"] id).run.run
        (soleSession garbledSole "// TODO a\n".toUTF8) = (.ok (), s₁) ∧
      HasNotes soleConfig store₁ s₁ ∧ store₁.get "\ufffd.c" 1 = .ok n ∧
      n.toDraft = .ofComment garbledComment ∧
      (scanFile soleConfig soleEngine ["TODO"] ⟨garbledSole⟩).run.run
        (soleLater garbledSole "// TODO a\n".toUTF8 s₁.tree) = (.ok (), s₂) ∧
      HasNotes soleConfig store₂ s₂ ∧ store₂.rowAt? "\ufffd.c" 1 = none := by
  have hshown : garbledSole.shown = "\ufffd.c" := by decide
  obtain ⟨store₁, ns₁, n, s₁, hrun, hwritten, hholds, hroom, hat, hdraft⟩ :=
    exists_run_first mem_soleNames_garbled _ commentsOf_garbledSole (by decide) (by decide)
  have htodos : soleEngine.todosOf (soleTree garbledSole "// TODO a\n".toUTF8) ["TODO"]
      (soleEngine.resolve ⟨garbledSole.shown⟩) = [] :=
    Engine.todosOf_of_no_text fun text htext => by
      obtain ⟨place, data, hstat, -⟩ := FileTree.exists_bytes_of_readText htext
      rw [hshown, stat_shown_garbledSole] at hstat
      cases hstat
  obtain ⟨s₂, d, ns₂, hrun₂, hnotes₂, hserves, -⟩ :=
    exists_run_again mem_soleNames_garbled _ hwritten hholds hroom fun line k hk => by
      rw [htodos] at hk
      cases hk
  rw [hshown] at hat
  refine ⟨s₁, s₂, store₁, d.store, n, hrun,
    hwritten.hasNotes (hasNotes_soleSession mem_soleNames_garbled _), ?_, hdraft, hrun₂, hnotes₂,
    ?_⟩
  · exact hholds.get_eq_ok_iff.2 ⟨hat, (hroom n (hholds.at?_eq_some_iff.1 hat).1).timesWithin⟩
  · rw [hserves.holds.rowAt?_eq, hserves.outcome.pruned ("\ufffd.c", 1) (by decide) ?_]
    · rfl
    · rw [htodos]
      rfl

/-- Two files that a full scan has listed, and what a scan of the file alone does to their
notes.  The note that is without a tag after the full scan is not removed but changed, to the
comment that stands behind the first one.  And the note with a tag of a file whose name is no
text is removed. -/
theorem scanFile_revises_note :
    (solePath "a.c" ∈ soleEngine.listed (soleTree "a.c" pairText.toUTF8) ∧
      ∃ s₁ s₂ store₁ store₂ n m,
        (scanAll soleConfig soleEngine ["TODO"] id).run.run (soleSession "a.c" pairText.toUTF8) =
          (.ok (), s₁) ∧
        HasNotes soleConfig store₁ s₁ ∧ store₁.get "a.c" 1 = .ok n ∧
        n.toDraft = .ofComment frontComment ∧
        (scanFile soleConfig soleEngine ["TODO"] ⟨"a.c"⟩).run.run
          (soleLater "a.c" pairText.toUTF8 s₁.tree) = (.ok (), s₂) ∧
        HasNotes soleConfig store₂ s₂ ∧ store₂.get "a.c" 1 = .ok m ∧
        m.toDraft = .ofComment backComment ∧ m.id = n.id) ∧
    (solePath garbledSole ∈ soleEngine.listed (soleTree garbledSole "// TODO a\n".toUTF8) ∧
      ∃ s₁ s₂ store₁ store₂ n,
        (scanAll soleConfig soleEngine ["TODO"] id).run.run
          (soleSession garbledSole "// TODO a\n".toUTF8) = (.ok (), s₁) ∧
        HasNotes soleConfig store₁ s₁ ∧ store₁.get "\ufffd.c" 1 = .ok n ∧
        n.toDraft = .ofComment garbledComment ∧
        (scanFile soleConfig soleEngine ["TODO"] ⟨garbledSole⟩).run.run
          (soleLater garbledSole "// TODO a\n".toUTF8 s₁.tree) = (.ok (), s₂) ∧
        HasNotes soleConfig store₂ s₂ ∧ store₂.rowAt? "\ufffd.c" 1 = none) :=
  ⟨⟨(mem_listed_sole mem_soleNames_plain _).2 rfl, exists_run_revised⟩,
    (mem_listed_sole mem_soleNames_garbled _).2 rfl, exists_run_mistaken⟩

end Run

end Marginalia
