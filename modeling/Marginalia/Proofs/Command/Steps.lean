import Marginalia.Proofs.Discovery.SingleFile
import Marginalia.Proofs.Files.Overwrite
import Marginalia.Proofs.Time.Room

set_option autoImplicit false

/-!
# Steps of a command

A command that ends well went through all its steps, each from where the one before it
left off.  A client of the store that is run on the notes of a project leaves them in
their file and touches no other.
-/

namespace Marginalia

/-- The session after a client of the store: the tree that the store was written to, and
the draws that are left. -/
def Session.afterClient (s : Session) (t : FileTree) (d : Desk) : Session :=
  { s with tree := t, draws := d.draws }

/-- Whether a session shows proper times in years that leave room for a year more. -/
def Session.KeepsTime (s : Session) : Prop :=
  ∀ n, (s.draws n).now.IsProper ∧ (s.draws n).now.YearWithin 0 9998

namespace Run

variable {α β : Type} {s s' s₁ : Session}

/-! ## One step after the other -/

theorem run_get (s : Session) : (get : Run Session).run.run s = (.ok s, s) := rfl

theorem run_tree (s : Session) : tree.run.run s = (.ok s.tree, s) := rfl

theorem run_modify (f : Session → Session) (s : Session) :
    (modify f : Run Unit).run.run s = (.ok (), f s) := rfl

/-- A step and then the rest, from where the step left off, unless it failed. -/
theorem run_bind (x : Run α) (f : α → Run β) (s : Session) :
    (x >>= f).run.run s =
      match x.run.run s with
      | (.ok a, s') => (f a).run.run s'
      | (.error e, s') => (.error e, s') := by
  rw [ExceptT.run_bind, StateT.run_bind]
  rcases x.run.run s with ⟨_ | _, _⟩ <;> rfl

theorem run_bind_of_ok {x : Run α} {a : α} (h : x.run.run s = (.ok a, s₁)) (f : α → Run β) :
    (x >>= f).run.run s = (f a).run.run s₁ := by
  rw [run_bind, h]

/-- What ends well went through its first step. -/
theorem exists_of_run_bind {x : Run α} {f : α → Run β} {b : β}
    (h : (x >>= f).run.run s = (.ok b, s')) :
    ∃ a s₁, x.run.run s = (.ok a, s₁) ∧ (f a).run.run s₁ = (.ok b, s') := by
  rw [run_bind] at h
  split at h
  · rename_i a s₁ hx
    exact ⟨a, s₁, hx, h⟩
  · cases h

theorem run_orFail {ε : Type} (failure : ε → Failure) (x : Except ε α) (s : Session) :
    (orFail failure x).run.run s =
      match x with
      | .ok a => (.ok a, s)
      | .error e => (.error (failure e), s) := by
  cases x <;> rfl

/-! ## Printing -/

/-- Whether part of a command always ends well and only prints. -/
def OnlyPrints (x : Run Unit) : Prop :=
  ∀ s, ∃ printed, x.run.run s = (.ok (), { s with printed := printed })

theorem onlyPrints_put (text : String) : OnlyPrints (put text) := fun _ => ⟨_, rfl⟩

theorem onlyPrints_say (line : String) : OnlyPrints (say line) := onlyPrints_put _

theorem OnlyPrints.andThen {x y : Run Unit} (hx : OnlyPrints x) (hy : OnlyPrints y) :
    OnlyPrints (x >>= fun _ => y) := by
  intro s
  obtain ⟨first, hfirst⟩ := hx s
  obtain ⟨second, hsecond⟩ := hy { s with printed := first }
  exact ⟨second, by rw [run_bind, hfirst]; exact hsecond⟩

theorem onlyPrints_forM {γ : Type} {f : γ → Run Unit} (hf : ∀ a, OnlyPrints (f a)) (l : List γ) :
    OnlyPrints (l.forM f) := by
  induction l with
  | nil => exact fun s => ⟨s.printed, rfl⟩
  | cons a l ih => exact (hf a).andThen ih

theorem onlyPrints_sayReport (r : Report) : OnlyPrints (sayReport r) := by
  unfold sayReport
  split
  · exact (onlyPrints_say _).andThen (onlyPrints_say _)
  · exact (onlyPrints_say _).andThen <| (onlyPrints_say _).andThen <|
      (onlyPrints_say _).andThen <| (onlyPrints_say _).andThen <|
      (onlyPrints_say _).andThen (onlyPrints_forM (fun _ => onlyPrints_say _) _)

/-! ## Clients of the store -/

/-- Whether the file of notes of a project holds a store. -/
def HasNotes (c : Config) (store : Store) (s : Session) : Prop :=
  s.tree.read c.notesPath = .ok (.notes store)

/-- Whether a session is left with the tree as it was but for a store that is written to
the file of notes. -/
def WritesNotes (c : Config) (store : Store) (s s' : Session) : Prop :=
  s.tree.write c.notesPath (.notes store) = .ok s'.tree

variable {c : Config} {store : Store}

theorem WritesNotes.hasNotes {old : Store} (h : WritesNotes c store s s')
    (hold : HasNotes c old s) : HasNotes c store s' :=
  FileTree.read_of_write hold h

theorem run_notes (h : HasNotes c store s) : (notes c).run.run s = (.ok store, s) := by
  have hopen : openStore s.tree c.notesPath = some (store, s.tree) := by
    rw [openStore, h]
  unfold notes
  rw [run_bind_of_ok (run_tree s), hopen]
  rfl

theorem run_setNotes {t : FileTree} (h : s.tree.write c.notesPath (.notes store) = .ok t) :
    (setNotes c store).run.run s = (.ok (), { s with tree := t }) := by
  unfold setNotes
  rw [run_bind_of_ok (run_tree s), h]
  rfl

/-- A client that is run on the notes of a project leaves its store in their file. -/
theorem run_attempt (h : HasNotes c store s) {script : Reconcile.Attempt α}
    {result : Except StoreError α} {d : Desk}
    (hscript : script.run Desk.answer ⟨store, s.draws⟩ = (result, d)) :
    ∃ t, s.tree.write c.notesPath (.notes d.store) = .ok t ∧
      (attempt c script).run.run s = (result.mapError .ofStore, s.afterClient t d) := by
  obtain ⟨place, -, -, hput⟩ := FileTree.exists_place_of_read h
  refine ⟨_, hput _, ?_⟩
  have hset := run_setNotes (s := { s with draws := d.draws }) (hput (.notes d.store))
  unfold attempt
  rw [run_bind_of_ok (run_get s), run_bind_of_ok (run_notes h)]
  simp only [hscript]
  rw [run_bind_of_ok (run_modify _ s), run_bind_of_ok hset, run_orFail]
  cases result <;> rfl

/-- A client of a project whose result is only printed ends well when the client does. -/
theorem exists_run_attempt (h : HasNotes c store s) {script : Reconcile.Attempt α} {a : α}
    {d : Desk} (hscript : script.run Desk.answer ⟨store, s.draws⟩ = (.ok a, d))
    {tell : α → Run Unit} (htell : OnlyPrints (tell a)) :
    ∃ s', (attempt c script >>= tell).run.run s = (.ok (), s') ∧ WritesNotes c d.store s s' := by
  obtain ⟨t, hwrite, hattempt⟩ := run_attempt h hscript
  obtain ⟨printed, hsay⟩ := htell (s.afterClient t d)
  refine ⟨{ s.afterClient t d with printed := printed }, ?_, hwrite⟩
  rw [run_bind_of_ok hattempt]
  exact hsay

/-! ## Full scans -/

section Scans

open Reconcile (pass)

variable {e : Discovery.Engine} {tags : List String}
  {finish : List Discovery.Job → List Discovery.Job} {found : List Comment}

/-- A full scan is a pass over what is discovered, run on the notes of the project. -/
theorem run_scanAll (h : HasNotes c store s) (hfound : e.discover s.tree tags finish = .ok found)
    {result : Except StoreError Report} {d : Desk}
    (hpass : (pass found none).run Desk.answer ⟨store, s.draws⟩ = (result, d)) :
    ∃ t, s.tree.write c.notesPath (.notes d.store) = .ok t ∧
      (scanAll c e tags finish).run.run s =
        match result with
        | .ok report => (sayReport report).run.run (s.afterClient t d)
        | .error f => (.error (.ofStore f), s.afterClient t d) := by
  obtain ⟨t, hwrite, hattempt⟩ := run_attempt h hpass
  refine ⟨t, hwrite, ?_⟩
  have hscan : (orFail .ofScan (e.discover s.tree tags finish) : Run _).run.run s =
      (.ok found, s) := by
    rw [hfound]
    rfl
  unfold scanAll
  rw [run_bind_of_ok (run_tree s), run_bind_of_ok hscan, run_bind, hattempt]
  cases result <;> rfl

/-- A full scan ends well when its pass does. -/
theorem exists_run_scanAll (h : HasNotes c store s)
    (hfound : e.discover s.tree tags finish = .ok found) {report : Report} {d : Desk}
    (hpass : (pass found none).run Desk.answer ⟨store, s.draws⟩ = (.ok report, d)) :
    ∃ s', (scanAll c e tags finish).run.run s = (.ok (), s') ∧ WritesNotes c d.store s s' := by
  unfold scanAll
  rw [run_bind_of_ok (run_tree s), hfound, run_bind_of_ok (run_orFail .ofScan (.ok found) s)]
  exact exists_run_attempt h hpass (onlyPrints_sayReport report)

/-- What a full scan that ends well has done: it has discovered comments, and its pass
over them has left a store in the file of notes. -/
structure Scanned (c : Config) (e : Discovery.Engine) (tags : List String)
    (finish : List Discovery.Job → List Discovery.Job) (store : Store) (s : Session)
    (found : List Comment) (report : Report) (d : Desk) (s' : Session) : Prop where
  discovered : e.discover s.tree tags finish = .ok found
  passed : (pass found none).run Desk.answer ⟨store, s.draws⟩ = (.ok report, d)
  written : WritesNotes c d.store s s'

theorem exists_scanned (h : HasNotes c store s)
    (hrun : (scanAll c e tags finish).run.run s = (.ok (), s')) :
    ∃ found report d, Scanned c e tags finish store s found report d s' := by
  have hfound : ∃ found, e.discover s.tree tags finish = .ok found := by
    obtain ⟨t, s₁, htree, hrest⟩ := exists_of_run_bind hrun
    cases htree
    obtain ⟨found, s₂, hfound, -⟩ := exists_of_run_bind hrest
    rw [run_orFail] at hfound
    split at hfound
    · rename_i heq
      exact ⟨_, heq⟩
    · cases hfound
  obtain ⟨found, hfound⟩ := hfound
  rcases hpass : (pass found none).run Desk.answer ⟨store, s.draws⟩ with ⟨result, d⟩
  obtain ⟨t, hwrite, hscan⟩ := run_scanAll h hfound hpass
  rw [hrun] at hscan
  cases result with
  | error f => cases hscan
  | ok report =>
    obtain ⟨printed, hsay⟩ := onlyPrints_sayReport report (s.afterClient t d)
    cases hscan.trans hsay
    exact ⟨found, report, d, hfound, hpass, hwrite⟩

/-! ## Scans of one file -/

/-- The path under which the notes of a file are kept. -/
abbrev noteName (c : Config) (s : Session) (file : Path) : String :=
  c.sourceRoot.plainRelativeTo (s.place.join file)

variable {file : Path} {report : Report} {d : Desk}

/-- A scan of one file ends well when the pass over its comments does. -/
theorem exists_run_scanFile (h : HasNotes c store s)
    (hfound : e.discoverFile s.tree tags ⟨noteName c s file⟩ = .ok found)
    (hpass : (pass found (some (noteName c s file))).run Desk.answer ⟨store, s.draws⟩ =
      (.ok report, d)) :
    ∃ s', (scanFile c e tags file).run.run s = (.ok (), s') ∧ WritesNotes c d.store s s' := by
  unfold scanFile
  rw [run_bind_of_ok (run_notePath c file s), run_bind_of_ok (run_tree s), hfound]
  exact exists_run_attempt h hpass (onlyPrints_sayReport report)

/-- A scan of one file that is gone ends well when its notes can be removed. -/
theorem exists_run_scanFile_of_missing (h : HasNotes c store s) {missing : String}
    (hfound : e.discoverFile s.tree tags ⟨noteName c s file⟩ = .error (.sourceMissing missing))
    {keys : List String}
    (hpurge : (Reconcile.purge (noteName c s file)).run Desk.answer ⟨store, s.draws⟩ =
      (.ok keys, d)) :
    ∃ s', (scanFile c e tags file).run.run s = (.ok (), s') ∧ WritesNotes c d.store s s' := by
  unfold scanFile
  rw [run_bind_of_ok (run_notePath c file s), run_bind_of_ok (run_tree s), hfound]
  exact exists_run_attempt h hpurge (onlyPrints_say _)

end Scans

end Run

end Marginalia
