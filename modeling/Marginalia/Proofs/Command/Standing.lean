import Marginalia.Proofs.Command.FoundProject
import Marginalia.Proofs.Discovery.Observation
import Marginalia.Proofs.Files.Create

set_option autoImplicit false

/-!
# Where a command is run

Two sessions may see the same files from different directories.  A command looks at the
directory it is run in to find its project and to tell which file it is given; all else it
looks up by absolute paths.  So steps that are told the same go the same way in both
sessions and leave the same files, and nobody's directory moves.
-/

namespace Marginalia

open Marginalia.Discovery (Engine)

/-- Whether two sessions differ at most in the directories that they stand in. -/
structure Session.Alike (here here' : Place) (s s' : Session) : Prop where
  entries : s'.tree.entries = s.tree.entries
  input : s'.input = s.input
  draws : s'.draws = s.draws
  printed : s'.printed = s.printed
  stands : s.tree.stat s.directory = .ok (here, .directory)
  stands' : s'.tree.stat s'.directory = .ok (here', .directory)

namespace Session

variable {here here' : Place} {s s' : Session}

theorem place_of_stat (h : s.tree.stat s.directory = .ok (here, .directory)) :
    s.place = FileTree.pathOf here := by
  rw [place, FileTree.canonical, h]
  rfl

namespace Alike

variable (h : s.Alike here here' s')

include h

theorem say (text : String) : Alike here here' { s with printed := s.printed ++ text }
    { s' with printed := s'.printed ++ text } :=
  ⟨h.entries, h.input, h.draws, by simp only [h.printed], h.stands, h.stands'⟩

theorem setDraws (draws : Nat → Draw) :
    Alike here here' { s with draws := draws } { s' with draws := draws } :=
  ⟨h.entries, h.input, rfl, h.printed, h.stands, h.stands'⟩

end Alike

end Session

namespace Run

variable {α β : Type} {here here' : Place} {s s' : Session}

/-- Whether two steps from two sessions end in the same way and leave sessions that differ
at most in where they stand. -/
def Agree (here here' : Place) (s s' : Session) (x y : Run α) : Prop :=
  (x.run.run s).1 = (y.run.run s').1 ∧ (x.run.run s).2.Alike here here' (y.run.run s').2

theorem agree_bind {x y : Run α} {f g : α → Run β} (hx : Agree here here' s s' x y)
    (hf : ∀ a s₁ s₁', s₁.Alike here here' s₁' → Agree here here' s₁ s₁' (f a) (g a)) :
    Agree here here' s s' (x >>= f) (y >>= g) := by
  obtain ⟨hresult, halike⟩ := hx
  unfold Agree
  rw [run_bind, run_bind]
  rcases hxs : x.run.run s with ⟨result, s₁⟩
  rcases hys : y.run.run s' with ⟨result', s₁'⟩
  rw [hxs, hys] at hresult halike
  obtain rfl : result = result' := hresult
  cases result with
  | error e => exact ⟨rfl, halike⟩
  | ok a => exact hf a s₁ s₁' halike

section Steps

variable (h : s.Alike here here' s')

include h

theorem agree_pure (a : α) : Agree here here' s s' (pure a) (pure a) := ⟨rfl, h⟩

theorem agree_throw (f : Failure) : Agree here here' s s' (throw f : Run α) (throw f) := ⟨rfl, h⟩

theorem agree_orFail {ε : Type} (failure : ε → Failure) (x : Except ε α) :
    Agree here here' s s' (orFail failure x) (orFail failure x) := by
  cases x <;> exact ⟨rfl, h⟩

theorem agree_say (line : String) : Agree here here' s s' (say line) (say line) :=
  ⟨rfl, h.say _⟩

theorem agree_draw : Agree here here' s s' draw draw := by
  -- what is left to draw is told by the draws of the first session in both
  refine ⟨congrArg (fun draws : Nat → Draw => Except.ok (draws 0)) h.draws.symm, ?_⟩
  have halike := h.setDraws fun n => s.draws (n + 1)
  have hdraws : (draw.run.run s').2 = { s' with draws := fun n => s.draws (n + 1) } := by
    rw [← h.draws]
    rfl
  rw [hdraws]
  exact halike

end Steps

/-- Each session looks at its own tree. -/
theorem agree_tree_bind {k k' : FileTree → Run α}
    (hk : Agree here here' s s' (k s.tree) (k' s'.tree)) :
    Agree here here' s s' (tree >>= k) (tree >>= k') := by
  unfold Agree
  rw [run_bind_of_ok (run_tree s), run_bind_of_ok (run_tree s')]
  exact hk

theorem agree_forM {γ : Type} {f : γ → Run Unit}
    (hf : ∀ a s s', s.Alike here here' s' → Agree here here' s s' (f a) (f a)) (l : List γ)
    (h : s.Alike here here' s') : Agree here here' s s' (l.forM f) (l.forM f) := by
  induction l generalizing s s' with
  | nil => exact agree_pure h ()
  | cons a l ih => exact agree_bind (hf a s s' h) fun _ s₁ s₁' h₁ => ih h₁

/-! ## Steps on notes -/

section Notes

variable {c : Config} (h : s.Alike here here' s')

include h

/-- A file is written in both sessions or in neither. -/
theorem alike_write {p : Path} (hp : p.isAbsolute = true) (content : Content) :
    (∃ f, s.tree.write p content = .error f ∧ s'.tree.write p content = .error f) ∨
      ∃ t t', s.tree.write p content = .ok t ∧ s'.tree.write p content = .ok t' ∧
        Session.Alike here here' { s with tree := t } { s' with tree := t' } := by
  have hmap := FileTree.write_of_entries h.entries hp content
  rcases hwrite : s.tree.write p content with f | t <;>
    rcases hwrite' : s'.tree.write p content with f' | t' <;> rw [hwrite, hwrite'] at hmap
  · cases hmap
    exact .inl ⟨f, rfl, rfl⟩
  · cases hmap
  · cases hmap
  · exact .inr ⟨t, t', rfl, rfl, Except.ok.inj hmap, h.input, h.draws, h.printed,
      FileTree.stat_directory_of_write hwrite h.stands,
      FileTree.stat_directory_of_write hwrite' h.stands'⟩

/-- A store is opened in both sessions or in neither, and it is the same one. -/
theorem alike_openStore {p : Path} (hp : p.isAbsolute = true) :
    (openStore s.tree p = none ∧ openStore s'.tree p = none) ∨
      ∃ store t t', openStore s.tree p = some (store, t) ∧
        openStore s'.tree p = some (store, t') ∧
        Session.Alike here here' { s with tree := t } { s' with tree := t' } := by
  have hnew : ((s.tree.write p (.notes .empty)).toOption.map (Store.empty, ·) = none ∧
      (s'.tree.write p (.notes .empty)).toOption.map (Store.empty, ·) = none) ∨
      ∃ store t t',
        (s.tree.write p (.notes .empty)).toOption.map (Store.empty, ·) = some (store, t) ∧
        (s'.tree.write p (.notes .empty)).toOption.map (Store.empty, ·) = some (store, t') ∧
        Session.Alike here here' { s with tree := t } { s' with tree := t' } := by
    rcases alike_write h hp (.notes .empty) with ⟨f, hf, hf'⟩ | ⟨t, t', ht, ht', halike⟩
    · rw [hf, hf']
      exact .inl ⟨rfl, rfl⟩
    · rw [ht, ht']
      exact .inr ⟨_, t, t', rfl, rfl, halike⟩
  unfold openStore
  rw [FileTree.read_of_entries h.entries hp]
  split
  · exact .inr ⟨_, _, _, rfl, rfl, h⟩
  · split
    · exact hnew
    · exact .inl ⟨rfl, rfl⟩
  · exact hnew
  · exact .inl ⟨rfl, rfl⟩

theorem agree_notes (hp : c.notesPath.isAbsolute = true) :
    Agree here here' s s' (notes c) (notes c) := by
  refine agree_tree_bind ?_
  rcases alike_openStore h hp with ⟨hs, hs'⟩ | ⟨store, t, t', hs, hs', -⟩ <;> rw [hs, hs']
  · exact agree_pure h Store.empty
  · exact agree_pure h store

theorem agree_setNotes (hp : c.notesPath.isAbsolute = true) (store : Store) :
    Agree here here' s s' (setNotes c store) (setNotes c store) := by
  refine agree_tree_bind ?_
  rcases alike_write h hp (.notes store) with ⟨f, hf, hf'⟩ | ⟨t, t', ht, ht', halike⟩
  · rw [hf, hf']
    exact agree_throw h .below
  · rw [ht, ht']
    exact ⟨rfl, halike⟩

theorem agree_openNotes (hp : c.notesPath.isAbsolute = true) (reason : String) :
    Agree here here' s s' (openNotes c reason) (openNotes c reason) := by
  refine agree_tree_bind ?_
  rcases alike_openStore h hp with ⟨hs, hs'⟩ | ⟨store, t, t', hs, hs', halike⟩ <;> rw [hs, hs']
  · exact agree_throw h (.during reason)
  · exact ⟨rfl, halike⟩

/-- A client of the store does the same in both sessions. -/
theorem agree_attempt (hp : c.notesPath.isAbsolute = true) (script : Reconcile.Attempt α) :
    Agree here here' s s' (attempt c script) (attempt c script) := by
  unfold Agree attempt
  rw [run_bind_of_ok (run_get s), run_bind_of_ok (run_get s'), h.draws]
  refine agree_bind (agree_notes h hp) fun store s₁ s₁' h₁ => ?_
  refine agree_bind ⟨rfl, h₁.setDraws _⟩ fun _ s₂ s₂' h₂ => ?_
  exact agree_bind (agree_setNotes h₂ hp _) fun _ s₃ s₃' h₃ => agree_orFail h₃ .ofStore _

/-! ## Where the directory is looked at -/

/-- Whoever stands in directories of one project goes on with that project, its notes
open. -/
theorem agree_openProject_bind {f g : Config → Run α} (hp : c.notesPath.isAbsolute = true)
    (hc : Config.discover s.tree s.place = .ok c)
    (hc' : Config.discover s'.tree s'.place = .ok c)
    (hfg : ∀ s₁ s₁', s₁.Alike here here' s₁' → Agree here here' s₁ s₁' (f c) (g c)) :
    Agree here here' s s' (openProject >>= f) (openProject >>= g) := by
  have hopen := agree_openNotes h hp ("Failed to open notes database " ++ c.notesPath.quoted)
  have hboth : Agree here here' s s'
      (openNotes c ("Failed to open notes database " ++ c.notesPath.quoted) >>= fun _ => f c)
      (openNotes c ("Failed to open notes database " ++ c.notesPath.quoted) >>= fun _ => g c) :=
    agree_bind hopen fun _ s₁ s₁' h₁ => hfg s₁ s₁' h₁
  unfold Agree openProject
  rw [bind_assoc, bind_assoc, run_bind_of_ok (run_openConfig hc),
    run_bind_of_ok (run_openConfig hc')]
  simp only [bind_assoc, pure_bind]
  exact hboth

/-- The notes of two files are kept under the same text when they are in one place as seen
from where the sessions stand. -/
theorem agree_notePath {file file' : Path}
    (heq : c.sourceRoot.plainRelativeTo ((FileTree.pathOf here).join file) =
      c.sourceRoot.plainRelativeTo ((FileTree.pathOf here').join file')) :
    Agree here here' s s' (notePath c file) (notePath c file') := by
  unfold Agree
  rw [run_notePath, run_notePath, Session.place_of_stat h.stands, Session.place_of_stat h.stands',
    heq]
  exact ⟨rfl, h⟩

end Notes

end Run

end Marginalia
