import Marginalia.Discovery.Reading
import Mathlib.Data.List.SplitBy

set_option autoImplicit false

/-!
# What reading yields

Whatever the number of files read at a time, each path comes back with the result of
reading it, once, and only the order changes.
-/

namespace Marginalia

/-! ## Paths that are told apart -/

namespace Path

theorem same_comm (a b : Path) : a.same b = b.same a := Bool.beq_comm

/-- Whether no two paths of a list have the same parts. -/
def Apart (paths : List Path) : Prop := paths.Pairwise fun a b => a.same b = false

theorem Apart.perm {l l' : List Path} (h : Apart l) (hperm : l.Perm l') : Apart l' :=
  (hperm.pairwise_iff fun {a b} hab => (same_comm b a).trans hab).1 h

end Path

namespace Discovery

/-! ## Chunks -/

theorem flatten_chunks {α : Type} (size : Nat) (l : List α) : (chunks size l).flatten = l := by
  induction l using chunks.induct size with
  | case1 => rw [chunks]; rfl
  | case2 a rest ih => rw [chunks, List.flatten_cons, ih, List.cons_append, List.take_append_drop]

theorem zip_map_self {α β : Type} (f : α → β) (l : List α) :
    l.zip (l.map f) = l.map fun a => (a, f a) := by
  have hzip : (l.map id).zip (l.map f) = l.map fun a => (id a, f a) := List.zip_map'
  rwa [List.map_id] at hzip

/-- Cutting a list into chunks and putting them back together pairs each member with its
own result, whatever the size of the chunks. -/
theorem zip_chunks {α β : Type} (size : Nat) (f : α → β) (l : List α) :
    ((chunks size l).flatMap fun chunk => chunk.zip (chunk.map f)) = l.map fun a => (a, f a) := by
  simp only [zip_map_self]
  rw [List.flatMap_def, ← List.map_flatten, flatten_chunks]

/-! ## Results -/

/-- A list in which no member goes with a later one is cut into single members. -/
theorem splitBy_of_pairwise {α : Type} {r : α → α → Bool} {l : List α}
    (h : l.Pairwise fun a b => r a b = false) : l.splitBy r = l.map fun a => [a] := by
  refine List.splitBy_eq_iff.2 ⟨?_, ?_, ?_, ?_⟩
  · rw [← List.flatMap_def, List.flatMap_singleton']
  · simp
  · intro m hm
    obtain ⟨a, -, rfl⟩ := List.mem_map.1 hm
    exact List.isChain_singleton a
  · refine (List.pairwise_map.2 (h.imp fun {a b} hab => ?_)).isChain
    exact ⟨List.cons_ne_nil _ _, List.cons_ne_nil _ _, hab⟩

/-- If no two paths are the same, each keeps its result. -/
theorem oneEach_perm {results : List (Path × ReadResult)}
    (h : Path.Apart (results.map (·.1))) : (oneEach results).Perm results := by
  have hsorted : (results.mergeSort fun a b => a.1.notAfter b.1).Pairwise
      fun a b => a.1.same b.1 = false :=
    List.pairwise_map.1 (h.perm ((List.mergeSort_perm _ _).symm.map _))
  have hone : oneEach results = results.mergeSort fun a b => a.1.notAfter b.1 := by
    rw [oneEach, splitBy_of_pairwise hsorted, List.filterMap_map]
    exact List.filterMap_some
  rw [hone]
  exact List.mergeSort_perm _ _

/-- Reading yields the result of each path once, at whatever pace. -/
theorem readAll_perm (t : FileTree) (size : Nat) {paths : List Path} (h : Path.Apart paths) :
    (readAll t size paths).Perm (paths.map fun p => (p, readText t p)) := by
  rw [readAll, zip_chunks]
  refine oneEach_perm ?_
  rw [List.map_map]
  exact (List.map_id paths).symm ▸ h

/-- The path of a file with its text, if it has one. -/
def textFor? (t : FileTree) (p : Path) : Option (Path × String) :=
  match readText t p with
  | .ok text => some (p, text)
  | .error _ => none

theorem textFor?_eq_some_iff {t : FileTree} {p : Path} {e : Path × String} :
    textFor? t p = some e ↔ e.1 = p ∧ readText t p = .ok e.2 := by
  obtain ⟨q, text⟩ := e
  unfold textFor?
  split
  · rename_i found hfound
    simp only [hfound, Option.some.injEq, Prod.mk.injEq, Except.ok.injEq]
    exact and_congr_left' eq_comm
  · rename_i f hfault
    simp [hfault]

/-- The files that have a text come with their own texts, each once. -/
theorem readable_perm (t : FileTree) (size : Nat) {paths : List Path} (h : Path.Apart paths) :
    (readable (readAll t size paths)).Perm (paths.filterMap (textFor? t)) := by
  refine (List.mergeSort_perm _ _).trans (((readAll_perm t size h).filterMap _).trans ?_)
  rw [List.filterMap_map]
  exact List.Perm.refl _

end Discovery

end Marginalia
