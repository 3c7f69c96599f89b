import Marginalia.Proofs.Reconcile.Convergence

set_option autoImplicit false

/-!
# The notes of one file

A scan of one file alone knows the comments with a tag only.  The pass over them, made
on notes that tell of all comments, leaves the notes with a tag and takes the others out,
unless a comment with a tag stands behind another on the line of the note.
-/

namespace Marginalia.Reconcile

variable {todos : List Comment} {filepath : String} {ns ns' before after : List Note}
  {store store' : Store}

/-- What a scan of one file makes of the notes of all files, by the comment with a tag
that counts on each line. -/
structure Refreshes (filepath : String) (todoOn : UInt32 → Option Comment)
    (before after : List Note) : Prop where
  /-- there is one note at a place at most -/
  apart : (after.map Note.place).Nodup
  /-- no note is added, and each keeps its identifier and its time of creation -/
  known : ∀ m ∈ after, ∃ n ∈ before,
    n.place = m.place ∧ n.id = m.id ∧ n.createdAt = m.createdAt
  /-- the notes of other files stay -/
  elsewhere : ∀ n ∈ before, n.filepath ≠ filepath → n ∈ after
  /-- notes with a tag stay -/
  todos : ∀ n ∈ before, n.kind = .todo → n ∈ after
  /-- other notes of the file go where no comment on their line carries a tag -/
  pruned : ∀ n ∈ before, n.filepath = filepath → n.kind = .note → todoOn n.line = none →
    n.place ∉ after.map Note.place
  /-- and become the first that does where there is one -/
  revised : ∀ n ∈ before, n.filepath = filepath → n.kind = .note →
    ∀ k, todoOn n.line = some k → ∃ t, n.revise (.ofComment k) t ∈ after

/-- A pass over the comments with a tag of one file refreshes the notes, if a note is
where such a comment is and the notes of the file with a tag agree with them. -/
theorem Outcome.refreshes (h : Outcome todos (some filepath) ns ns') (hs : store.Holds ns)
    (hs' : store'.Holds ns') (hbefore : before.Perm ns) (hafter : after.Perm ns')
    (htodos : ∀ k ∈ todos, k.kind = .todo)
    (hnotes : ∀ line k, firstAt todos (filepath, line) = some k →
      ∃ n, Note.at? ns (filepath, line) = some n)
    (hkept : ∀ n ∈ ns, n.filepath = filepath → n.kind = .todo →
      ∃ k, firstAt todos n.place = some k ∧ agrees n k = true) :
    Refreshes filepath (fun line => firstAt todos (filepath, line)) before after := by
  have hold : ∀ n ∈ before, Note.at? ns n.place = some n := fun n hn =>
    hs.at?_eq_some_iff.2 ⟨hbefore.mem_iff.1 hn, rfl⟩
  have hnew : ∀ {p m}, Note.at? ns' p = some m → m ∈ after := fun hm =>
    hafter.mem_iff.2 (hs'.at?_eq_some_iff.1 hm).1
  have helsewhere : ∀ n ∈ before, n.filepath ≠ filepath → n ∈ after := by
    intro n hn hfile
    have hout : n.place.isIn (some filepath) = false :=
      Bool.eq_false_iff.2 fun hin => hfile (isIn_some_iff.1 hin)
    exact hnew ((h.outside _ hout).trans (hold n hn))
  refine ⟨?_, fun m hm => ?_, helsewhere, fun n hn hkind => ?_, fun n hn hfile _ hnone => ?_,
    fun n hn hfile hkind k hk => ?_⟩
  · exact (hafter.map Note.place).nodup_iff.2 hs'.places
  · have hat' : Note.at? ns' m.place = some m :=
      hs'.at?_eq_some_iff.2 ⟨hafter.mem_iff.1 hm, rfl⟩
    obtain ⟨n, hat⟩ : ∃ n, Note.at? ns m.place = some n := by
      cases hin : m.place.isIn (some filepath) with
      | false => exact ⟨m, (h.outside _ hin).symm.trans hat'⟩
      | true =>
        cases hfirst : firstAt todos m.place with
        | none =>
          rw [h.pruned _ hin hfirst] at hat'
          cases hat'
        | some k =>
          obtain rfl : m.place.1 = filepath := isIn_some_iff.1 hin
          exact hnotes m.place.2 k hfirst
    obtain ⟨hid, hcreated⟩ := h.keeps hat hat'
    obtain ⟨hn, hplace⟩ := hs.at?_eq_some_iff.1 hat
    exact ⟨n, hbefore.mem_iff.2 hn, hplace, hid.symm, hcreated.symm⟩
  · by_cases hfile : n.filepath = filepath
    · obtain ⟨k, hfirst, hagrees⟩ := hkept n (hbefore.mem_iff.1 hn) hfile hkind
      exact hnew (h.kept _ k n (isIn_some_iff.2 hfile) hfirst (hold n hn) hagrees)
    · exact helsewhere n hn hfile
  · subst hfile
    intro hmem
    obtain ⟨m, hm, hplace⟩ := List.mem_map.1 hmem
    have hat' := hs'.at?_eq_some_iff.2 ⟨hafter.mem_iff.1 hm, hplace⟩
    rw [h.pruned n.place (isIn_some_iff.2 rfl) hnone] at hat'
    cases hat'
  · subst hfile
    have htodo := htodos k (List.mem_of_find?_eq_some hk)
    have hdiffers : agrees n k = false := by simp [agrees, hkind, htodo]
    obtain ⟨t, ht⟩ := h.updated n.place k n (isIn_some_iff.2 rfl) hk (hold n hn) hdiffers
    exact ⟨t, hnew ht⟩

/-- A pass over a file that has neither comments nor notes leaves all notes. -/
theorem Outcome.perm_of_bare (h : Outcome todos (some filepath) ns ns') (hs : store.Holds ns)
    (hs' : store'.Holds ns') (hnone : ∀ line, firstAt todos (filepath, line) = none)
    (hbare : ∀ line, Note.at? ns (filepath, line) = none) : ns'.Perm ns := by
  have hat : ∀ p, Note.at? ns' p = Note.at? ns p := by
    intro p
    cases hin : p.isIn (some filepath) with
    | false => exact h.outside p hin
    | true =>
      obtain rfl : p.1 = filepath := isIn_some_iff.1 hin
      exact (h.pruned p hin (hnone p.2)).trans (hbare p.2).symm
  refine (List.perm_ext_iff_of_nodup hs'.places.of_map hs.places.of_map).2 fun n => ?_
  rw [hs'.mem_iff_at?, hs.mem_iff_at?, hat]

end Marginalia.Reconcile
