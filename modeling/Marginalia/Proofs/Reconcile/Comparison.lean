import Marginalia.Proofs.Reconcile.Convergence

set_option autoImplicit false

/-!
# Passes compared

What a pass makes of the note at a place is told by that note and by the comment that
counts there, but for what it draws: the identifier and the times of a new note, and
the time of the last change of a note that it writes over.  So passes that find the same
notes and comments, in one run or in several, leave the same notes up to what they draw.
-/

namespace Marginalia.Reconcile

open Marginalia.Time (Instant)

/-! ## One place -/

/-- What a pass makes of the note at a place in its scope, by the comment that counts
there. -/
def Becomes (before after : Option Note) : Option Comment → Prop
  | none => after = none
  | some c =>
    match before with
    | none => ∃ w : Draw, after = some ((Draft.ofComment c).toNote w.id w.now).cutTimes
    | some n =>
      if agrees n c then after = some n else ∃ t, after = some (n.revise (.ofComment c) t)

theorem Outcome.becomes {discovered : List Comment} {scope : Option String} {ns ns' : List Note}
    (h : Outcome discovered scope ns ns') {p : Location} (hscope : p.isIn scope) :
    Becomes (Note.at? ns p) (Note.at? ns' p) (firstAt discovered p) := by
  cases hfirst : firstAt discovered p with
  | none => exact h.pruned p hscope hfirst
  | some c =>
    cases hat : Note.at? ns p with
    | none => exact h.created p c hscope hfirst hat
    | some n =>
      cases hagrees : agrees n c with
      | true =>
        simp only [Becomes, hagrees, if_true]
        exact h.kept p c n hscope hfirst hat hagrees
      | false =>
        simp only [Becomes, hagrees, Bool.false_eq_true, if_false]
        exact h.updated p c n hscope hfirst hat hagrees

/-- How two notes at a place compare that the same work made of the same note: they say
the same, what was there keeps who it is in both, and one of them is untouched if the
other one is. -/
structure AlikeAt (before one other : Option Note) : Prop where
  drafts : one.map Note.toDraft = other.map Note.toDraft
  keeps : ∀ n m m', before = some n → one = some m → other = some m' →
    (m.id = n.id ∧ m'.id = n.id) ∧ m.createdAt = n.createdAt ∧ m'.createdAt = n.createdAt
  untouched : ∀ n, before = some n → (one = some n ↔ other = some n)

theorem alikeAt_self (before : Option Note) : AlikeAt before before before := by
  refine ⟨rfl, ?_, fun _ _ => Iff.rfl⟩
  intro n m m' hn hm hm'
  rw [hn, Option.some.injEq] at hm hm'
  subst hm hm'
  exact ⟨⟨rfl, rfl⟩, rfl, rfl⟩

/-- A note that is written over is not the note that was there: it says something else. -/
theorem revise_ne {n : Note} {c : Comment} (hagrees : agrees n c = false) (t : Instant) :
    n.revise (.ofComment c) t ≠ n := by
  intro heq
  have htext : n.text = c.text := by rw [← heq]; rfl
  have hkind : n.kind = c.kind := by rw [← heq]; rfl
  rw [(agrees_iff n c).2 ⟨htext, hkind⟩] at hagrees
  cases hagrees

/-- Two passes that find the same note and the same comment leave the same note, up to
what they draw. -/
theorem Becomes.alikeAt {before one other : Option Note} {first : Option Comment}
    (hone : Becomes before one first) (hother : Becomes before other first) :
    AlikeAt before one other := by
  cases first with
  | none =>
    obtain rfl : one = none := hone
    obtain rfl : other = none := hother
    exact ⟨rfl, fun _ _ _ _ hm => (nomatch hm), fun _ _ => Iff.rfl⟩
  | some c =>
    cases before with
    | none =>
      obtain ⟨w, rfl⟩ := hone
      obtain ⟨w', rfl⟩ := hother
      exact ⟨rfl, fun _ _ _ hn => (nomatch hn), fun _ hn => (nomatch hn)⟩
    | some n =>
      cases hagrees : agrees n c with
      | true =>
        simp only [Becomes, hagrees, if_true] at hone hother
        subst hone hother
        exact alikeAt_self (some n)
      | false =>
        simp only [Becomes, hagrees, Bool.false_eq_true, if_false] at hone hother
        obtain ⟨t, rfl⟩ := hone
        obtain ⟨t', rfl⟩ := hother
        refine ⟨rfl, ?_, ?_⟩
        · intro n' m m' hn hm hm'
          cases hn
          cases hm
          cases hm'
          exact ⟨⟨rfl, rfl⟩, rfl, rfl⟩
        · intro n' hn
          cases hn
          have hne := fun t heq => revise_ne (t := t) hagrees (Option.some.inj heq)
          exact iff_of_false (hne t) (hne t')

/-- Passes that find the same notes and the same comments leave the same note at a place, up
to what they draw. -/
theorem Outcome.alikeAt {discovered : List Comment} {scope : Option String}
    {ns ns₁ ns₂ : List Note} (h : Outcome discovered scope ns ns₁)
    (h' : Outcome discovered scope ns ns₂) (p : Location) :
    AlikeAt (Note.at? ns p) (Note.at? ns₁ p) (Note.at? ns₂ p) := by
  cases hscope : p.isIn scope with
  | true => exact (h.becomes hscope).alikeAt (h'.becomes hscope)
  | false =>
    rw [h.outside p hscope, h'.outside p hscope]
    exact alikeAt_self _

/-! ## All notes -/

/-- How two lists of notes compare that the same work made of the same notes.  Only what
was drawn may differ: the identifiers and the times of new notes, and the times of the
last change of notes that were written over. -/
structure Alike (before one other : List Note) : Prop where
  /-- there are notes for the same places, of the same kinds, texts and authors -/
  drafts : (one.map Note.toDraft).Perm (other.map Note.toDraft)
  /-- a note that was there keeps its identifier and its time of creation in both -/
  keeps : ∀ n ∈ before, ∀ m ∈ one, ∀ m' ∈ other, m.place = n.place → m'.place = n.place →
    (m.id = n.id ∧ m'.id = n.id) ∧ m.createdAt = n.createdAt ∧ m'.createdAt = n.createdAt
  /-- a note that one leaves as it was the other one leaves as it was -/
  untouched : ∀ n ∈ before, n ∈ one ↔ n ∈ other

theorem nodup_drafts {s : Store} {ns : List Note} (h : s.Holds ns) :
    (ns.map Note.toDraft).Nodup := by
  refine List.Nodup.of_map Draft.place ?_
  rw [List.map_map]
  exact h.places

/-- What is written is told by the note at its place. -/
theorem mem_drafts_iff {s : Store} {ns : List Note} (h : s.Holds ns) {d : Draft} :
    d ∈ ns.map Note.toDraft ↔ (Note.at? ns d.place).map Note.toDraft = some d := by
  rw [List.mem_map, Option.map_eq_some_iff]
  constructor
  · rintro ⟨n, hn, rfl⟩
    exact ⟨n, h.at?_eq_some_iff.2 ⟨hn, rfl⟩, rfl⟩
  · rintro ⟨n, hat, rfl⟩
    exact ⟨n, (h.at?_eq_some_iff.1 hat).1, rfl⟩

/-- Notes that are alike at every place are alike. -/
theorem alike_of_at? {s t u : Store} {ns ns₁ ns₂ before one other : List Note}
    (hs : s.Holds ns) (ht : t.Holds ns₁) (hu : u.Holds ns₂) (hbefore : before.Perm ns)
    (hone : one.Perm ns₁) (hother : other.Perm ns₂)
    (h : ∀ p, AlikeAt (Note.at? ns p) (Note.at? ns₁ p) (Note.at? ns₂ p)) :
    Alike before one other := by
  refine ⟨?_, ?_, ?_⟩
  · have hsame : (ns₁.map Note.toDraft).Perm (ns₂.map Note.toDraft) := by
      refine (List.perm_ext_iff_of_nodup (nodup_drafts ht) (nodup_drafts hu)).2 ?_
      intro d
      rw [mem_drafts_iff ht, mem_drafts_iff hu, (h d.place).drafts]
    exact (hone.map _).trans (hsame.trans (hother.map _).symm)
  · intro n hn m hm m' hm' hplace hplace'
    exact (h n.place).keeps n m m' (hs.mem_iff_at?.1 (hbefore.mem_iff.1 hn))
      (ht.at?_eq_some_iff.2 ⟨hone.mem_iff.1 hm, hplace⟩)
      (hu.at?_eq_some_iff.2 ⟨hother.mem_iff.1 hm', hplace'⟩)
  · intro n hn
    have hat := hs.mem_iff_at?.1 (hbefore.mem_iff.1 hn)
    rw [hone.mem_iff, hother.mem_iff, ht.mem_iff_at?, hu.mem_iff_at?]
    exact (h n.place).untouched n hat

end Marginalia.Reconcile
