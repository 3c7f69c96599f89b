import Marginalia.Proofs.Reconcile.Outcome

set_option autoImplicit false

/-!
# A pass converges

Whatever the store held before and whatever was discovered, after a pass the
notes in scope are the discovered comments, each with the text and kind of the
first comment at its place; notes keep who they are, and those that said the
right thing already keep everything.  Nothing happens out of scope.
-/

namespace Marginalia.Reconcile

/-! ## Before and after -/

/-- How the notes after a pass relate to the comments and to the notes before. -/
structure Converges (discovered : List Comment) (scope : Option String)
    (before after : List Note) : Prop where
  /-- there is one note at a place at most -/
  apart : (after.map Note.place).Nodup
  /-- in scope there is a note where, and only where, there is a comment -/
  places : ∀ p : Location, p.isIn scope →
    ((∃ n ∈ after, n.place = p) ↔ ∃ c ∈ discovered, c.place = p)
  /-- a note in scope says what the first comment at its place says -/
  reads : ∀ n ∈ after, n.place.isIn scope →
    ∃ c, firstAt discovered n.place = some c ∧ n.text = c.text ∧ n.kind = c.kind
  /-- a note that was there keeps its identifier and its time of creation -/
  keeps : ∀ n ∈ before, ∀ m ∈ after, n.place.isIn scope → m.place = n.place →
    m.id = n.id ∧ m.createdAt = n.createdAt
  /-- a note that said the right thing keeps everything -/
  untouched : ∀ n ∈ before, ∀ c, n.place.isIn scope → firstAt discovered n.place = some c →
    n.text = c.text → n.kind = c.kind → n ∈ after
  /-- a note out of scope stays, and none is added there -/
  outside : ∀ n : Note, n.place.isIn scope = false → (n ∈ after ↔ n ∈ before)

theorem agrees_iff (n : Note) (c : Comment) :
    agrees n c = true ↔ n.text = c.text ∧ n.kind = c.kind := by
  simp only [agrees, Bool.and_eq_true, beq_iff_eq]

theorem exists_firstAt_iff {discovered : List Comment} {p : Location} :
    (∃ c, firstAt discovered p = some c) ↔ ∃ c ∈ discovered, c.place = p := by
  rw [← Option.isSome_iff_exists, firstAt, List.find?_isSome]
  simp only [beq_iff_eq]

/-- What is in the scope of a pass after it has the comment's text and kind. -/
theorem Outcome.exists_agrees {discovered : List Comment} {scope : Option String}
    {ns ns' : List Note} (h : Outcome discovered scope ns ns') {p : Location} {c : Comment}
    (hscope : p.isIn scope)
    (hfirst : firstAt discovered p = some c) :
    ∃ m, Note.at? ns' p = some m ∧ agrees m c = true := by
  cases hat : Note.at? ns p with
  | none =>
    obtain ⟨w, hw⟩ := h.created p c hscope hfirst hat
    exact ⟨_, hw, (agrees_iff _ c).2 ⟨rfl, rfl⟩⟩
  | some n =>
    by_cases hagrees : agrees n c = true
    · exact ⟨n, h.kept p c n hscope hfirst hat hagrees, hagrees⟩
    · obtain ⟨t, ht⟩ := h.updated p c n hscope hfirst hat (Bool.eq_false_iff.2 hagrees)
      exact ⟨_, ht, (agrees_iff _ c).2 ⟨rfl, rfl⟩⟩

/-- A note that survives a pass keeps its identifier and its time of creation. -/
theorem Outcome.keeps {discovered : List Comment} {scope : Option String} {ns ns' : List Note}
    (h : Outcome discovered scope ns ns') {p : Location} {n m : Note}
    (hat : Note.at? ns p = some n) (hat' : Note.at? ns' p = some m) :
    m.id = n.id ∧ m.createdAt = n.createdAt := by
  cases hscope : p.isIn scope with
  | false =>
    rw [h.outside p hscope, hat, Option.some.injEq] at hat'
    rw [hat']
    exact ⟨rfl, rfl⟩
  | true =>
    cases hfirst : firstAt discovered p with
    | none =>
      rw [h.pruned p hscope hfirst] at hat'
      cases hat'
    | some c =>
      cases hagrees : agrees n c with
      | true =>
        rw [h.kept p c n hscope hfirst hat hagrees, Option.some.injEq] at hat'
        rw [hat']
        exact ⟨rfl, rfl⟩
      | false =>
        obtain ⟨t, ht⟩ := h.updated p c n hscope hfirst hat hagrees
        rw [ht, Option.some.injEq] at hat'
        rw [← hat']
        exact ⟨rfl, rfl⟩

/-- The outcome of a pass on held notes, told of the lists that show them. -/
theorem Outcome.converges {discovered : List Comment} {scope : Option String}
    {s s' : Store} {ns ns' before after : List Note} (h : Outcome discovered scope ns ns')
    (hs : s.Holds ns) (hs' : s'.Holds ns') (hbefore : before.Perm ns) (hafter : after.Perm ns') :
    Converges discovered scope before after := by
  have hold : ∀ n, n ∈ before ↔ Note.at? ns n.place = some n := by
    intro n
    rw [hbefore.mem_iff, hs.mem_iff_at?]
  have hnew : ∀ n, n ∈ after ↔ Note.at? ns' n.place = some n := by
    intro n
    rw [hafter.mem_iff, hs'.mem_iff_at?]
  have hcounts : ∀ p : Location, p.isIn scope → ∀ m, Note.at? ns' p = some m →
      ∃ c, firstAt discovered p = some c := by
    intro p hscope m hm
    cases hfirst : firstAt discovered p with
    | some c => exact ⟨c, rfl⟩
    | none =>
      rw [h.pruned p hscope hfirst] at hm
      cases hm
  refine ⟨?_, ?_, ?_, ?_, ?_, ?_⟩
  · exact (hafter.map Note.place).nodup_iff.2 hs'.places
  · intro p hscope
    rw [← exists_firstAt_iff]
    constructor
    · rintro ⟨n, hn, rfl⟩
      exact hcounts _ hscope n ((hnew n).1 hn)
    · rintro ⟨c, hfirst⟩
      obtain ⟨m, hm, -⟩ := h.exists_agrees hscope hfirst
      obtain ⟨hmem, hplace⟩ := hs'.at?_eq_some_iff.1 hm
      exact ⟨m, hafter.mem_iff.2 hmem, hplace⟩
  · intro n hn hscope
    have hat := (hnew n).1 hn
    obtain ⟨c, hfirst⟩ := hcounts _ hscope n hat
    obtain ⟨m, hm, hagrees⟩ := h.exists_agrees hscope hfirst
    rw [hat, Option.some.injEq] at hm
    subst hm
    exact ⟨c, hfirst, (agrees_iff n c).1 hagrees⟩
  · intro n hn m hm _ hplace
    have hat' := (hnew m).1 hm
    rw [hplace] at hat'
    exact h.keeps ((hold n).1 hn) hat'
  · intro n hn c hscope hfirst htext hkind
    have hagrees := (agrees_iff n c).2 ⟨htext, hkind⟩
    exact (hnew n).2 (h.kept _ c n hscope hfirst ((hold n).1 hn) hagrees)
  · intro n hscope
    rw [hold, hnew, h.outside _ hscope]

/-! ## The pass -/

/-- When every note can be read, the listing of all notes shows each once. -/
theorem exists_all {s : Store} {ns : List Note} (h : s.Shows ns) :
    ∃ notes, s.all = .ok notes ∧ notes.Perm ns := by
  refine ⟨_, h.select_eq h.readable _, ?_⟩
  rw [List.filter_true]
  exact List.mergeSort_perm _ _

/-- Comments that are not in scope do not matter to a pass. -/
theorem pass_filter_inScope (discovered : List Comment) (scope : Option String) :
    pass (discovered.filter (inScope scope)) scope = pass discovered scope := by
  simp only [pass, wanted, List.filter_filter, Bool.and_self]

/-- A pass over a reachable store succeeds, and the stored notes converge to the
discovered comments.  The stored times and the clock must leave room in the years
of four digits, and a new identifier must be nobody's. -/
theorem pass_converges {d : Desk} {discovered : List Comment} {scope : Option String}
    (hreach : d.store.Reachable) (htimes : d.store.TimesWithin 0 9998)
    (hfair : (pass discovered scope).Always Desk.answer Desk.IsFair d) :
    ∃ report d' before after,
      (pass discovered scope).run Desk.answer d = (.ok report, d') ∧
      d.store.all = .ok before ∧ d'.store.all = .ok after ∧
      Converges discovered scope before after ∧
      (pass (discovered.filter (inScope scope)) scope).run Desk.answer d =
        (pass discovered scope).run Desk.answer d := by
  obtain ⟨ns, hshows, hchange⟩ := shows_of_reachable hreach htimes
  obtain ⟨report, d', ns', hrun, hshows', houtcome⟩ :=
    exists_outcome hshows (hchange discovered scope) hfair
  obtain ⟨before, hbefore, hperm⟩ := exists_all hshows
  obtain ⟨after, hafter, hperm'⟩ := exists_all hshows'
  refine ⟨report, d', before, after, hrun, hbefore, hafter, ?_, ?_⟩
  · exact houtcome.converges hshows.toHolds hshows'.toHolds hperm hperm'
  · rw [pass_filter_inScope]

/-- The small pass converges to its one comment. -/
theorem pass_converges_smallDesk :
    ∃ report d' before after,
      (pass [newComment] none).run Desk.answer smallDesk = (.ok report, d') ∧
      smallDesk.store.all = .ok before ∧ d'.store.all = .ok after ∧
      Converges [newComment] none before after ∧
      (pass ([newComment].filter (inScope none)) none).run Desk.answer smallDesk =
        (pass [newComment] none).run Desk.answer smallDesk :=
  pass_converges smallDesk_reachable smallDesk_timesWithin smallDesk_fair

end Marginalia.Reconcile
