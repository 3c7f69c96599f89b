import Marginalia.Proofs.Store.Serve

set_option autoImplicit false

/-!
# Collisions

A client that has not been shown a note may ask for one to be created in its place.  The
call is refused and changes nothing, so a script that goes on all the same does what it
would do if it had not asked.
-/

namespace Marginalia

/-- There is something to answer to every call. -/
theorem Call.nonempty_answer (c : Call) : Nonempty c.Answer := by
  cases c with
  | list scope => exact ⟨([] : List Note)⟩
  | create draft => exact ⟨()⟩
  | update filepath line draft => exact ⟨()⟩
  | delete filepath line => exact ⟨()⟩
  | deleteFile filepath => exact ⟨()⟩

/-- Calls about one place are answered as they are without concealment. -/
theorem Clerk.concealing_eq {σ : Type} (hidden : Note → Bool) (clerk : Clerk σ) {c : Call}
    {p : Location} (hp : c.place? = some p) (state : σ) :
    clerk.concealing hidden c state = clerk c state := by
  cases c with
  | list scope => cases hp
  | create draft => rfl
  | update filepath line draft => rfl
  | delete filepath line => rfl
  | deleteFile filepath => rfl

/-- Concealment does nothing to the state. -/
theorem Clerk.concealing_snd {σ : Type} (hidden : Note → Bool) (clerk : Clerk σ) (c : Call)
    (state : σ) : (clerk.concealing hidden c state).2 = (clerk c state).2 := by
  cases c <;> rfl

/-! ## Scripts that go on -/

/-- A script that follows a list of calls about places that are not taken, asks besides for
notes where places are taken, and goes on when it is refused them. -/
inductive Script.FollowsPast {α : Type} (taken : Location → Bool) :
    Script (Except StoreError α) → List Call → α → Prop
  | done (result : α) : FollowsPast taken (.done (.ok result)) [] result
  | call {c : Call} {next : c.Reply → Script (Except StoreError α)} {calls : List Call}
      {result : α} (free : ∀ p, c.place? = some p → taken p = false)
      (granted : ∀ a, FollowsPast taken (next (.ok a)) calls result) :
      FollowsPast taken (.call c next) (c :: calls) result
  | past {draft : Draft} {next : (Call.create draft).Reply → Script (Except StoreError α)}
      {calls : List Call} {result : α} (at_taken : taken draft.place = true)
      (refused : ∀ filepath line,
        FollowsPast taken (next (.error (.alreadyExists filepath line))) calls result) :
      FollowsPast taken (.call (.create draft) next) calls result

variable {α : Type} {taken : Location → Bool} {s : Script (Except StoreError α)}
  {calls : List Call} {result : α}

/-- A script that follows calls about places that are not taken need not go past any. -/
theorem Script.Follows.past (h : s.Follows calls result)
    (hfree : ∀ c ∈ calls, ∀ p, c.place? = some p → taken p = false) :
    s.FollowsPast taken calls result := by
  induction h with
  | done result => exact .done result
  | call _ _ ih =>
    refine .call (hfree _ List.mem_cons_self) ?_
    intro a
    exact ih a fun c hc => hfree c (List.mem_cons_of_mem _ hc)

namespace Script.FollowsPast

/-- The calls that a script is not refused are about places that are not taken. -/
theorem free (h : s.FollowsPast taken calls result) :
    ∀ c ∈ calls, ∀ p, c.place? = some p → taken p = false := by
  induction h with
  | done result => exact fun c hc => nomatch hc
  | @call c next calls result hfree _ ih =>
    obtain ⟨a⟩ := c.nonempty_answer
    exact List.forall_mem_cons.2 ⟨hfree, ih a⟩
  | past _ _ ih => exact ih "" 0

/-- Where notes are at the places that are taken, a script that goes past them ends well,
and the notes are what the calls that it is not refused lead to. -/
theorem run_spec {clerk : Clerk Desk} (hs : s.FollowsPast taken calls result)
    (hclerk : ∀ (c : Call) (p : Location), c.place? = some p → ∀ d, clerk c d = Desk.answer c d)
    {ns : List Note} {d : Desk} (h : d.store.Shows ns) (hdue : Call.AllDue ns calls)
    (htaken : ∀ p, taken p = true → Note.at? ns p ≠ none)
    (hfair : s.Always clerk Desk.IsFair d) :
    ∃ d' ns', s.run clerk d = (.ok result, d') ∧ d'.store.Shows ns' ∧
      Call.Leads calls ns ns' := by
  induction hs generalizing d ns with
  | done result =>
    exact ⟨d, ns, rfl, h, fun _ _ => rfl, fun _ hc => absurd hc List.not_mem_nil⟩
  | @call c next calls result hfree _ ih =>
    have hc := hdue.due c List.mem_cons_self
    obtain ⟨p, hp⟩ := hc.place
    obtain ⟨⟨a, ha⟩, ns₁, hshows, hat⟩ := Desk.grant h hfair.1 hc hp
    have hframe := Call.frame hp hat
    have htaken' : ∀ q, taken q = true → Note.at? ns₁ q ≠ none := by
      intro q hq
      rw [hframe q fun hcq => by simp [hfree q hcq] at hq]
      exact htaken q hq
    have hrest := hfair.2
    rw [hclerk c p hp, ha] at hrest
    obtain ⟨d', ns', hrun, hshows', hleads⟩ := ih a hshows (hdue.tail hframe) htaken' hrest
    refine ⟨d', ns', ?_, hshows', hdue.leads_cons hp hat hleads⟩
    simp only [Script.run, hclerk c p hp, ha, hrun]
  | @past draft next calls result hat _ ih =>
    have hanswer : clerk (.create draft) d =
        (.error (.alreadyExists draft.filepath draft.line), d.after d.store) := by
      rw [hclerk (.create draft) draft.place rfl]
      exact Desk.answer_create_of_taken h.toHolds (htaken draft.place hat)
    have hrest := hfair.2
    rw [hanswer] at hrest
    obtain ⟨d', ns', hrun, hshows, hleads⟩ :=
      ih draft.filepath draft.line (d := d.after d.store) h hdue htaken hrest
    refine ⟨d', ns', ?_, hshows, hleads⟩
    simp only [Script.run, hanswer, hrun]

end Script.FollowsPast

/-! ## Notes out of sight -/

/-- What calls make of the notes at the places that are kept, if they are about those. -/
theorem Call.Leads.filter {ns ns' : List Note} (h : Leads calls ns ns') (keep : Location → Bool)
    (hcalls : ∀ c ∈ calls, ∀ p, c.place? = some p → keep p = true) :
    Leads calls (ns.filter fun n => keep n.place) (ns'.filter fun n => keep n.place) := by
  have hat : ∀ (ns : List Note) (p : Location), keep p = true →
      Note.at? (ns.filter fun n => keep n.place) p = Note.at? ns p := by
    intro ns p hp
    rw [Store.Holds.at?_filter ns keep, if_pos hp]
  refine ⟨?_, ?_⟩
  · intro q hq
    rw [Store.Holds.at?_filter ns keep, Store.Holds.at?_filter ns' keep, h.elsewhere q hq]
  · intro c hc p hp
    obtain ⟨w, hw⟩ := h.effects c hc p hp
    refine ⟨w, ?_⟩
    rw [hat ns p (hcalls c hc p hp), hat ns' p (hcalls c hc p hp), hw]

/-- Calls about places that are kept are due when the notes there allow them. -/
theorem Call.AllDue.of_filter {ns : List Note} (keep : Location → Bool)
    (h : AllDue (ns.filter fun n => keep n.place) calls)
    (hcalls : ∀ c ∈ calls, ∀ p, c.place? = some p → keep p = true) : AllDue ns calls := by
  refine ⟨?_, h.apart⟩
  intro c hc
  refine (h.due c hc).of_at? ?_
  intro p hp
  rw [Store.Holds.at?_filter ns keep, if_pos (hcalls c hc p hp)]

end Marginalia
