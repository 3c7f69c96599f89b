import Marginalia.Proofs.Store.Desk
import Marginalia.Proofs.Store.Script

set_option autoImplicit false

/-!
# Lists of calls at a desk

Calls about places of their own do not disturb each other.  When the notes allow
each of them and what they draw is fair, all are granted; afterwards the note at
the place of a call is what the effect of the call makes of it, and every other
place is as before.
-/

namespace Marginalia

/-- Calls about places of their own that notes allow. -/
structure Call.AllDue (ns : List Note) (calls : List Call) : Prop where
  due : ∀ c ∈ calls, c.IsDue ns
  apart : calls.Pairwise fun b c => b.place? ≠ c.place?

/-- What calls make of notes, place by place. -/
structure Call.Leads (calls : List Call) (ns ns' : List Note) : Prop where
  /-- a place that no call is about is left alone -/
  elsewhere : ∀ q, (∀ c ∈ calls, c.place? ≠ some q) → Note.at? ns' q = Note.at? ns q
  /-- at its place a call has its effect -/
  effects : ∀ c ∈ calls, ∀ p, c.place? = some p →
    ∃ w, Note.at? ns' p = c.effect w (Note.at? ns p)

/-- A call that changes what is at its place only leaves all other places alone. -/
theorem Call.frame {c : Call} {p : Location} {ns ns' : List Note} {note : Option Note}
    (hp : c.place? = some p)
    (hat : ∀ q, Note.at? ns' q = if q = p then note else Note.at? ns q) :
    ∀ q, c.place? ≠ some q → Note.at? ns' q = Note.at? ns q := by
  intro q hq
  rw [hat q]
  exact if_neg fun heq : q = p => hq (heq ▸ hp)

section Cons

variable {ns ns' ns'' : List Note} {c : Call} {calls : List Call}
  (hframe : ∀ q, c.place? ≠ some q → Note.at? ns' q = Note.at? ns q)
  (helsewhere : ∀ q, (∀ b ∈ calls, b.place? ≠ some q) → Note.at? ns'' q = Note.at? ns' q)
include hframe helsewhere

/-- A call and those after it leave alone what none of them is about. -/
theorem Call.elsewhere_cons :
    ∀ q, (∀ b ∈ c :: calls, b.place? ≠ some q) → Note.at? ns'' q = Note.at? ns q := by
  intro q hq
  rw [helsewhere q fun b hb => hq b (List.mem_cons_of_mem _ hb)]
  exact hframe q (hq c List.mem_cons_self)

/-- When no later call is about the place of the first, each does at its own place what it
does alone. -/
theorem Call.effects_cons (does : Call → Option Note → Option Note → Prop) {p : Location}
    (hapart : ∀ b ∈ calls, c.place? ≠ b.place?) (hp : c.place? = some p)
    (hfirst : does c (Note.at? ns p) (Note.at? ns' p))
    (hlater : ∀ b ∈ calls, ∀ q, b.place? = some q → does b (Note.at? ns' q) (Note.at? ns'' q)) :
    ∀ b ∈ c :: calls, ∀ q, b.place? = some q → does b (Note.at? ns q) (Note.at? ns'' q) := by
  intro b hb q hbq
  rcases List.mem_cons.1 hb with rfl | hb
  · obtain rfl : p = q := Option.some.inj (hp.symm.trans hbq)
    rwa [helsewhere p fun b hb => hp ▸ (hapart b hb).symm]
  · rw [← hframe q (hbq ▸ hapart b hb)]
    exact hlater b hb q hbq

end Cons

namespace Call.AllDue

variable {ns ns' : List Note} {c : Call} {before calls : List Call}

theorem left (h : AllDue ns (before ++ calls)) : AllDue ns before :=
  ⟨fun c hc => h.due c (List.mem_append_left _ hc), (List.pairwise_append.1 h.apart).1⟩

/-- No call is about the place of a call that comes before it. -/
theorem place_ne (h : AllDue ns (before ++ calls)) {b c : Call} (hb : b ∈ before)
    (hc : c ∈ calls) : b.place? ≠ c.place? :=
  (List.pairwise_append.1 h.apart).2.2 b hb c hc

/-- The calls after some stay due, whatever those do at their places. -/
theorem right (h : AllDue ns (before ++ calls)) (hleads : Leads before ns ns') :
    AllDue ns' calls := by
  refine ⟨fun c hc => ?_, (List.pairwise_append.1 h.apart).2.1⟩
  refine (h.due c (List.mem_append_right _ hc)).of_at? fun p hp => ?_
  exact hleads.elsewhere p fun b hb => hp ▸ h.place_ne hb hc

/-- The calls after one stay due, whatever it does at its place. -/
theorem tail (h : AllDue ns (c :: calls))
    (hframe : ∀ q, c.place? ≠ some q → Note.at? ns' q = Note.at? ns q) : AllDue ns' calls := by
  obtain ⟨hapart, hrest⟩ := List.pairwise_cons.1 h.apart
  refine ⟨fun b hb => ?_, hrest⟩
  refine (h.due b (List.mem_cons_of_mem _ hb)).of_at? fun p hp => hframe p ?_
  exact hp ▸ hapart b hb

/-- What a call does at its place and what further calls make of the notes. -/
theorem leads_cons (h : AllDue ns (c :: calls)) {p : Location} {w : Draw} {ns'' : List Note}
    (hp : c.place? = some p)
    (hat : ∀ q, Note.at? ns' q = if q = p then c.effect w (Note.at? ns p) else Note.at? ns q)
    (hleads : Leads calls ns' ns'') : Leads (c :: calls) ns ns'' := by
  have hframe := Call.frame hp hat
  obtain ⟨hapart, -⟩ := List.pairwise_cons.1 h.apart
  refine ⟨Call.elsewhere_cons hframe hleads.elsewhere, ?_⟩
  refine Call.effects_cons hframe hleads.elsewhere
    (fun b before after => ∃ w, after = b.effect w before) hapart hp ⟨w, ?_⟩ hleads.effects
  rw [hat, if_pos rfl]

/-- What calls lead to and what further calls make of it. -/
theorem leads_append (h : AllDue ns (before ++ calls)) {ns'' : List Note}
    (hleads : Leads before ns ns') (hleads' : Leads calls ns' ns'') :
    Leads (before ++ calls) ns ns'' := by
  refine ⟨fun q hq => ?_, fun c hc p hp => ?_⟩
  · rw [hleads'.elsewhere q fun c hc => hq c (List.mem_append_right _ hc)]
    exact hleads.elsewhere q fun c hc => hq c (List.mem_append_left _ hc)
  · rcases List.mem_append.1 hc with hc | hc
    · rw [hleads'.elsewhere p fun b hb => hp ▸ (h.place_ne hc hb).symm]
      exact hleads.effects c hc p hp
    · obtain ⟨w, hw⟩ := hleads'.effects c hc p hp
      rw [hleads.elsewhere p fun b hb => hp ▸ h.place_ne hb hc] at hw
      exact ⟨w, hw⟩

end Call.AllDue

namespace Desk

/-- Whether all that calls draw one after the other is fair. -/
def FairFor : List Call → Desk → Prop
  | [], _ => True
  | c :: calls, d => IsFair c d ∧ FairFor calls (answer c d).2

theorem FairFor.left {before calls : List Call} {d : Desk} (h : FairFor (before ++ calls) d) :
    FairFor before d := by
  induction before generalizing d with
  | nil => trivial
  | cons c before ih => exact ⟨h.1, ih h.2⟩

theorem FairFor.right {before calls : List Call} {d : Desk} (h : FairFor (before ++ calls) d) :
    FairFor calls (Clerk.serve answer before d) := by
  induction before generalizing d with
  | nil => exact h
  | cons c before ih => exact ih h.2

variable {ns : List Note} {calls : List Call} {d : Desk}

/-- Calls that are due are all granted, and tell the notes place by place. -/
theorem serve_spec (h : d.store.Shows ns) (hdue : Call.AllDue ns calls)
    (hfair : FairFor calls d) :
    Clerk.Grants answer calls d ∧
      ∃ ns', (Clerk.serve answer calls d).store.Shows ns' ∧ Call.Leads calls ns ns' := by
  induction calls generalizing d ns with
  | nil => exact ⟨trivial, ns, h, fun _ _ => rfl, fun _ hc => absurd hc List.not_mem_nil⟩
  | cons c calls ih =>
    have hc := hdue.due c List.mem_cons_self
    obtain ⟨p, hp⟩ := hc.place
    obtain ⟨hgrant, ns₁, hshows, hat⟩ := grant h hfair.1 hc hp
    obtain ⟨hgrants, ns', hshows', hleads⟩ :=
      ih hshows (hdue.tail (Call.frame hp hat)) hfair.2
    exact ⟨⟨hgrant, hgrants⟩, ns', hshows', hdue.leads_cons hp hat hleads⟩

/-- The notes between some calls and the rest of them. -/
theorem serve_append_spec {rest : List Call} (h : d.store.Shows ns)
    (hdue : Call.AllDue ns (calls ++ rest)) (hfair : FairFor (calls ++ rest) d) :
    Clerk.Grants answer calls d ∧
      ∃ mid whole, (Clerk.serve answer calls d).store.Shows mid ∧
        (Clerk.serve answer (calls ++ rest) d).store.Shows whole ∧
        Call.Leads calls ns mid ∧ Call.Leads rest mid whole := by
  obtain ⟨hgrants, mid, hmid, hleads⟩ := serve_spec h hdue.left hfair.left
  obtain ⟨-, whole, hwhole, hrest⟩ := serve_spec hmid (hdue.right hleads) hfair.right
  rw [← Clerk.serve_append] at hwhole
  exact ⟨hgrants, mid, whole, hmid, hwhole, hleads, hrest⟩

end Desk

/-- A script that follows calls that are due draws for these calls only. -/
theorem Script.Follows.fairFor {α : Type} {s : Script (Except StoreError α)} {calls : List Call}
    {result : α} (hs : s.Follows calls result) {ns : List Note} {d : Desk}
    (h : d.store.Shows ns) (hdue : Call.AllDue ns calls)
    (hfair : s.Always Desk.answer Desk.IsFair d) : Desk.FairFor calls d := by
  induction hs generalizing d ns with
  | done result => trivial
  | @call c next calls result granted failed ih =>
    have hc := hdue.due c List.mem_cons_self
    obtain ⟨p, hp⟩ := hc.place
    obtain ⟨⟨a, ha⟩, ns₁, hshows, hat⟩ := Desk.grant h hfair.1 hc hp
    have hrest := hfair.2
    rw [ha] at hrest
    exact ⟨hfair.1, ih a hshows (hdue.tail (Call.frame hp hat)) hrest⟩

/-! ## Listing -/

/-- Whether a place is in the scope of a listing. -/
def Location.isIn (scope : Option String) (p : Location) : Bool := scope.all (p.1 == ·)

namespace Desk

/-- A listing shows the notes in its scope, each once, and changes nothing. -/
theorem answer_list {ns : List Note} {d : Desk} (h : d.store.Shows ns) (scope : Option String) :
    ∃ notes : List Note, answer (.list scope) d = (.ok notes, d.after d.store) ∧
      notes.Perm (ns.filter fun n => n.place.isIn scope) := by
  cases scope with
  | none =>
    refine ⟨_, Prod.ext (h.select_eq h.readable _) rfl, ?_⟩
    exact (List.mergeSort_perm _ _).filter _
  | some filepath =>
    refine ⟨_, Prod.ext (h.select_eq h.readable _) rfl, ?_⟩
    exact (List.mergeSort_perm _ _).filter _

end Desk

end Marginalia
