import Marginalia.Proofs.Store.Serve
import Marginalia.Proofs.Time.Room

set_option autoImplicit false

/-!
# Calls that are granted

Nothing is known of the years of a clock and of whose an identifier is, so a call may
fail.  But when calls are granted, they have their effects at their places, with times and
identifiers out of what was drawn; and the only call that can fail, where the notes allow
it, is one that adds a note under an identifier that is taken.
-/

namespace Marginalia

open Marginalia.Time (Instant)

/-! ## Calls that notes have a place for -/

namespace Call

/-- Whether notes have a place for a call: nothing is where it creates, and a note that
can be read is where it updates, without being moved. -/
def IsHome (ns : List Note) : Call → Prop
  | .create d => Note.at? ns d.place = none
  | .update filepath line d =>
    d.place = (filepath, line) ∧
      ∃ n, Note.at? ns (filepath, line) = some n ∧ n.TimesWithin 0 9999
  | .delete _ _ => True
  | .list _ | .deleteFile _ => False

/-- Whether a call changes or removes one note. -/
def IsChange : Call → Prop
  | .update _ _ _ | .delete _ _ => True
  | _ => False

/-- Whether notes have a place for a call depends on the note at its place only. -/
theorem IsHome.of_at? {ns ns' : List Note} {c : Call} (h : c.IsHome ns)
    (hsame : ∀ p, c.place? = some p → Note.at? ns' p = Note.at? ns p) : c.IsHome ns' := by
  cases c with
  | create d => exact (hsame _ rfl).trans h
  | update filepath line d =>
    obtain ⟨hplace, n, hat, hread⟩ := h
    exact ⟨hplace, n, (hsame _ rfl).trans hat, hread⟩
  | delete filepath line => trivial
  | list scope => exact h
  | deleteFile filepath => exact h

theorem IsHome.place {ns : List Note} {c : Call} (h : c.IsHome ns) : ∃ p, c.place? = some p :=
  c.exists_place (by rintro scope rfl; exact h) (by rintro filepath rfl; exact h)

/-- Calls about places of their own that notes have a place for. -/
structure AllHome (ns : List Note) (calls : List Call) : Prop where
  home : ∀ c ∈ calls, c.IsHome ns
  apart : calls.Pairwise fun b c => b.place? ≠ c.place?

/-- The calls after one keep their places, whatever it does at its own. -/
theorem AllHome.tail {ns ns' : List Note} {c : Call} {calls : List Call}
    (h : AllHome ns (c :: calls))
    (hframe : ∀ q, c.place? ≠ some q → Note.at? ns' q = Note.at? ns q) : AllHome ns' calls := by
  obtain ⟨hapart, hrest⟩ := List.pairwise_cons.1 h.apart
  refine ⟨fun b hb => ?_, hrest⟩
  refine (h.home b (List.mem_cons_of_mem _ hb)).of_at? fun p hp => hframe p ?_
  exact hp ▸ hapart b hb

/-- What calls make of notes, place by place, by what is drawn. -/
structure LeadsFrom (draws : Nat → Draw) (calls : List Call) (ns ns' : List Note) : Prop where
  /-- a place that no call is about is left alone -/
  elsewhere : ∀ q, (∀ c ∈ calls, c.place? ≠ some q) → Note.at? ns' q = Note.at? ns q
  /-- at its place a call has its effect -/
  effects : ∀ c ∈ calls, ∀ p, c.place? = some p →
    ∃ k, Note.at? ns' p = c.effect (draws k) (Note.at? ns p)

theorem LeadsFrom.leads {draws : Nat → Draw} {calls : List Call} {ns ns' : List Note}
    (h : LeadsFrom draws calls ns ns') : Leads calls ns ns' :=
  ⟨h.elsewhere, fun c hc p hp => (h.effects c hc p hp).imp' draws fun _ hk => hk⟩

end Call

/-! ## One call -/

namespace Desk

variable {d : Desk} {ns : List Note} {c : Call} {calls : List Call}

theorem draws_settle (d : Desk) (result : Except StoreError Store) :
    (d.settle result).2.draws = fun n => d.draws (n + 1) := by
  cases result <;> rfl

/-- Every call takes one draw. -/
theorem draws_answer (c : Call) (d : Desk) :
    (answer c d).2.draws = fun n => d.draws (n + 1) := by
  cases c with
  | list scope => cases scope <;> rfl
  | create draft => exact draws_settle d _
  | update filepath line draft => exact draws_settle d _
  | delete filepath line => rfl
  | deleteFile filepath => rfl

/-- Whether a call is granted and leaves notes that its effect describes. -/
def Serves (c : Call) (p : Location) (ns : List Note) (d : Desk) : Prop :=
  (∃ a, (answer c d).1 = .ok a) ∧
    ∃ ns', (answer c d).2.store.Holds ns' ∧ ∀ q, Note.at? ns' q =
      if q = p then c.effect (d.draws 0) (Note.at? ns p) else Note.at? ns q

theorem serves_create {draft : Draft} (h : d.store.Holds ns) (hnow : (d.draws 0).now.IsProper)
    (hfree : Note.at? ns draft.place = none) :
    Serves (.create draft) draft.place ns d ∨
      ∃ e : StoreError, (answer (.create draft) d).1 = .error e ∧ ¬e.IsAlreadyExists := by
  by_cases hid : (d.draws 0).id ∈ ns.map (·.id)
  · have hplace : (draft.toNote (d.draws 0).id (d.draws 0).now).place ∉ ns.map Note.place :=
      Store.Holds.at?_eq_none_iff.1 hfree
    have hcreate := h.create_eq (draft.toNote (d.draws 0).id (d.draws 0).now)
    rw [if_neg hplace, if_pos (show (draft.toNote _ _).id ∈ _ from hid)] at hcreate
    refine .inr ⟨.backend (.unique .noteId), ?_, fun ⟨_, _, heq⟩ => nomatch heq⟩
    simp only [answer, hcreate, settle]
    rfl
  · obtain ⟨hcreate, hholds, hat⟩ :=
      h.create_at (n := draft.toNote (d.draws 0).id (d.draws 0).now) hnow hnow hfree hid
    refine .inl ?_
    simp only [Serves, answer, hcreate, settle, after]
    exact ⟨⟨(), rfl⟩, _, hholds, hat⟩

theorem serves_update {filepath : String} {line : UInt32} {draft : Draft}
    (h : d.store.Holds ns) (hnow : (d.draws 0).now.IsProper)
    (hhome : (Call.update filepath line draft).IsHome ns) :
    Serves (.update filepath line draft) (filepath, line) ns d := by
  obtain ⟨hplace, n, hat, hread⟩ := hhome
  obtain ⟨hupdate, hholds, hat'⟩ := h.update_at hat hread hplace hnow rfl
  simp only [Serves, answer, hupdate, settle, after]
  refine ⟨⟨(), rfl⟩, _, hholds, fun q => ?_⟩
  rw [hat', hat]
  rfl

theorem serves_delete (filepath : String) (line : UInt32) (h : d.store.Holds ns) :
    Serves (.delete filepath line) (filepath, line) ns d :=
  ⟨⟨(), rfl⟩, _, h.of_delete filepath line, Store.Holds.at?_filter_place ns (filepath, line)⟩

/-- A call that notes have a place for is granted and has its effect, or it adds a note
and fails for another reason than that there is one already. -/
theorem serves_of_isHome {p : Location} (h : d.store.Holds ns)
    (hnow : (d.draws 0).now.IsProper) (hhome : c.IsHome ns) (hp : c.place? = some p) :
    Serves c p ns d ∨
      (¬c.IsChange ∧ ∃ e : StoreError, (answer c d).1 = .error e ∧ ¬e.IsAlreadyExists) := by
  cases c with
  | create draft =>
    cases hp
    exact (serves_create h hnow hhome).imp_right fun hfails => ⟨id, hfails⟩
  | update filepath line draft =>
    cases hp
    exact .inl (serves_update h hnow hhome)
  | delete filepath line =>
    cases hp
    exact .inl (serves_delete filepath line h)
  | list scope => exact hhome.elim
  | deleteFile filepath => exact hhome.elim

/-! ## Calls one after the other -/

/-- Whether the clock always shows a time of day. -/
def HasClock (d : Desk) : Prop := ∀ n, (d.draws n).now.IsProper

theorem HasClock.after_answer (h : d.HasClock) (c : Call) : (answer c d).2.HasClock := by
  intro n
  rw [draws_answer]
  exact h (n + 1)

/-- Calls that are granted lead to the notes that their effects describe. -/
theorem holds_serve (h : d.store.Holds ns) (hclock : d.HasClock) (hhome : Call.AllHome ns calls)
    (hgrants : Clerk.Grants answer calls d) :
    ∃ ns', (Clerk.serve answer calls d).store.Holds ns' ∧
      Call.LeadsFrom d.draws calls ns ns' := by
  induction calls generalizing d ns with
  | nil => exact ⟨ns, h, fun _ _ => rfl, fun _ hc => absurd hc List.not_mem_nil⟩
  | cons c calls ih =>
    have hc := hhome.home c List.mem_cons_self
    obtain ⟨p, hp⟩ := hc.place
    obtain ⟨⟨a, ha⟩, hrest⟩ := hgrants
    obtain ⟨-, ns₁, hholds, hat⟩ : Serves c p ns d := by
      refine (serves_of_isHome h (hclock 0) hc hp).resolve_right ?_
      rintro ⟨-, e, he, -⟩
      rw [ha] at he
      cases he
    have hframe := Call.frame hp hat
    obtain ⟨ns', hholds', hleads⟩ := ih hholds (hclock.after_answer c) (hhome.tail hframe) hrest
    obtain ⟨hapart, -⟩ := List.pairwise_cons.1 hhome.apart
    refine ⟨ns', hholds', Call.elsewhere_cons hframe hleads.elsewhere, ?_⟩
    refine Call.effects_cons hframe hleads.elsewhere
      (fun b before after => ∃ k, after = b.effect (d.draws k) before) hapart hp ⟨0, ?_⟩ ?_
    · rw [hat, if_pos rfl]
    · -- the later calls draw behind the first
      intro b hb q hbq
      obtain ⟨k, hk⟩ := hleads.effects b hb q hbq
      rw [draws_answer] at hk
      exact ⟨k + 1, hk⟩

/-- Calls that change or remove notes are all granted. -/
theorem grants_of_isChange (h : d.store.Holds ns) (hclock : d.HasClock)
    (hhome : Call.AllHome ns calls) (hchange : ∀ c ∈ calls, c.IsChange) :
    Clerk.Grants answer calls d := by
  induction calls generalizing d ns with
  | nil => trivial
  | cons c calls ih =>
    have hc := hhome.home c List.mem_cons_self
    obtain ⟨p, hp⟩ := hc.place
    obtain ⟨hgrant, ns₁, hholds, hat⟩ : Serves c p ns d :=
      (serves_of_isHome h (hclock 0) hc hp).resolve_right fun hfails =>
        hfails.1 (hchange c List.mem_cons_self)
    refine ⟨hgrant, ih hholds (hclock.after_answer c) (hhome.tail (Call.frame hp hat)) ?_⟩
    intro b hb
    exact hchange b (List.mem_cons_of_mem _ hb)

end Desk

/-- A script that follows calls and ends well was granted all of them. -/
theorem Script.Follows.grants_of_ok {α : Type} {s : Script (Except StoreError α)}
    {calls : List Call} {result a : α} (hs : s.Follows calls result) {ns : List Note} {d : Desk}
    (h : d.store.Holds ns) (hclock : d.HasClock) (hhome : Call.AllHome ns calls)
    (hok : (s.run Desk.answer d).1 = .ok a) : Clerk.Grants Desk.answer calls d := by
  induction hs generalizing d ns with
  | done result => trivial
  | @call c next calls result granted failed ih =>
    have hc := hhome.home c List.mem_cons_self
    obtain ⟨p, hp⟩ := hc.place
    rcases Desk.serves_of_isHome h (hclock 0) hc hp with
      ⟨⟨b, hb⟩, ns₁, hholds, hat⟩ | ⟨-, e, he, hne⟩
    · simp only [Script.run, hb] at hok
      exact ⟨⟨b, hb⟩, ih b hholds (hclock.after_answer c) (hhome.tail (Call.frame hp hat)) hok⟩
    · simp only [Script.run, he, failed e hne] at hok
      cases hok

/-! ## Room for changes -/

/-- Whether a note can be read and can be changed some times more. -/
def Note.HasRoom (moves : Nat) (n : Note) : Prop :=
  n.createdAt.YearWithin 0 9999 ∧ n.updatedAt.HasRoom moves

theorem Note.HasRoom.timesWithin {moves : Nat} {n : Note} (h : n.HasRoom moves) :
    n.TimesWithin 0 9999 :=
  ⟨h.1, h.2.yearWithin⟩

/-- A call takes one move from the note at its place at most. -/
theorem Call.hasRoom_effect {moves : Nat} {c : Call} {w : Draw} {before : Option Note} {n : Note}
    (hnow : w.now.HasRoom moves) (hbefore : ∀ m, before = some m → m.HasRoom (moves + 1))
    (heffect : c.effect w before = some n) : n.HasRoom moves := by
  cases c with
  | create draft =>
    cases heffect
    exact ⟨hnow.yearWithin.cutToMicros, hnow.cutToMicros⟩
  | update filepath line draft =>
    cases before with
    | none => cases heffect
    | some m =>
      cases heffect
      have hm := hbefore m rfl
      exact ⟨hm.1, (hnow.latest hm.2.nextMicro).cutToMicros⟩
  | delete filepath line => cases heffect
  | list scope => cases heffect
  | deleteFile filepath => cases heffect

/-- Calls about places of their own take one move from each note at most. -/
theorem Call.LeadsFrom.hasRoom {draws : Nat → Draw} {calls : List Call} {s s' : Store}
    {ns ns' : List Note} {moves : Nat} (h : LeadsFrom draws calls ns ns') (hs : s.Holds ns)
    (hs' : s'.Holds ns') (hclock : ∀ k, (draws k).now.HasRoom moves)
    (hroom : ∀ n ∈ ns, n.HasRoom (moves + 1)) : ∀ n ∈ ns', n.HasRoom moves := by
  intro n hn
  have hat := hs'.at?_eq_some_iff.2 ⟨hn, rfl⟩
  have hbefore : ∀ m, Note.at? ns n.place = some m → m.HasRoom (moves + 1) :=
    fun m hm => hroom m (hs.at?_eq_some_iff.1 hm).1
  by_cases hcall : ∃ c ∈ calls, c.place? = some n.place
  · obtain ⟨c, hc, hp⟩ := hcall
    obtain ⟨k, hk⟩ := h.effects c hc _ hp
    rw [hat] at hk
    exact hasRoom_effect (hclock k) hbefore hk.symm
  · rw [h.elsewhere _ fun c hc hp => hcall ⟨c, hc, hp⟩] at hat
    have hn := hbefore n hat
    exact ⟨hn.1, hn.2.mono (Nat.le_succ moves)⟩

end Marginalia
