import Marginalia.Proofs.Reconcile.Idempotence
import Marginalia.Proofs.Store.Clients
import Marginalia.Proofs.Time.Room

set_option autoImplicit false

/-!
# Two passes at once

Two passes over the same comments, each with its own scope, share a store and take
turns call by call.  Each acts on a listing that may be old when it writes, so one
may create what the other has created, change what the other has changed or remove
what the other has removed.  Neither ever removes a note that a comment counts for,
so a note to be changed is still there, and a note that is there already says what
the comment says.  In the end every place in either scope is as the comments say.
-/

namespace Marginalia

variable {α : Type}

/-! ## Scripts that are not put off -/

/-- A script that makes the calls of a list as long as they are granted, and goes on
when a note that it creates is there already. -/
inductive Script.Pursues : Script (Except StoreError α) → List Call → Prop
  | done (result : α) : Pursues (.done (.ok result)) []
  | call {c : Call} {next : c.Reply → Script (Except StoreError α)} {calls : List Call}
      (granted : ∀ a, Pursues (next (.ok a)) calls)
      (taken : ∀ d, c = .create d → ∀ f l, Pursues (next (.error (.alreadyExists f l))) calls) :
      Pursues (.call c next) (c :: calls)

namespace Reconcile

open Marginalia.Time (Instant)

theorem prune_pursues (notes : List (String × Note)) (report : Report) :
    (prune notes report).Pursues (notes.map removal) := by
  induction notes generalizing report with
  | nil => exact .done report
  | cons e notes ih => exact .call (fun _ => ih _) fun _ h => nomatch h

/-- Writing what is wanted and removing what is stale pursues the plan. -/
theorem write_pursues {entries : List (String × Comment)} (h : (entries.map (·.1)).Nodup)
    (existing : Index Note) (report : Report) :
    (write entries existing report).Pursues (plan entries existing) := by
  replace h := turns_of_nodup h existing
  induction h generalizing report with
  | done =>
    rw [plan_nil]
    exact prune_pursues _ report
  | create _ hget _ ih =>
    rw [plan_cons_create hget]
    simp only [write, hget]
    exact .call (fun _ => ih _) fun _ _ _ _ => ih _
  | keep hkey hget hagrees _ ih =>
    rw [plan_cons_keep hkey hget hagrees]
    simp only [write, hget, if_pos hagrees]
    exact ih _
  | update hkey hget hagrees _ ih =>
    rw [plan_cons_update hkey hget hagrees]
    simp only [write, hget, if_neg hagrees]
    exact .call (fun _ => ih _) fun _ h => by cases h

/-! ## Places that are settled -/

/-- Whether a place is as the comments say. -/
structure SettledAt (discovered : List Comment) (ns : List Note) (p : Location) : Prop where
  agreed : ∀ c, firstAt discovered p = some c →
    ∃ n, Note.at? ns p = some n ∧ agrees n c = true
  bare : firstAt discovered p = none → Note.at? ns p = none

/-- Whether notes changed for the better: each place is as it was or as the comments
say. -/
def Improves (discovered : List Comment) (ns ns' : List Note) : Prop :=
  ∀ q, Note.at? ns' q = Note.at? ns q ∨ SettledAt discovered ns' q

variable {discovered : List Comment} {scope : Option String} {ns ns' : List Note}

theorem SettledAt.of_at? {p : Location} (h : SettledAt discovered ns p)
    (hsame : Note.at? ns' p = Note.at? ns p) : SettledAt discovered ns' p :=
  ⟨fun c hc => hsame ▸ h.agreed c hc, fun hnone => hsame.trans (h.bare hnone)⟩

/-- At a settled place there is a note exactly if a comment was discovered there. -/
theorem SettledAt.exists_iff {s : Store} (hs : s.Holds ns) {p : Location}
    (h : SettledAt discovered ns p) :
    (∃ n ∈ ns, n.place = p) ↔ ∃ c ∈ discovered, c.place = p := by
  rw [← exists_firstAt_iff]
  constructor
  · rintro ⟨n, hn, hplace⟩
    have hat := hs.at?_eq_some_iff.2 ⟨hn, hplace⟩
    refine Option.ne_none_iff_exists'.1 fun hnone => ?_
    rw [h.bare hnone] at hat
    cases hat
  · rintro ⟨c, hfirst⟩
    obtain ⟨n, hn, -⟩ := h.agreed c hfirst
    exact ⟨n, hs.at?_eq_some_iff.1 hn⟩

/-- A note at a settled place says what the first comment there says. -/
theorem SettledAt.exists_comment {s : Store} (hs : s.Holds ns) {n : Note} (hn : n ∈ ns)
    (h : SettledAt discovered ns n.place) :
    ∃ c, firstAt discovered n.place = some c ∧ n.text = c.text ∧ n.kind = c.kind := by
  obtain ⟨c, hc, hplace⟩ := (h.exists_iff hs).1 ⟨n, hn, rfl⟩
  obtain ⟨first, hfirst⟩ := exists_firstAt_iff.2 ⟨c, hc, hplace⟩
  obtain ⟨m, hm, hagrees⟩ := h.agreed first hfirst
  rw [hs.at?_eq_some_iff.2 ⟨hn, rfl⟩, Option.some.injEq] at hm
  exact ⟨first, hfirst, (agrees_iff n first).1 (hm ▸ hagrees)⟩

theorem Improves.settledAt (h : Improves discovered ns ns') {p : Location}
    (hp : SettledAt discovered ns p) : SettledAt discovered ns' p :=
  (h p).elim hp.of_at? id

/-! ## Calls that fit -/

/-- Whether a call that was planned on an old listing still fits the notes: it creates
where there is no note or one that agrees already, it changes a note that is still
there, and it removes only where no comment counts. -/
def Fits (discovered : List Comment) (ns : List Note) : Call → Prop
  | .create d => ∃ c, d = .ofComment c ∧ firstAt discovered c.place = some c ∧
      ∀ n, Note.at? ns c.place = some n → agrees n c = true
  | .update filepath line d => ∃ c, d = .ofComment c ∧ c.place = (filepath, line) ∧
      firstAt discovered c.place = some c ∧ ∃ n, Note.at? ns c.place = some n
  | .delete filepath line => firstAt discovered (filepath, line) = none
  | .list _ | .deleteFile _ => False

/-- Nothing that changes for the better makes a call unfit. -/
theorem Fits.of_improves {c : Call} (h : Fits discovered ns c)
    (himproves : Improves discovered ns ns') : Fits discovered ns' c := by
  cases c with
  | create d =>
    obtain ⟨k, rfl, hfirst, hagrees⟩ := h
    refine ⟨k, rfl, hfirst, fun n hn => ?_⟩
    rcases himproves k.place with hsame | hsettled
    · exact hagrees n (hsame ▸ hn)
    · obtain ⟨m, hm, hagreed⟩ := hsettled.agreed k hfirst
      rw [hm, Option.some.injEq] at hn
      exact hn ▸ hagreed
  | update filepath line d =>
    obtain ⟨k, rfl, hplace, hfirst, n, hn⟩ := h
    refine ⟨k, rfl, hplace, hfirst, ?_⟩
    rcases himproves k.place with hsame | hsettled
    · exact ⟨n, hsame.trans hn⟩
    · obtain ⟨m, hm, -⟩ := hsettled.agreed k hfirst
      exact ⟨m, hm⟩
  | delete filepath line => exact h
  | list scope => exact h
  | deleteFile filepath => exact h

theorem Fits.place {c : Call} (h : Fits discovered ns c) : ∃ p, c.place? = some p :=
  c.exists_place (by rintro scope rfl; exact h) (by rintro filepath rfl; exact h)

section Calls

variable {existing : Index Note} {d : Desk}

/-- A plan fits the notes that it was made for. -/
theorem fits_of_mem_plan (hknows : Knows existing scope ns) {c : Call}
    (hc : c ∈ plan (wantedEntries discovered scope) existing) : Fits discovered ns c := by
  cases (mem_plan_iff hknows).1 hc with
  | @create c _ hfirst hat =>
    refine ⟨c, rfl, hfirst, fun n hn => ?_⟩
    rw [hat] at hn
    cases hn
  | @update c n _ hfirst hat _ => exact ⟨c, rfl, rfl, hfirst, n, hat⟩
  | delete _ hfirst _ => exact hfirst

/-- A place in scope that the plan leaves out is settled. -/
theorem settledAt_of_plan (hknows : Knows existing scope ns)
    (hplaces : ∀ p n, Note.at? ns p = some n → n.place = p) {p : Location}
    (hscope : p.isIn scope)
    (hnone : ∀ c ∈ plan (wantedEntries discovered scope) existing, c.place? ≠ some p) :
    SettledAt discovered ns p := by
  refine ⟨fun c hfirst => ?_, fun hfirst => ?_⟩
  · obtain rfl := place_of_firstAt hfirst
    cases hat : Note.at? ns c.place with
    | none =>
      have hmem := (mem_plan_iff hknows).2 (.create hscope hfirst hat)
      exact absurd rfl (hnone _ hmem)
    | some n =>
      refine ⟨n, rfl, eq_true_of_ne_false fun hdiffers => ?_⟩
      have hmem := (mem_plan_iff hknows).2 (.update hscope hfirst hat hdiffers)
      exact absurd rfl (hnone _ hmem)
  · cases hat : Note.at? ns p with
    | none => rfl
    | some n =>
      obtain rfl := hplaces p n hat
      have hmem := (mem_plan_iff hknows).2 (.delete hscope hfirst hat)
      exact absurd rfl (hnone _ hmem)

/-- What a client may learn from a call that fits: that it is granted, or that there
is a note already where it creates one. -/
def Welcome (c : Call) (reply : c.Reply) : Prop :=
  (∃ a, reply = .ok a) ∨
    (∃ draft, c = .create draft) ∧ ∃ f l, reply = .error (.alreadyExists f l)

/-- What a call about a place leaves of notes: the place is settled, its note can still
be moved forward some times, and all other places are as before. -/
structure Settles (discovered : List Comment) (p : Location) (moves : Nat)
    (ns ns' : List Note) : Prop where
  elsewhere : ∀ q, q ≠ p → Note.at? ns' q = Note.at? ns q
  settled : SettledAt discovered ns' p
  room : ∀ n, Note.at? ns' p = some n → n.updatedAt.HasRoom moves

theorem Settles.improves {p : Location} {moves : Nat} (h : Settles discovered p moves ns ns') :
    Improves discovered ns ns' := by
  intro q
  by_cases hq : q = p
  · exact .inr (hq ▸ h.settled)
  · exact .inl (h.elsewhere q hq)

/-- The note that a granted call leaves at its place settles the place. -/
theorem settles_of_some {p : Location} {moves : Nat} {after : Option Note} {c : Comment} {m : Note}
    (hat : ∀ q, Note.at? ns' q = if q = p then after else Note.at? ns q) (hafter : after = some m)
    (hfirst : firstAt discovered p = some c) (hagrees : agrees m c = true)
    (hroom : m.updatedAt.HasRoom moves) : Settles discovered p moves ns ns' := by
  have hm : Note.at? ns' p = some m := by rw [hat, if_pos rfl, hafter]
  refine ⟨fun q hq => by rw [hat, if_neg hq], ⟨fun k hk => ⟨m, hm, ?_⟩, fun hnone => ?_⟩, ?_⟩
  · rw [hfirst, Option.some.injEq] at hk
    exact hk ▸ hagrees
  · rw [hfirst] at hnone
    cases hnone
  · intro n hn
    rw [hm, Option.some.injEq] at hn
    exact hn ▸ hroom

theorem settles_create {draft : Draft} {moves : Nat} (h : d.store.Shows ns)
    (hfair : Desk.IsFair (.create draft) d) (hfits : Fits discovered ns (.create draft))
    (hmoves : moves ≤ 86400)
    (hroom : ∀ n, Note.at? ns draft.place = some n → n.updatedAt.HasRoom (moves + 1)) :
    Welcome (.create draft) (Desk.answer (.create draft) d).1 ∧
      ∃ ns', (Desk.answer (.create draft) d).2.store.Shows ns' ∧
        Settles discovered draft.place moves ns ns' := by
  obtain ⟨c, rfl, hfirst, hagreed⟩ := hfits
  cases hat : Note.at? ns c.place with
  | none =>
    obtain ⟨hgrant, ns', hshows, hat'⟩ := Desk.grant_create h hfair hat
    refine ⟨.inl hgrant, ns', hshows, settles_of_some hat' rfl hfirst ?_ ?_⟩
    · exact (agrees_iff _ c).2 ⟨rfl, rfl⟩
    · exact (hfair.2.1.hasRoom hmoves).cutToMicros
  | some n =>
    -- the other client was faster, and the note says the right thing already
    have htaken : Note.at? ns (Draft.ofComment c).place ≠ none := by
      rw [Draft.place_ofComment, hat]
      exact Option.some_ne_none n
    rw [Desk.answer_create_of_taken h.toHolds htaken]
    refine ⟨.inr ⟨⟨_, rfl⟩, _, _, rfl⟩, ns, h, settles_of_some (m := n) (fun q => ?_) rfl
      hfirst (hagreed n hat) ((hroom n hat).mono (Nat.le_succ _))⟩
    split
    · rename_i hq
      rw [hq]
      exact hat
    · rfl

theorem settles_update {filepath : String} {line : UInt32} {draft : Draft} {moves : Nat}
    (h : d.store.Shows ns) (hfair : Desk.IsFair (.update filepath line draft) d)
    (hfits : Fits discovered ns (.update filepath line draft)) (hmoves : moves ≤ 86400)
    (hroom : ∀ n, Note.at? ns (filepath, line) = some n → n.updatedAt.HasRoom (moves + 1)) :
    Welcome (.update filepath line draft) (Desk.answer (.update filepath line draft) d).1 ∧
      ∃ ns', (Desk.answer (.update filepath line draft) d).2.store.Shows ns' ∧
        Settles discovered (filepath, line) moves ns ns' := by
  obtain ⟨c, rfl, hplace, hfirst, n, hn⟩ := hfits
  rw [hplace] at hn hfirst
  have hnext := (hroom n hn).nextMicro
  obtain ⟨hgrant, ns', hshows, hat'⟩ := Desk.grant_update h hfair hplace hn hnext.yearWithin
  have heffect : (Call.update filepath line (.ofComment c)).effect (d.draws 0)
      (Note.at? ns (filepath, line)) = some (n.revise (.ofComment c)
        (Instant.latest (d.draws 0).now n.updatedAt.nextMicro).cutToMicros) := by
    rw [hn]
    rfl
  refine ⟨.inl hgrant, ns', hshows, settles_of_some hat' heffect hfirst ?_ ?_⟩
  · exact (agrees_iff _ c).2 ⟨rfl, rfl⟩
  · exact ((hfair.2.hasRoom hmoves).latest hnext).cutToMicros

theorem settles_delete {filepath : String} {line : UInt32} (moves : Nat)
    (h : d.store.Shows ns) (hfits : Fits discovered ns (.delete filepath line)) :
    Welcome (.delete filepath line) (Desk.answer (.delete filepath line) d).1 ∧
      ∃ ns', (Desk.answer (.delete filepath line) d).2.store.Shows ns' ∧
        Settles discovered (filepath, line) moves ns ns' := by
  obtain ⟨hgrant, ns', hshows, hat'⟩ := Desk.grant_delete filepath line h
  have hnone : Note.at? ns' (filepath, line) = none := by
    rw [hat', if_pos rfl]
    rfl
  refine ⟨.inl hgrant, ns', hshows, fun q hq => by rw [hat', if_neg hq], ⟨?_, fun _ => hnone⟩, ?_⟩
  · intro c hc
    rw [show firstAt discovered (filepath, line) = none from hfits] at hc
    cases hc
  · intro n hn
    rw [hnone] at hn
    cases hn

/-- A call that fits is welcome, settles its place and leaves all other places alone; it
uses up one move of the note at its place. -/
theorem settles_of_fits {c : Call} {p : Location} {moves : Nat} (h : d.store.Shows ns)
    (hfair : Desk.IsFair c d) (hfits : Fits discovered ns c) (hp : c.place? = some p)
    (hmoves : moves ≤ 86400)
    (hroom : ∀ n, Note.at? ns p = some n → n.updatedAt.HasRoom (moves + 1)) :
    Welcome c (Desk.answer c d).1 ∧
      ∃ ns', (Desk.answer c d).2.store.Shows ns' ∧ Settles discovered p moves ns ns' := by
  cases c with
  | create draft =>
    cases hp
    exact settles_create h hfair hfits hmoves hroom
  | update filepath line draft =>
    cases hp
    exact settles_update h hfair hfits hmoves hroom
  | delete filepath line =>
    cases hp
    exact settles_delete moves h hfits
  | list scope => exact hfits.elim
  | deleteFile filepath => exact hfits.elim

end Calls

/-! ## How far a pass has come -/

/-- How far a pass has come: it has yet to list, or it has some calls of its plan still
to make. -/
inductive Stage where
  | listing
  | writing (calls : List Call)

/-- How many calls about a place a pass may still make. -/
def Stage.due (p : Location) : Stage → Nat
  | .listing => 1
  | .writing calls => calls.countP fun c => c.place? == some p

/-- Whether what is left of a pass is at a stage.  The calls still to come fit the notes,
and the places in scope that they are not about are settled. -/
inductive IsAt (discovered : List Comment) (scope : Option String) (ns : List Note) :
    Attempt Report → Stage → Prop
  | listing : IsAt discovered scope ns (pass discovered scope) .listing
  | writing {s : Attempt Report} {calls : List Call} (pursues : s.Pursues calls)
      (apart : calls.Pairwise fun b c => b.place? ≠ c.place?)
      (fits : ∀ c ∈ calls, Fits discovered ns c)
      (settled : ∀ p, p.isIn scope → (∀ c ∈ calls, c.place? ≠ some p) →
        SettledAt discovered ns p) :
      IsAt discovered scope ns s (.writing calls)

/-- Calls about places of their own make one call about a place at most. -/
theorem countP_place?_le_one {calls : List Call}
    (h : calls.Pairwise fun b c => b.place? ≠ c.place?) (p : Location) :
    calls.countP (fun c => c.place? == some p) ≤ 1 := by
  induction calls with
  | nil => exact Nat.zero_le 1
  | cons c calls ih =>
    obtain ⟨hapart, hrest⟩ := List.pairwise_cons.1 h
    rw [List.countP_cons]
    by_cases hp : c.place? = some p
    · have hnone : calls.countP (fun c => c.place? == some p) = 0 :=
        List.countP_eq_zero.2 fun b hb hbp => hapart b hb (hp.trans (beq_iff_eq.1 hbp).symm)
      rw [hnone]
      split <;> omega
    · rw [if_neg fun heq => hp (beq_iff_eq.1 heq)]
      exact ih hrest

namespace IsAt

variable {s : Attempt Report} {stage : Stage}

theorem due_le_one (h : IsAt discovered scope ns s stage) (p : Location) : stage.due p ≤ 1 := by
  cases h with
  | listing => exact Nat.le_refl 1
  | writing _ apart => exact countP_place?_le_one apart p

/-- What changes for the better does not set a pass back. -/
theorem of_improves (h : IsAt discovered scope ns s stage)
    (himproves : Improves discovered ns ns') :
    IsAt discovered scope ns' s stage := by
  cases h with
  | listing => exact .listing
  | writing pursues apart fits settled =>
    exact .writing pursues apart (fun c hc => (fits c hc).of_improves himproves)
      fun p hscope hnone => himproves.settledAt (settled p hscope hnone)

/-- A finished pass was successful, and its scope is settled. -/
theorem of_done {result : Except StoreError Report}
    (h : IsAt discovered scope ns (.done result) stage) :
    (∃ report, result = .ok report) ∧ ∀ p, p.isIn scope → SettledAt discovered ns p := by
  generalize hs : Script.done result = s at h
  cases h with
  | listing => cases hs
  | writing pursues _ _ settled =>
    cases pursues with
    | call => cases hs
    | done report =>
      cases hs
      exact ⟨⟨report, rfl⟩, fun p hscope => settled p hscope fun c hc => nomatch hc⟩

/-- A listing takes a pass to its plan. -/
theorem step_listing (discovered : List Comment) (scope : Option String) {d : Desk}
    (h : d.store.Shows ns) :
    ∃ notes : List Note, Desk.answer (.list scope) d = (.ok notes, d.after d.store) ∧
      IsAt discovered scope ns
        (write (wantedEntries discovered scope) (known notes) .empty)
        (.writing (plan (wantedEntries discovered scope) (known notes))) := by
  obtain ⟨notes, hlist, hperm⟩ := Desk.answer_list h scope
  have hknows := knows_known h.toHolds hperm
  refine ⟨notes, hlist, .writing ?_ (apart_plan hknows) (fun c => fits_of_mem_plan hknows) ?_⟩
  · exact write_pursues (wanted discovered scope).nodup_keys (known notes) .empty
  · exact fun p => settledAt_of_plan hknows fun q n hat => (h.at?_eq_some_iff.1 hat).2

/-- One call of a pass takes it further and changes the notes for the better, whatever
the other client has done before; the notes keep room for the calls that are left. -/
theorem step {c : Call} {next : c.Reply → Attempt Report} {d : Desk} {others : Location → Nat}
    (hat : IsAt discovered scope ns (.call c next) stage) (h : d.store.Shows ns)
    (hfair : Desk.IsFair c d) (hothers : ∀ p, others p ≤ 1)
    (hroom : ∀ p n, Note.at? ns p = some n → n.updatedAt.HasRoom (stage.due p + others p)) :
    ∃ ns' stage', (Desk.answer c d).2.store.Shows ns' ∧
      IsAt discovered scope ns' (next (Desk.answer c d).1) stage' ∧ Improves discovered ns ns' ∧
      ∀ p n, Note.at? ns' p = some n → n.updatedAt.HasRoom (stage'.due p + others p) := by
  generalize hs : Script.call c next = s at hat
  cases hat with
  | listing =>
    rw [pass] at hs
    cases hs
    obtain ⟨notes, hlist, hwriting⟩ := step_listing discovered scope h
    rw [hlist]
    refine ⟨ns, _, h, hwriting, fun q => .inl rfl, fun p n hn => (hroom p n hn).mono ?_⟩
    exact Nat.add_le_add_right (hwriting.due_le_one p) _
  | @writing _ calls pursues apart fits settled =>
    cases pursues with
    | done report => cases hs
    | @call c' next' rest granted taken =>
      cases hs
      have hc := fits c List.mem_cons_self
      obtain ⟨p, hp⟩ := hc.place
      have hrest := (List.pairwise_cons.1 apart).2
      have hdue : (Stage.writing (c :: rest)).due p = (Stage.writing rest).due p + 1 :=
        List.countP_cons_of_pos (beq_iff_eq.2 hp)
      have hfew : (Stage.writing rest).due p + others p ≤ 86400 := by
        have := countP_place?_le_one hrest p
        have := hothers p
        simp only [Stage.due]
        omega
      obtain ⟨hwelcome, ns', hshows, hsettles⟩ := settles_of_fits h hfair hc hp hfew fun n hn =>
        (hroom p n hn).mono (by rw [hdue]; omega)
      refine ⟨ns', .writing rest, hshows, .writing ?_ hrest ?_ ?_, hsettles.improves, ?_⟩
      · rcases hwelcome with ⟨a, ha⟩ | ⟨⟨draft, rfl⟩, f, l, he⟩
        · exact ha ▸ granted a
        · exact he ▸ taken draft rfl f l
      · exact fun b hb => (fits b (List.mem_cons_of_mem _ hb)).of_improves hsettles.improves
      · intro q hscope hnone
        by_cases hq : q = p
        · exact hq ▸ hsettles.settled
        · refine hsettles.improves.settledAt (settled q hscope fun b hb hbq => ?_)
          rcases List.mem_cons.1 hb with rfl | hb
          · exact hq (Option.some.inj (hbq.symm.trans hp))
          · exact hnone b hb hbq
      · intro q n hn
        by_cases hq : q = p
        · subst hq
          exact hsettles.room n hn
        · rw [hsettles.elsewhere q hq] at hn
          refine (hroom q n hn).mono (Nat.add_le_add_right ?_ _)
          exact List.Sublist.countP_le (List.sublist_cons_self c rest)

end IsAt

/-! ## Two passes -/

/-- Two passes on their way at one desk. -/
def Meeting (discovered : List Comment) (scope scope' : Option String)
    (x : Clients (Except StoreError Report) (Except StoreError Report) Desk) : Prop :=
  ∃ ns stage stage', x.state.store.Shows ns ∧ IsAt discovered scope ns x.first stage ∧
    IsAt discovered scope' ns x.second stage' ∧
    ∀ p n, Note.at? ns p = some n → n.updatedAt.HasRoom (stage.due p + stage'.due p)

/-- Two passes over the same comments that are about to begin. -/
def bothPasses (discovered : List Comment) (scope scope' : Option String) (d : Desk) :
    Clients (Except StoreError Report) (Except StoreError Report) Desk :=
  ⟨pass discovered scope, pass discovered scope', d⟩

variable {scope' : Option String} {d : Desk}

theorem meeting_bothPasses (discovered : List Comment) (scope scope' : Option String)
    (hreach : d.store.Reachable) (htimes : d.store.TimesWithin 0 9998) :
    Meeting discovered scope scope' (bothPasses discovered scope scope' d) := by
  obtain ⟨ns, h⟩ := hreach.holds
  have hyears := h.timesWithin htimes
  refine ⟨ns, .listing, .listing, ⟨h, fun n hn => ?_⟩, .listing, .listing, fun p n hn => ?_⟩
  · exact ⟨(hyears n hn).1.mono (Int.le_refl 0) (by omega),
      (hyears n hn).2.mono (Int.le_refl 0) (by omega)⟩
  · exact (hyears n (h.at?_eq_some_iff.1 hn).1).2.hasRoom (by simp only [Stage.due]; omega)

/-- A fair call of either pass leaves two passes on their way. -/
theorem Meeting.after {turns : Nat → Bool}
    {x : Clients (Except StoreError Report) (Except StoreError Report) Desk}
    (h : Meeting discovered scope scope' x)
    (hfair : x.Always Desk.answer turns Desk.IsFair) (n : Nat) :
    Meeting discovered scope scope' (x.after Desk.answer turns n) := by
  refine Clients.after_induction ?_ ?_ h hfair n
  · rintro c next t state hc ⟨ns, stage, stage', hshows, hfirst, hsecond, hroom⟩
    obtain ⟨ns', stage₁, hshows', hfirst', himproves, hroom'⟩ :=
      hfirst.step hshows hc hsecond.due_le_one hroom
    exact ⟨ns', stage₁, stage', hshows', hfirst', hsecond.of_improves himproves, hroom'⟩
  · rintro s c next state hc ⟨ns, stage, stage', hshows, hfirst, hsecond, hroom⟩
    obtain ⟨ns', stage₂, hshows', hsecond', himproves, hroom'⟩ :=
      hsecond.step hshows hc hfirst.due_le_one fun p n hn => by
        rw [Nat.add_comm]
        exact hroom p n hn
    refine ⟨ns', stage, stage₂, hshows', hfirst.of_improves himproves, hsecond', fun p n hn => ?_⟩
    rw [Nat.add_comm]
    exact hroom' p n hn

/-- Whether notes are as the comments say in two scopes. -/
structure Agree (discovered : List Comment) (scope scope' : Option String) (after : List Note) :
    Prop where
  /-- there is one note at a place at most -/
  apart : (after.map Note.place).Nodup
  /-- in either scope there is a note where, and only where, there is a comment -/
  places : ∀ p : Location, p.isIn scope ∨ p.isIn scope' →
    ((∃ n ∈ after, n.place = p) ↔ ∃ c ∈ discovered, c.place = p)
  /-- a note in either scope says what the first comment at its place says -/
  reads : ∀ n ∈ after, n.place.isIn scope ∨ n.place.isIn scope' →
    ∃ c, firstAt discovered n.place = some c ∧ n.text = c.text ∧ n.kind = c.kind

/-- Two passes over the same comments at one store, each with its own scope, take turns
in any way.  Both come to a good end, and then the stored notes are as the comments say
in both scopes. -/
theorem passes_agree {turns : Nat → Bool} (hreach : d.store.Reachable)
    (htimes : d.store.TimesWithin 0 9998)
    (hfair : (bothPasses discovered scope scope' d).Always Desk.answer turns Desk.IsFair) :
    ∃ calls report report' d' after,
      (bothPasses discovered scope scope' d).after Desk.answer turns calls =
        ⟨.done (.ok report), .done (.ok report'), d'⟩ ∧
      d'.store.all = .ok after ∧ Agree discovered scope scope' after := by
  obtain ⟨calls, hfinished⟩ := Clients.exists_isFinished Desk.answer turns
    (bothPasses discovered scope scope' d)
  have hmeeting := (meeting_bothPasses discovered scope scope' hreach htimes).after hfair calls
  generalize hx : (bothPasses discovered scope scope' d).after Desk.answer turns calls = x
    at hfinished hmeeting
  obtain ⟨s, t, d'⟩ := x
  obtain ⟨⟨result, rfl⟩, result', rfl⟩ := hfinished
  obtain ⟨ns, _, _, hshows, hfirst, hsecond, -⟩ := hmeeting
  obtain ⟨⟨report, rfl⟩, hsettled⟩ := hfirst.of_done
  obtain ⟨⟨report', rfl⟩, hsettled'⟩ := hsecond.of_done
  obtain ⟨after, hall, hperm⟩ := exists_all hshows
  have hboth : ∀ p : Location, p.isIn scope ∨ p.isIn scope' → SettledAt discovered ns p :=
    fun p hp => hp.elim (hsettled p) (hsettled' p)
  refine ⟨calls, report, report', d', after, hx, hall, ?_, fun p hp => ?_, fun n hn hp => ?_⟩
  · exact (hperm.map Note.place).nodup_iff.2 hshows.places
  · simp only [hperm.mem_iff]
    exact (hboth p hp).exists_iff hshows.toHolds
  · exact (hboth _ hp).exists_comment hshows.toHolds (hperm.mem_iff.1 hn)

/-! ## Two small passes

Two passes over the small desk list before either writes, so both change the note. -/

/-- Turns that alternate. -/
def alternately (n : Nat) : Bool := n % 2 == 0

/-- What is left of the small pass after its listing. -/
abbrev smallWrite : Attempt Report :=
  .call (.update newComment.filepath newComment.line (.ofComment newComment)) fun
    | .ok _ => .done (.ok ⟨0, 1, 0, []⟩)
    | .error e => .done (.error e)

theorem advance_smallPass (draws : Nat → Draw) :
    (pass [newComment] none).advance Desk.answer ⟨smallDesk.store, draws⟩ =
      (smallWrite, ⟨smallDesk.store, fun n => draws (n + 1)⟩) := by
  have hall : smallDesk.store.all = .ok [oldNote] := congrArg Prod.fst smallDesk_list
  have hlist : Desk.answer (.list none) ⟨smallDesk.store, draws⟩ =
      (.ok [oldNote], ⟨smallDesk.store, fun n => draws (n + 1)⟩) :=
    Prod.ext hall rfl
  rw [pass, Script.advance, hlist]
  exact congrArg (·, _) write_newComment

theorem draws_answer_update (filepath : String) (line : UInt32) (draft : Draft) (d : Desk) :
    (Desk.answer (.update filepath line draft) d).2.draws = fun n => d.draws (n + 1) := by
  rw [Desk.answer]
  cases d.store.update filepath line draft (d.draws 0).now <;> rfl

theorem advance_smallWrite (d : Desk) :
    ∃ result d', smallWrite.advance Desk.answer d = (.done result, d') ∧
      d'.draws = fun n => d.draws (n + 1) := by
  have hdraws := draws_answer_update newComment.filepath newComment.line (.ofComment newComment) d
  rw [Script.advance]
  rcases hreply : Desk.answer
    (.update newComment.filepath newComment.line (.ofComment newComment)) d with ⟨_ | _, d'⟩
  · exact ⟨_, d', rfl, by rw [← hdraws, hreply]⟩
  · exact ⟨_, d', rfl, by rw [← hdraws, hreply]⟩

theorem bothPasses_smallDesk_fair :
    (bothPasses [newComment] none none smallDesk).Always Desk.answer alternately Desk.IsFair := by
  have hone : (bothPasses [newComment] none none smallDesk).after Desk.answer alternately 1 =
      ⟨smallWrite, pass [newComment] none,
        ⟨smallDesk.store, fun n => smallDesk.draws (n + 1)⟩⟩ :=
    congrArg (fun a => Clients.mk a.1 (pass [newComment] none) a.2) (advance_smallPass _)
  have htwo : (bothPasses [newComment] none none smallDesk).after Desk.answer alternately 2 =
      ⟨smallWrite, smallWrite, ⟨smallDesk.store, fun n => smallDesk.draws (n + 2)⟩⟩ := by
    rw [Clients.after, hone]
    exact congrArg (fun a => Clients.mk smallWrite a.1 a.2) (advance_smallPass _)
  obtain ⟨result, d₃, hfirst, hdraws⟩ :=
    advance_smallWrite ⟨smallDesk.store, fun n => smallDesk.draws (n + 2)⟩
  have hthree : (bothPasses [newComment] none none smallDesk).after Desk.answer alternately 3 =
      ⟨.done result, smallWrite, d₃⟩ := by
    rw [Clients.after, htwo]
    exact congrArg (fun a => Clients.mk a.1 smallWrite a.2) hfirst
  obtain ⟨result', d₄, hsecond, -⟩ := advance_smallWrite d₃
  have hfour : (bothPasses [newComment] none none smallDesk).after Desk.answer alternately 4 =
      ⟨.done result, .done result', d₄⟩ := by
    rw [Clients.after, hthree]
    exact congrArg (fun a => Clients.mk (.done result) a.1 a.2) hsecond
  intro n c hcall
  obtain rfl | rfl | rfl | rfl | hn : n = 0 ∨ n = 1 ∨ n = 2 ∨ n = 3 ∨ 4 ≤ n := by omega
  · cases hcall
    trivial
  · rw [hone] at hcall ⊢
    cases hcall
    trivial
  · rw [htwo] at hcall ⊢
    cases hcall
    exact ⟨by decide, by decide⟩
  · rw [hthree] at hcall ⊢
    cases hcall
    show (d₃.draws 0).now.IsProper ∧ (d₃.draws 0).now.YearWithin 0 9998
    rw [hdraws]
    exact ⟨by decide, by decide⟩
  · have hfinished : ((bothPasses [newComment] none none smallDesk).after Desk.answer
        alternately 4).IsFinished := by
      rw [hfour]
      exact ⟨⟨_, rfl⟩, _, rfl⟩
    obtain ⟨m, rfl⟩ := Nat.exists_eq_add_of_le hn
    rw [Clients.after_of_isFinished hfinished, Clients.call?_of_isFinished hfinished] at hcall
    cases hcall

/-- Two small passes agree although both change the note. -/
theorem passes_agree_smallDesk :
    ∃ calls report report' d' after,
      (bothPasses [newComment] none none smallDesk).after Desk.answer alternately calls =
        ⟨.done (.ok report), .done (.ok report'), d'⟩ ∧
      d'.store.all = .ok after ∧ Agree [newComment] none none after :=
  passes_agree smallDesk_reachable smallDesk_timesWithin bothPasses_smallDesk_fair

end Reconcile

end Marginalia
