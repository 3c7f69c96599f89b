import Marginalia.Store.Call

set_option autoImplicit false

/-!
# Scripts that follow a list of calls

A script may well decide what to call next by the replies it gets.  One that
follows a list does not: it makes the calls of the list in order as long as they
are granted, and ends with the first error, other than that a note was there
already.  What such a script does is told by the list alone.
-/

namespace Marginalia

variable {α σ : Type}

/-! ## Calls of a run -/

namespace Script

/-- Whether a property holds of every call of a run and the state it is made in. -/
def Always (clerk : Clerk σ) (P : Call → σ → Prop) : Script α → σ → Prop
  | .done _, _ => True
  | .call c next, state =>
    P c state ∧ (next (clerk c state).1).Always clerk P (clerk c state).2

/-- The calls of a run. -/
def calls (clerk : Clerk σ) : Script α → σ → List Call
  | .done _, _ => []
  | .call c next, state => c :: (next (clerk c state).1).calls clerk (clerk c state).2

/-- The calls of a run that are granted. -/
def granted (clerk : Clerk σ) : Script α → σ → List Call
  | .done _, _ => []
  | .call c next, state =>
    let rest := (next (clerk c state).1).granted clerk (clerk c state).2
    match (clerk c state).1 with
    | .ok _ => c :: rest
    | .error _ => rest

variable {β : Type}

/-- One script and then another: the second starts where the first has ended. -/
theorem run_andThen (clerk : Clerk σ) (s : Script α) (f : α → Script β) (state : σ) :
    (s.andThen f).run clerk state =
      (f (s.run clerk state).1).run clerk (s.run clerk state).2 := by
  induction s generalizing state with
  | done a => rfl
  | call c next ih => exact ih (clerk c state).1 (clerk c state).2

/-- What holds of every call of one script and then another holds of the calls of each. -/
theorem always_andThen (clerk : Clerk σ) (P : Call → σ → Prop) (s : Script α)
    (f : α → Script β) (state : σ) :
    (s.andThen f).Always clerk P state ↔
      s.Always clerk P state ∧
        (f (s.run clerk state).1).Always clerk P (s.run clerk state).2 := by
  induction s generalizing state with
  | done a => exact (and_iff_right trivial).symm
  | call c next ih =>
    exact (and_congr_right fun _ => ih (clerk c state).1 (clerk c state).2).trans and_assoc.symm

end Script

namespace Clerk

/-- The state after calls. -/
def serve (clerk : Clerk σ) (calls : List Call) (state : σ) : σ :=
  calls.foldl (fun state c => (clerk c state).2) state

/-- Whether all of some calls are granted one after the other. -/
def Grants (clerk : Clerk σ) : List Call → σ → Prop
  | [], _ => True
  | c :: calls, state => (∃ a, (clerk c state).1 = .ok a) ∧ clerk.Grants calls (clerk c state).2

variable {clerk : Clerk σ}

theorem serve_append (before after : List Call) (state : σ) :
    clerk.serve (before ++ after) state = clerk.serve after (clerk.serve before state) :=
  List.foldl_append

/-- Calls that are not refused are answered as before. -/
theorem refusing_eq {refusal : Call → Option StoreError} {c : Call} (h : refusal c = none)
    (state : σ) : clerk.refusing refusal c state = clerk c state := by
  rw [refusing, h]

theorem serve_refusing {refusal : Call → Option StoreError} {calls : List Call}
    (h : ∀ c ∈ calls, refusal c = none) (state : σ) :
    (clerk.refusing refusal).serve calls state = clerk.serve calls state := by
  induction calls generalizing state with
  | nil => rfl
  | cons c calls ih =>
    have hrest := ih (fun b hb => h b (List.mem_cons_of_mem _ hb)) (clerk c state).2
    simpa only [serve, List.foldl_cons, refusing_eq (h c List.mem_cons_self)] using hrest

theorem grants_refusing {refusal : Call → Option StoreError} {calls : List Call}
    (h : ∀ c ∈ calls, refusal c = none) {state : σ} (hgrants : clerk.Grants calls state) :
    (clerk.refusing refusal).Grants calls state := by
  induction calls generalizing state with
  | nil => trivial
  | cons c calls ih =>
    simp only [Grants, refusing_eq (h c List.mem_cons_self)] at hgrants ⊢
    exact ⟨hgrants.1, ih (fun b hb => h b (List.mem_cons_of_mem _ hb)) hgrants.2⟩

end Clerk

/-! ## Following a list -/

/-- Whether an error is that a note was there already. -/
def StoreError.IsAlreadyExists (e : StoreError) : Prop := ∃ f l, e = .alreadyExists f l

/-- A script that follows a list of calls and, when all are granted, ends with a
result. -/
inductive Script.Follows : Script (Except StoreError α) → List Call → α → Prop
  | done (result : α) : Follows (.done (.ok result)) [] result
  | call {c : Call} {next : c.Reply → Script (Except StoreError α)} {calls : List Call}
      {result : α} (granted : ∀ a, Follows (next (.ok a)) calls result)
      (failed : ∀ e : StoreError, ¬e.IsAlreadyExists → next (.error e) = .done (.error e)) :
      Follows (.call c next) (c :: calls) result

namespace Script.Follows

variable {clerk : Clerk σ} {s : Script (Except StoreError α)} {result : α}

/-- Granted all its calls, a script that follows a list serves the list. -/
theorem run_eq {calls : List Call} (h : s.Follows calls result) {state : σ}
    (hgrants : clerk.Grants calls state) :
    s.run clerk state = (.ok result, clerk.serve calls state) ∧
      s.calls clerk state = calls ∧ s.granted clerk state = calls := by
  induction h generalizing state with
  | done result => exact ⟨rfl, rfl, rfl⟩
  | call _ _ ih =>
    obtain ⟨⟨a, ha⟩, hrest⟩ := hgrants
    obtain ⟨hrun, hcalls, hgranted⟩ := ih a hrest
    refine ⟨?_, ?_, ?_⟩
    · simp only [Script.run, ha, hrun]
      rfl
    · simp only [Script.calls, ha, hcalls]
    · simp only [Script.granted, ha, hgranted]

/-- A script that follows a list ends at the first call that fails, and what it was
granted before stays done. -/
theorem run_eq_of_error {before after : List Call} {c : Call} {e : StoreError}
    (h : s.Follows (before ++ c :: after) result) {state : σ}
    (hgrants : clerk.Grants before state)
    (herror : clerk c (clerk.serve before state) = (.error e, clerk.serve before state))
    (he : ¬e.IsAlreadyExists) :
    s.run clerk state = (.error e, clerk.serve before state) ∧
      s.granted clerk state = before := by
  induction before generalizing s state with
  | nil =>
    cases h with
    | call hgranted hfailed =>
      have hreply : clerk c state = (.error e, state) := herror
      refine ⟨?_, ?_⟩
      · simp only [Script.run, hreply, hfailed e he]
        rfl
      · simp only [Script.granted, hreply, hfailed e he]
  | cons b before ih =>
    cases h with
    | call hgranted hfailed =>
      obtain ⟨⟨a, ha⟩, hrest⟩ := hgrants
      obtain ⟨hrun, hcalls⟩ := ih (hgranted a) hrest herror
      refine ⟨?_, ?_⟩
      · simp only [Script.run, ha, hrun]
        rfl
      · simp only [Script.granted, ha, hcalls]

end Script.Follows

end Marginalia
