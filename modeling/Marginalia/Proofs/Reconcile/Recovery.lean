import Marginalia.Proofs.Reconcile.Convergence

set_option autoImplicit false

/-!
# A pass that fails, and the pass after it

A pass stops at the first call that fails.  Since it writes in the order of keys
and removes in the order of keys after that, what it has done by then is told by
the key of the call that failed.  The next pass finds the rest of the work and
none of what is done, and ends where the first would have ended.
-/

namespace Marginalia

/-- Whether a call creates or updates a note. -/
def Call.writes : Call → Bool
  | .create _ | .update _ _ _ => true
  | _ => false

namespace Reconcile

/-! ## Done and undone -/

/-- Whether a comment in scope was discovered at a place. -/
def IsWanted (discovered : List Comment) (scope : Option String) (p : Location) : Prop :=
  p.isIn scope ∧ ∃ c ∈ discovered, c.place = p

/-- Whether a pass is done with a place before it makes a call.  Nothing is done
before the listing; wanted places are done in the order of their keys, and the
others in the order of theirs after that. -/
def DoneBefore (discovered : List Comment) (scope : Option String) (c : Call) (p : Location) :
    Prop :=
  match c with
  | .create d => IsWanted discovered scope p ∧ p.key < d.place.key
  | .update filepath line _ =>
    IsWanted discovered scope p ∧ p.key < Location.key (filepath, line)
  | .delete filepath line =>
    IsWanted discovered scope p ∨ (p.isIn scope ∧ p.key < Location.key (filepath, line))
  | .list _ | .deleteFile _ => False

/-- What a pass that failed at a call left behind: where it was done, the store is
as after a whole pass, and elsewhere it is as before. -/
structure StoppedAt (discovered : List Comment) (scope : Option String) (c : Call)
    (before failed whole : Store) : Prop where
  listing : ∀ asked, c = .list asked → failed = before
  done : ∀ filepath line, DoneBefore discovered scope c (filepath, line) →
    failed.get filepath line = whole.get filepath line
  undone : ∀ filepath line, ¬DoneBefore discovered scope c (filepath, line) →
    failed.get filepath line = before.get filepath line

/-- How a store that was healed compares with one that was never hurt: it has the
same notes but for the identifiers and times of notes that are new, and for the
time of the last change. -/
structure Heals (before whole healed : Store) : Prop where
  drafts : ∀ filepath line,
    (healed.get filepath line).map Note.toDraft = (whole.get filepath line).map Note.toDraft
  keeps : ∀ filepath line n w, before.get filepath line = .ok n →
    whole.get filepath line = .ok w →
    w.id = n.id ∧ w.createdAt = n.createdAt ∧
      ∃ m, healed.get filepath line = .ok m ∧ m.id = n.id ∧ m.createdAt = n.createdAt

section Order

variable {discovered : List Comment} {scope : Option String} {ns : List Note}
  {existing : Index Note}

theorem doneBefore_callFor? {e : String × Comment} {c : Call}
    (h : callFor? existing e = some c) (p : Location) :
    DoneBefore discovered scope c p ↔
      IsWanted discovered scope p ∧ p.key < e.2.place.key := by
  obtain ⟨-, rfl⟩ | ⟨n, -, -, rfl⟩ := callFor?_cases h
  · rfl
  · rfl

theorem isWanted_of_mem {e : String × Comment} (he : e ∈ wantedEntries discovered scope) :
    IsWanted discovered scope e.2.place := by
  obtain ⟨-, hscope, hfirst⟩ := mem_wanted.1 he
  exact ⟨hscope, exists_firstAt_iff.1 ⟨_, hfirst⟩⟩

theorem not_isWanted_of_mem_stale (hknows : Knows existing scope ns) {e : String × Note}
    (he : e ∈ stale (wantedEntries discovered scope) existing) :
    ¬IsWanted discovered scope e.2.place := by
  rintro ⟨-, hex⟩
  obtain ⟨c, hc⟩ := exists_firstAt_iff.2 hex
  rw [(mem_stale hknows he).2.2] at hc
  cases hc

/-- A call of the plan comes before its own place is done. -/
theorem not_doneBefore_self (hknows : Knows existing scope ns) {c : Call} {p : Location}
    (hc : c ∈ plan (wantedEntries discovered scope) existing) (hp : c.place? = some p) :
    ¬DoneBefore discovered scope c p := by
  rcases mem_plan.1 hc with ⟨e, he, hcall⟩ | ⟨e, he, rfl⟩
  · rw [place?_callFor? hcall, Option.some.injEq] at hp
    subst hp
    rw [doneBefore_callFor? hcall]
    exact fun h => String.lt_irrefl _ h.2
  · have hplace : e.2.place = p := Option.some.inj hp
    subst hplace
    rintro (h | h)
    · exact not_isWanted_of_mem_stale hknows he h
    · exact String.lt_irrefl _ h.2

/-- In a plan, the place of a call is done before each later call, and not the other
way around. -/
theorem plan_ordered (discovered : List Comment) (hknows : Knows existing scope ns) :
    (plan (wantedEntries discovered scope) existing).Pairwise fun b c =>
      ∀ p q, b.place? = some p → c.place? = some q →
        DoneBefore discovered scope c p ∧ ¬DoneBefore discovered scope b q := by
  refine List.pairwise_append.2 ⟨?_, ?_, ?_⟩
  · -- two writes, in the order of their keys
    refine List.Pairwise.filterMap _ ?_ (List.Pairwise.and_mem.1 (wanted discovered scope).rising)
    rintro e e' ⟨he, he', hlt⟩ b hb c hc p q hp hq
    rw [place?_callFor? hb, Option.some.injEq] at hp
    rw [place?_callFor? hc, Option.some.injEq] at hq
    subst hp hq
    rw [key_of_mem_wanted he, key_of_mem_wanted he'] at hlt
    rw [doneBefore_callFor? hb, doneBefore_callFor? hc]
    exact ⟨⟨isWanted_of_mem he, hlt⟩, fun h => String.lt_asymm hlt h.2⟩
  · -- two removals, in the order of their keys
    refine List.pairwise_map.2 ?_
    refine (List.Pairwise.and_mem.1 (existing.rising.filter _)).imp ?_
    rintro e e' ⟨he, he', hlt⟩ p q hp hq
    have hplace : e.2.place = p := Option.some.inj hp
    have hplace' : e'.2.place = q := Option.some.inj hq
    subst hplace hplace'
    obtain ⟨hkey, hscope, -⟩ := mem_stale hknows he
    rw [hkey, (mem_stale hknows he').1] at hlt
    refine ⟨.inr ⟨hscope, hlt⟩, ?_⟩
    rintro (h | h)
    · exact not_isWanted_of_mem_stale hknows he' h
    · exact String.lt_asymm hlt h.2
  · -- a write and a removal
    intro b hb c hc p q hp hq
    obtain ⟨e, he, hcall⟩ := List.mem_filterMap.1 hb
    obtain ⟨e', he', rfl⟩ := List.mem_map.1 hc
    rw [place?_callFor? hcall, Option.some.injEq] at hp
    have hplace' : e'.2.place = q := Option.some.inj hq
    subst hp hplace'
    rw [doneBefore_callFor? hcall]
    exact ⟨.inl (isWanted_of_mem he), fun h => not_isWanted_of_mem_stale hknows he' h.1⟩

/-- What comes before a call of the plan is what is about a place done before it. -/
theorem mem_before_iff (hknows : Knows existing scope ns) {before after : List Call}
    {stop c : Call} {p : Location}
    (hplan : plan (wantedEntries discovered scope) existing = before ++ stop :: after)
    (hc : c ∈ before ++ stop :: after) (hp : c.place? = some p) :
    c ∈ before ↔ DoneBefore discovered scope stop p := by
  have hordered := plan_ordered discovered hknows
  rw [hplan, List.pairwise_append, List.pairwise_cons] at hordered
  obtain ⟨-, ⟨hlater, -⟩, hcross⟩ := hordered
  have hstop : stop ∈ plan (wantedEntries discovered scope) existing := by
    rw [hplan]
    exact List.mem_append_right _ List.mem_cons_self
  obtain ⟨q, hq, -⟩ := ((mem_plan_iff hknows).1 hstop).exists_place
  constructor
  · intro hbefore
    exact (hcross c hbefore stop List.mem_cons_self p q hp hq).1
  · intro hdone
    rcases List.mem_append.1 hc with hbefore | hrest
    · exact hbefore
    · rcases List.mem_cons.1 hrest with rfl | hafter
      · exact absurd hdone (not_doneBefore_self hknows hstop hp)
      · exact absurd hdone (hlater c hafter q p hq hp).2

end Order

/-! ## Notes after a part of a pass -/

/-- Notes of which each is as before a pass or as after it. -/
def Mixed (before mixed whole : List Note) : Prop :=
  ∀ p, Note.at? mixed p = Note.at? before p ∨ Note.at? mixed p = Note.at? whole p

section Mixture

variable {discovered : List Comment} {scope : Option String} {ns mid whole healed : List Note}

/-- A note that does not agree with its comment has not been dealt with. -/
theorem Mixed.at?_eq_before (h : Mixed ns mid whole)
    (houtcome : Outcome discovered scope ns whole) {p : Location} {c : Comment} {n : Note}
    (hscope : p.isIn scope) (hfirst : firstAt discovered p = some c)
    (hat : Note.at? mid p = some n) (hagrees : agrees n c = false) : Note.at? ns p = some n := by
  rcases h p with hbefore | hwhole
  · rw [← hbefore, hat]
  · obtain ⟨m, hm, hagreed⟩ := houtcome.exists_agrees hscope hfirst
    rw [hat, hm, Option.some.injEq] at hwhole
    rw [hwhole, hagreed] at hagrees
    cases hagrees

theorem Mixed.changeable (h : Mixed ns mid whole) (houtcome : Outcome discovered scope ns whole)
    (hchange : Changeable discovered scope ns) : Changeable discovered scope mid := by
  intro p c n hscope hfirst hat hagrees
  exact hchange p c n hscope hfirst (h.at?_eq_before houtcome hscope hfirst hat hagrees) hagrees

/-- A pass over mixed notes ends with the drafts that the whole pass ended with. -/
theorem Mixed.drafts_eq (h : Mixed ns mid whole) (houtcome : Outcome discovered scope ns whole)
    (hheal : Outcome discovered scope mid healed) (p : Location) :
    (Note.at? healed p).map Note.toDraft = (Note.at? whole p).map Note.toDraft := by
  cases hscope : p.isIn scope with
  | false =>
    rw [hheal.outside p hscope]
    rcases h p with hmid | hmid
    · rw [hmid, houtcome.outside p hscope]
    · rw [hmid]
  | true =>
    cases hfirst : firstAt discovered p with
    | none => rw [hheal.pruned p hscope hfirst, houtcome.pruned p hscope hfirst]
    | some c =>
      rcases h p with hmid | hmid
      · -- both passes find the same note and treat it alike
        cases hat : Note.at? ns p with
        | none =>
          obtain ⟨w, hw⟩ := houtcome.created p c hscope hfirst hat
          obtain ⟨w', hw'⟩ := hheal.created p c hscope hfirst (hmid.trans hat)
          rw [hw, hw']
          rfl
        | some n =>
          cases hagrees : agrees n c with
          | true =>
            rw [houtcome.kept p c n hscope hfirst hat hagrees,
              hheal.kept p c n hscope hfirst (hmid.trans hat) hagrees]
          | false =>
            obtain ⟨t, ht⟩ := houtcome.updated p c n hscope hfirst hat hagrees
            obtain ⟨t', ht'⟩ := hheal.updated p c n hscope hfirst (hmid.trans hat) hagrees
            rw [ht, ht']
            rfl
      · -- the whole pass left a note that agrees, and the second pass keeps it
        obtain ⟨m, hm, hagrees⟩ := houtcome.exists_agrees hscope hfirst
        rw [hheal.kept p c m hscope hfirst (hmid.trans hm) hagrees, hm]

/-- A note that survives the whole pass survives a failed pass and the next one. -/
theorem Mixed.keeps (h : Mixed ns mid whole) (houtcome : Outcome discovered scope ns whole)
    (hheal : Outcome discovered scope mid healed) {p : Location} {n w : Note}
    (hat : Note.at? ns p = some n) (hw : Note.at? whole p = some w) :
    ∃ m, Note.at? healed p = some m ∧ m.id = n.id ∧ m.createdAt = n.createdAt := by
  have hdrafts := h.drafts_eq houtcome hheal p
  rw [hw, Option.map_some, Option.map_eq_some_iff] at hdrafts
  obtain ⟨m, hm, -⟩ := hdrafts
  obtain ⟨hid, hcreated⟩ := houtcome.keeps hat hw
  refine ⟨m, hm, ?_⟩
  rcases h p with hmid | hmid
  · exact hheal.keeps (hmid.trans hat) hm
  · obtain ⟨hid', hcreated'⟩ := hheal.keeps (hmid.trans hw) hm
    exact ⟨hid'.trans hid, hcreated'.trans hcreated⟩

/-- What mixed notes lead to heals the store that a pass failed on. -/
theorem Mixed.heals {s s' t : Store} (h : Mixed ns mid whole)
    (houtcome : Outcome discovered scope ns whole) (hheal : Outcome discovered scope mid healed)
    (hs : s.Shows ns) (hs' : s'.Shows whole) (ht : t.Shows healed) : Heals s s' t := by
  refine ⟨fun filepath line => ?_, fun filepath line n w hn hw => ?_⟩
  · have hdrafts := h.drafts_eq houtcome hheal (filepath, line)
    rw [ht.get_eq, hs'.get_eq]
    revert hdrafts
    cases Note.at? healed (filepath, line) <;> cases Note.at? whole (filepath, line) <;>
      intro hdrafts
    · rfl
    · cases hdrafts
    · cases hdrafts
    · exact congrArg Except.ok (Option.some.inj hdrafts)
  · have hat := (hs.get_eq_ok_iff.1 hn).1
    have hat' := (hs'.get_eq_ok_iff.1 hw).1
    obtain ⟨m, hm, hkeeps⟩ := h.keeps houtcome hheal hat hat'
    obtain ⟨hid, hcreated⟩ := houtcome.keeps hat hat'
    exact ⟨hid, hcreated, m,
      ht.get_eq_ok_iff.2 ⟨hm, ht.readable m (ht.at?_eq_some_iff.1 hm).1⟩, hkeeps⟩

end Mixture

/-! ## The pass that fails -/

section Failure

variable {discovered : List Comment} {scope : Option String} {ns mid whole : List Note}
  {existing : Index Note} {before after : List Call} {stop : Call}

/-- Where a call was served the notes are as after the whole pass, and elsewhere
they are as before it. -/
theorem mixed_of_leads (hdue : Call.AllDue ns (before ++ after))
    (hbefore : Call.Leads before ns mid) (hafter : Call.Leads after mid whole) {p : Location} :
    ((∃ c ∈ before, c.place? = some p) → Note.at? mid p = Note.at? whole p) ∧
      ((¬∃ c ∈ before, c.place? = some p) → Note.at? mid p = Note.at? ns p) := by
  constructor
  · rintro ⟨c, hc, hp⟩
    exact (hafter.elsewhere p fun b hb => hp ▸ (hdue.place_ne hc hb).symm).symm
  · intro hnone
    exact hbefore.elsewhere p fun c hc hp => hnone ⟨c, hc, hp⟩

theorem stoppedAt_of_leads {s t u : Store} (hs : s.Shows ns) (ht : t.Shows mid)
    (hu : u.Shows whole) (hknows : Knows existing scope ns)
    (hplan : plan (wantedEntries discovered scope) existing = before ++ stop :: after)
    (hdue : Call.AllDue ns (before ++ stop :: after))
    (hbefore : Call.Leads before ns mid) (hafter : Call.Leads (stop :: after) mid whole) :
    StoppedAt discovered scope stop s t u := by
  have hmem : ∀ c ∈ before ++ stop :: after, ∀ p, c.place? = some p →
      (c ∈ before ↔ DoneBefore discovered scope stop p) :=
    fun c hc p hp => mem_before_iff hknows hplan hc hp
  refine ⟨?_, ?_, ?_⟩
  · rintro asked rfl
    exact (hdue.due _ (List.mem_append_right _ List.mem_cons_self)).elim
  · intro filepath line hdone
    have hsame : Note.at? mid (filepath, line) = Note.at? whole (filepath, line) := by
      by_cases hserved : ∃ c ∈ before, c.place? = some (filepath, line)
      · exact (mixed_of_leads hdue hbefore hafter).1 hserved
      · -- the place is done without a call, so the whole pass left it alone too
        rw [(mixed_of_leads hdue hbefore hafter).2 hserved]
        refine ((hdue.leads_append hbefore hafter).elsewhere _ fun c hc hp => ?_).symm
        exact hserved ⟨c, (hmem c hc _ hp).2 hdone, hp⟩
    rw [ht.get_eq, hu.get_eq, hsame]
  · intro filepath line hundone
    have hsame : Note.at? mid (filepath, line) = Note.at? ns (filepath, line) := by
      refine (mixed_of_leads hdue hbefore hafter).2 ?_
      rintro ⟨c, hc, hp⟩
      exact hundone ((hmem c (List.mem_append_left _ hc) _ hp).1 hc)
    rw [ht.get_eq, hs.get_eq, hsame]

/-- Where a failed pass wrote, the next pass calls nothing. -/
theorem writes_apart {existing' : Index Note} (hknows : Knows existing scope ns)
    (hknows' : Knows existing' scope mid) (houtcome : Outcome discovered scope ns whole)
    (hplan : plan (wantedEntries discovered scope) existing = before ++ stop :: after)
    (hserved : ∀ p, (∃ c ∈ before, c.place? = some p) → Note.at? mid p = Note.at? whole p)
    {b c : Call} (hb : b ∈ before) (hc : c ∈ plan (wantedEntries discovered scope) existing')
    (hbwrites : b.writes = true) : b.place? ≠ c.place? := by
  intro hsame
  have hmem : b ∈ plan (wantedEntries discovered scope) existing := by
    rw [hplan]
    exact List.mem_append_left _ hb
  obtain ⟨p, comment, hp, hscope, hfirst⟩ : ∃ p comment, b.place? = some p ∧ p.isIn scope ∧
      firstAt discovered p = some comment := by
    cases (mem_plan_iff hknows).1 hmem with
    | create hscope hfirst _ => exact ⟨_, _, rfl, hscope, hfirst⟩
    | update hscope hfirst _ _ => exact ⟨_, _, rfl, hscope, hfirst⟩
    | delete => cases hbwrites
  obtain ⟨m, hm, hagrees⟩ := houtcome.exists_agrees hscope hfirst
  have hat : Note.at? mid p = some m := (hserved p ⟨b, hb, hp⟩).trans hm
  exact place?_ne_of_agrees hknows' hfirst hat hagrees hc (hsame ▸ hp)

/-- The clerk of a store at which one call fails without effect. -/
def failingAt (stop : Call) (e : StoreError) : Clerk Desk :=
  Desk.answer.refusing fun c => if c = stop then some e else none

theorem failingAt_eq {c : Call} (h : c ≠ stop) (e : StoreError) (d : Desk) :
    failingAt stop e c d = Desk.answer c d :=
  Clerk.refusing_eq (if_neg h) d

theorem failingAt_self (e : StoreError) (d : Desk) : failingAt stop e stop d = (.error e, d) := by
  simp only [failingAt, Clerk.refusing, if_true]

/-- A pass whose listing fails has done nothing. -/
theorem run_failingAt_list (discovered : List Comment) (scope : Option String) (e : StoreError)
    (d : Desk) :
    (pass discovered scope).run (failingAt (.list scope) e) d = (.error e, d) ∧
      (pass discovered scope).granted (failingAt (.list scope) e) d = [] := by
  simp only [pass, Script.run, Script.granted, failingAt_self, and_self]

/-- A pass that fails at a call of its plan has served the calls before it. -/
theorem run_failingAt {d : Desk} {notes : List Note} {e : StoreError}
    (hlist : Desk.answer (.list scope) d = (.ok notes, d.after d.store))
    (hplan : plan (wantedEntries discovered scope) (known notes) = before ++ stop :: after)
    (hdue : Call.AllDue ns (before ++ stop :: after))
    (hgrants : Clerk.Grants Desk.answer before (d.after d.store))
    (he : ¬e.IsAlreadyExists) :
    (pass discovered scope).run (failingAt stop e) d =
        (.error e, Clerk.serve Desk.answer before (d.after d.store)) ∧
      (pass discovered scope).granted (failingAt stop e) d = .list scope :: before := by
  have hother : ∀ c ∈ before, c ≠ stop := by
    rintro c hc rfl
    exact hdue.place_ne hc List.mem_cons_self rfl
  have hlisting : Call.list scope ≠ stop := by
    rintro rfl
    exact (hdue.due _ (List.mem_append_right _ List.mem_cons_self)).elim
  have hfail : failingAt stop e (.list scope) d = (.ok notes, d.after d.store) :=
    (failingAt_eq hlisting e d).trans hlist
  have hfollows := follows_plan discovered scope notes
  rw [hplan] at hfollows
  have hserve : (failingAt stop e).serve before (d.after d.store) =
      Clerk.serve Desk.answer before (d.after d.store) :=
    Clerk.serve_refusing (fun c hc => if_neg (hother c hc)) _
  have hgrants' : (failingAt stop e).Grants before (d.after d.store) :=
    Clerk.grants_refusing (fun c hc => if_neg (hother c hc)) hgrants
  obtain ⟨hrun, hgranted⟩ := hfollows.run_eq_of_error hgrants' (failingAt_self e _) he
  rw [hserve] at hrun
  exact ⟨(run_pass hfail).trans hrun, (granted_pass hfail).trans (by rw [hgranted])⟩

end Failure

/-! ## The pass after it -/

section Recovery

variable {discovered : List Comment} {scope : Option String} {ns : List Note} {d : Desk}

/-- A failed pass leaves notes of which each is as before or as after a whole pass,
and it wrote nothing that a pass over them would write. -/
theorem exists_mixed (h : d.store.Shows ns) (hchange : Changeable discovered scope ns)
    (hfair : (pass discovered scope).Always Desk.answer Desk.IsFair d) {stop : Call}
    (hstop : stop ∈ (pass discovered scope).calls Desk.answer d) {e : StoreError}
    (he : ¬e.IsAlreadyExists) :
    ∃ failed report whole mid after,
      (pass discovered scope).run (failingAt stop e) d = (.error e, failed) ∧
      (pass discovered scope).run Desk.answer d = (.ok report, whole) ∧
      failed.store.Shows mid ∧ whole.store.Shows after ∧
      Outcome discovered scope ns after ∧ Mixed ns mid after ∧
      StoppedAt discovered scope stop d.store failed.store whole.store ∧
      ∀ existing, Knows existing scope mid →
        ∀ b ∈ (pass discovered scope).granted (failingAt stop e) d,
        ∀ c ∈ plan (wantedEntries discovered scope) existing,
          b.writes = true → c.writes = true → b.place? ≠ c.place? := by
  obtain ⟨notes, hlist, hknows, hdue⟩ := exists_listing h hchange
  have hplanFair := fairFor_plan h hlist hdue hfair
  have hfollows := follows_plan discovered scope notes
  have hplaces : ∀ p n, Note.at? ns p = some n → n.place = p :=
    fun p n hat => (h.at?_eq_some_iff.1 hat).2
  have hgrants := (Desk.serve_spec (d := d.after d.store) h hdue hplanFair).1
  obtain ⟨hrun, hcalls, -⟩ := hfollows.run_eq hgrants
  rw [calls_pass hlist, hcalls] at hstop
  rcases List.mem_cons.1 hstop with rfl | hstop
  · -- the listing fails
    obtain ⟨-, after, hafter, hleads⟩ := Desk.serve_spec (d := d.after d.store) h hdue hplanFair
    obtain ⟨hfailed, hgranted⟩ := run_failingAt_list discovered scope e d
    refine ⟨d, _, _, ns, after, hfailed, (run_pass hlist).trans hrun, h, hafter,
      outcome_of_leads hplaces hknows hleads, fun _ => .inl rfl, ?_, ?_⟩
    · exact ⟨fun _ _ => rfl, fun _ _ hdone => hdone.elim, fun _ _ _ => rfl⟩
    · intro existing _ b hb
      rw [hgranted] at hb
      exact absurd hb List.not_mem_nil
  · -- a call of the plan fails
    obtain ⟨before, rest, hplan⟩ := List.append_of_mem hstop
    rw [hplan] at hdue hplanFair hrun
    obtain ⟨hbefore, mid, after, hmid, hafter, hleads, hleads'⟩ :=
      Desk.serve_append_spec (d := d.after d.store) h hdue hplanFair
    have hall := hdue.leads_append hleads hleads'
    rw [← hplan] at hall
    have houtcome := outcome_of_leads hplaces hknows hall
    obtain ⟨hfailed, hgranted⟩ := run_failingAt hlist hplan hdue hbefore he
    refine ⟨_, _, _, mid, after, hfailed, (run_pass hlist).trans hrun, hmid, hafter, houtcome,
      ?_, ?_, ?_⟩
    · intro p
      by_cases hserved : ∃ c ∈ before, c.place? = some p
      · exact .inr ((mixed_of_leads hdue hleads hleads').1 hserved)
      · exact .inl ((mixed_of_leads hdue hleads hleads').2 hserved)
    · exact stoppedAt_of_leads h hmid hafter hknows hplan hdue hleads hleads'
    · intro existing hknows' b hb c hc hbwrites _
      rw [hgranted] at hb
      rcases List.mem_cons.1 hb with rfl | hb
      · cases hbwrites
      · exact writes_apart hknows hknows' houtcome hplan
          (fun p => (mixed_of_leads hdue hleads hleads').1) hb hc hbwrites

/-- A pass over a reachable store that fails at one of its calls, other than because
a note was there already, ends with the error of that call.  It is done with the
places before the call and has not begun with the others, and the next pass ends
with the notes of a pass that did not fail, without writing anything twice. -/
theorem failed_pass_recovers (hreach : d.store.Reachable) (htimes : d.store.TimesWithin 0 9998)
    (hfair : (pass discovered scope).Always Desk.answer Desk.IsFair d) {stop : Call}
    (hstop : stop ∈ (pass discovered scope).calls Desk.answer d) {e : StoreError}
    (he : ¬e.IsAlreadyExists) :
    ∃ failed report whole,
      (pass discovered scope).run (failingAt stop e) d = (.error e, failed) ∧
      (pass discovered scope).run Desk.answer d = (.ok report, whole) ∧
      StoppedAt discovered scope stop d.store failed.store whole.store ∧
      ∀ draws, (pass discovered scope).Always Desk.answer Desk.IsFair ⟨failed.store, draws⟩ →
        ∃ again healed,
          (pass discovered scope).run Desk.answer ⟨failed.store, draws⟩ = (.ok again, healed) ∧
          Heals d.store whole.store healed.store ∧
          ∀ b ∈ (pass discovered scope).granted (failingAt stop e) d,
          ∀ c ∈ (pass discovered scope).granted Desk.answer ⟨failed.store, draws⟩,
            b.writes = true → c.writes = true → b.place? ≠ c.place? := by
  obtain ⟨ns, h, hchange⟩ := shows_of_reachable hreach htimes
  obtain ⟨failed, report, whole, mid, after, hfailed, hwhole, hmid, hafter, houtcome, hmixed,
    hstopped, hapart⟩ := exists_mixed h (hchange discovered scope) hfair hstop he
  refine ⟨failed, report, whole, hfailed, hwhole, hstopped, fun draws hagain => ?_⟩
  have hchange' := hmixed.changeable houtcome (hchange discovered scope)
  obtain ⟨again, healed, healedNotes, hrun, hhealed, hheal⟩ :=
    exists_outcome (d := ⟨failed.store, draws⟩) hmid hchange' hagain
  refine ⟨again, healed, hrun, hmixed.heals houtcome hheal h hafter hhealed, ?_⟩
  obtain ⟨notes, hlist, hknows, hdue⟩ := exists_listing (d := ⟨failed.store, draws⟩) hmid hchange'
  have hgrants := (Desk.serve_spec (d := Desk.after ⟨failed.store, draws⟩ failed.store) hmid hdue
    (fairFor_plan (d := ⟨failed.store, draws⟩) hmid hlist hdue hagain)).1
  intro b hb c hc hbwrites hcwrites
  rw [granted_pass hlist] at hc
  rcases List.mem_cons.1 hc with rfl | hc
  · cases hcwrites
  · rw [((follows_plan discovered scope notes).run_eq hgrants).2.2] at hc
    exact hapart _ hknows b hb c hc hbwrites hcwrites

/-- The small pass recovers from a failure of the one change it makes. -/
theorem failed_pass_recovers_smallDesk :
    ∃ failed report whole,
      (pass [newComment] none).run
          (failingAt (.update newComment.filepath newComment.line (.ofComment newComment))
            (.backend .foreignKey)) smallDesk =
        (.error (.backend .foreignKey), failed) ∧
      (pass [newComment] none).run Desk.answer smallDesk = (.ok report, whole) ∧
      StoppedAt [newComment] none
        (.update newComment.filepath newComment.line (.ofComment newComment))
        smallDesk.store failed.store whole.store := by
  obtain ⟨failed, report, whole, hfailed, hwhole, hstopped, -⟩ :=
    failed_pass_recovers (e := .backend .foreignKey) smallDesk_reachable smallDesk_timesWithin
      smallDesk_fair smallDesk_calls fun ⟨_, _, h⟩ => nomatch h
  exact ⟨failed, report, whole, hfailed, hwhole, hstopped⟩

end Recovery

end Reconcile

end Marginalia
