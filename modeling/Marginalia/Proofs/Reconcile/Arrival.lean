import Marginalia.Proofs.Reconcile.Comparison
import Marginalia.Proofs.Reconcile.Fairness

set_option autoImplicit false

/-!
# The order of arrival

A pass asks of the discovered comments only which one is first at each place.  So the
comments of different files may arrive in any order: the pass makes the same calls,
reports the same, and leaves the same notes up to what it draws.
-/

namespace Marginalia.Reconcile

variable {discovered again : List Comment} {scope : Option String}

/-! ## First comments decide -/

/-- Comments of which the same ones are first at each place are wanted alike. -/
theorem wanted_congr (hsame : ∀ p, firstAt again p = firstAt discovered p)
    (scope : Option String) : wanted again scope = wanted discovered scope := by
  refine Index.eq_of_mem_iff ?_
  intro e
  rw [mem_wanted, mem_wanted, hsame]

/-- A pass is told by the first comments: as a script it is the same. -/
theorem pass_congr (hsame : ∀ p, firstAt again p = firstAt discovered p)
    (scope : Option String) : pass again scope = pass discovered scope := by
  rw [pass, pass, wanted_congr hsame]

/-! ## Batches -/

/-- Batches of comments of which no two have comments of one file. -/
def FilesApart (batches : List (List Comment)) : Prop :=
  batches.Pairwise fun a b => ∀ c ∈ a, ∀ k ∈ b, c.filepath ≠ k.filepath

theorem FilesApart.perm {batches batches' : List (List Comment)} (h : FilesApart batches)
    (hperm : batches.Perm batches') : FilesApart batches' :=
  List.Pairwise.perm h hperm fun hab k hk c hc => (hab c hc k hk).symm

/-- Of two batches without a common file one has no comment at a place. -/
theorem firstAt_eq_none_or {a b : List Comment}
    (h : ∀ c ∈ a, ∀ k ∈ b, c.filepath ≠ k.filepath) (p : Location) :
    firstAt a p = none ∨ firstAt b p = none := by
  refine or_iff_not_imp_left.2 ?_
  intro hne
  obtain ⟨c, hc⟩ := Option.ne_none_iff_exists'.1 hne
  refine List.find?_eq_none.2 ?_
  intro k hk hplace
  refine h c (List.mem_of_find?_eq_some hc) k hk ?_
  exact congrArg Prod.fst ((place_of_firstAt hc).trans (beq_iff_eq.1 hplace).symm)

/-- Batches without common files may arrive in any order: the same comment is first at
each place. -/
theorem firstAt_flatten_of_perm {batches batches' : List (List Comment)}
    (hperm : batches'.Perm batches) (h : FilesApart batches') (p : Location) :
    firstAt batches'.flatten p = firstAt batches.flatten p := by
  induction hperm with
  | nil => rfl
  | cons a _ ih =>
    rw [List.flatten_cons, List.flatten_cons, firstAt_append, firstAt_append,
      ih (List.pairwise_cons.1 h).2]
  | swap a b rest =>
    have hab := (List.pairwise_cons.1 h).1 a List.mem_cons_self
    simp only [List.flatten_cons, firstAt_append]
    rcases firstAt_eq_none_or hab p with hnone | hnone <;> simp [hnone]
  | trans hfirst _ ih ih' => exact (ih h).trans (ih' (h.perm hfirst))

/-! ## Two runs -/

/-- Two passes over a reachable store, over comments of which the same ones are first at
each place, report the same and leave the same notes up to what each draws. -/
theorem alike_of_same_firsts {d : Desk} {draws : Nat → Draw} (hreach : d.store.Reachable)
    (htimes : d.store.TimesWithin 0 9998)
    (hsame : ∀ p, firstAt again p = firstAt discovered p)
    (hfair : (pass discovered scope).Always Desk.answer Desk.IsFair d)
    (hfair' : (pass again scope).Always Desk.answer Desk.IsFair ⟨d.store, draws⟩) :
    ∃ report d' d'' before after after',
      (pass discovered scope).run Desk.answer d = (.ok report, d') ∧
      (pass again scope).run Desk.answer ⟨d.store, draws⟩ = (.ok report, d'') ∧
      d.store.all = .ok before ∧ d'.store.all = .ok after ∧ d''.store.all = .ok after' ∧
      Alike before after after' := by
  obtain ⟨ns, hshows, hchange⟩ := shows_of_reachable hreach htimes
  rw [pass_congr hsame] at hfair' ⊢
  obtain ⟨existing, d', ns₁, hknows, hrun, hshows₁, houtcome⟩ :=
    exists_tally hshows (hchange discovered scope) hfair
  obtain ⟨existing', d'', ns₂, hknows', hrun', hshows₂, houtcome'⟩ :=
    exists_tally (d := ⟨d.store, draws⟩) hshows (hchange discovered scope) hfair'
  obtain rfl := hknows.unique hknows'
  obtain ⟨before, hbefore, hperm⟩ := exists_all hshows
  obtain ⟨after, hafter, hperm₁⟩ := exists_all hshows₁
  obtain ⟨after', hafter', hperm₂⟩ := exists_all hshows₂
  refine ⟨_, d', d'', before, after, after', hrun, hrun', hbefore, hafter, hafter', ?_⟩
  exact alike_of_at? hshows.toHolds hshows₁.toHolds hshows₂.toHolds hperm hperm₁ hperm₂
    (houtcome.alikeAt houtcome')

/-! ## Two small runs

The comments of two files arrive in either order, and the runs draw other identifiers and
times. -/

/-- A comment of another file. -/
def otherComment : Comment := ⟨"b.c", "TODO other", 1, .todo, false⟩

/-- What another run over the small store draws. -/
def laterDraws (n : Nat) : Draw := ⟨.ofRandom (n + 8), ⟨86400, 0⟩⟩

theorem smallDesk_fresh : smallDesk.Fresh 4 :=
  ⟨by decide, by decide, by decide⟩

theorem laterDraws_fresh : Desk.Fresh 4 ⟨smallDesk.store, laterDraws⟩ :=
  ⟨by decide, by decide, by decide⟩

/-- Whichever of the two comments arrives first, a note is updated and one is created. -/
theorem alike_of_same_firsts_twoFiles :
    ∃ report d' d'' before after after',
      (pass [newComment, otherComment] none).run Desk.answer smallDesk = (.ok report, d') ∧
      (pass [otherComment, newComment] none).run Desk.answer ⟨smallDesk.store, laterDraws⟩ =
        (.ok report, d'') ∧
      smallDesk.store.all = .ok before ∧ d'.store.all = .ok after ∧
      d''.store.all = .ok after' ∧ Alike before after after' := by
  have hapart : FilesApart [[otherComment], [newComment]] := by
    refine List.pairwise_pair.2 ?_
    intro c hc k hk
    rw [List.mem_singleton.1 hc, List.mem_singleton.1 hk]
    decide
  have hall : smallDesk.store.all = .ok [oldNote] := congrArg Prod.fst smallDesk_list
  have hlist : Desk.answer (.list none) ⟨smallDesk.store, laterDraws⟩ =
      (.ok [oldNote], Desk.after ⟨smallDesk.store, laterDraws⟩ smallDesk.store) :=
    Prod.ext hall rfl
  exact alike_of_same_firsts smallDesk_reachable smallDesk_timesWithin
    (firstAt_flatten_of_perm (List.Perm.swap [newComment] [otherComment] []) hapart)
    (always_pass_of_fresh (fun _ _ => rfl) smallDesk_list smallDesk_fresh)
    (always_pass_of_fresh (fun _ _ => rfl) hlist laterDraws_fresh)

end Marginalia.Reconcile
