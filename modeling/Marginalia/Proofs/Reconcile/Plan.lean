import Marginalia.Proofs.Collection.Lookup
import Marginalia.Proofs.Store.Serve
import Marginalia.Reconcile.Pass

set_option autoImplicit false

/-!
# The plan of a pass

What a pass will call is settled by its listing: it creates and updates what the
wanted comments need, in the order of their keys, and then removes the notes that
no comment asked for.  The pass follows this plan and ends with its tally.
-/

namespace Marginalia

/-- The report of two stretches of work. -/
def Report.plus (a b : Report) : Report :=
  ⟨a.created + b.created, a.updated + b.updated, a.unchanged + b.unchanged, a.pruned ++ b.pruned⟩

theorem Report.empty_plus (report : Report) : Report.empty.plus report = report := by
  simp only [plus, empty, Nat.zero_add, List.nil_append]

namespace Reconcile

/-! ## Entries under the keys of their places -/

section Entries

variable {α : Type} {place : α → Location} {entries : List (String × α)}

theorem map_key_place (h : ∀ e ∈ entries, e.1 = (place e.2).key) :
    (entries.map fun e => place e.2).map Location.key = entries.map (·.1) := by
  rw [List.map_map]
  exact List.map_congr_left fun e he => (h e he).symm

theorem nodup_places (h : ∀ e ∈ entries, e.1 = (place e.2).key)
    (hnodup : (entries.map (·.1)).Nodup) : (entries.map fun e => place e.2).Nodup := by
  refine List.Nodup.of_map Location.key ?_
  rwa [map_key_place h]

theorem mem_places_iff_key_mem (h : ∀ e ∈ entries, e.1 = (place e.2).key) {p : Location} :
    p ∈ entries.map (fun e => place e.2) ↔ p.key ∈ entries.map (·.1) := by
  rw [← map_key_place h, List.mem_map_of_injective fun _ _ => Location.key_injective]

end Entries

/-! ## What is wanted and what is known -/

/-- The comment that counts at a place: the first one discovered there. -/
def firstAt (discovered : List Comment) (p : Location) : Option Comment :=
  discovered.find? fun c => c.place == p

theorem place_of_firstAt {discovered : List Comment} {p : Location} {c : Comment}
    (h : firstAt discovered p = some c) : c.place = p :=
  beq_iff_eq.1 (List.find?_some (p := fun c : Comment => c.place == p) h)

theorem find?_key (discovered : List Comment) (p : Location) :
    ((discovered.map fun c => (c.key, c)).find? (·.1 == p.key)).map (·.2) =
      firstAt discovered p := by
  rw [List.find?_map, Option.map_map]
  have htest : ((fun e : String × Comment => e.1 == p.key) ∘ fun c => (c.key, c)) =
      fun c => c.place == p := by
    funext c
    rw [Bool.eq_iff_iff]
    simp only [Function.comp_apply, beq_iff_eq, Comment.key_eq, Location.key_inj]
  rw [htest]
  simp [firstAt, Function.comp_def]

theorem firstAt_append (front back : List Comment) (p : Location) :
    firstAt (front ++ back) p = (firstAt front p).or (firstAt back p) :=
  List.find?_append

/-- Where comments are kept by their places, those at the places that are kept are first
as before. -/
theorem firstAt_filter_place (discovered : List Comment) (keep : Location → Bool)
    (p : Location) :
    firstAt (discovered.filter fun c => keep c.place) p =
      if keep p then firstAt discovered p else none := by
  rw [firstAt, List.find?_filter]
  split
  · rename_i hp
    refine List.find?_congr fun c _ => ?_
    rw [Bool.eq_iff_iff, decide_eq_true_iff, beq_iff_eq]
    exact ⟨fun h => h.2, fun h => ⟨h ▸ hp, h⟩⟩
  · rename_i hp
    refine List.find?_eq_none.2 fun c _ => ?_
    rw [decide_eq_true_iff, beq_iff_eq]
    rintro ⟨hc, rfl⟩
    exact hp hc

/-- The comments in scope that are first at a place. -/
theorem firstAt_filter (discovered : List Comment) (scope : Option String) (p : Location) :
    firstAt (discovered.filter (inScope scope)) p =
      if p.isIn scope then firstAt discovered p else none :=
  firstAt_filter_place discovered (·.isIn scope) p

theorem get?_wanted (discovered : List Comment) (scope : Option String) (p : Location) :
    (wanted discovered scope).get? p.key =
      if p.isIn scope then firstAt discovered p else none := by
  rw [wanted, Index.get?_ofListFirst, find?_key, firstAt_filter]

/-- An entry of the wanted comments is under the key of its place. -/
theorem key_of_mem_wanted {discovered : List Comment} {scope : Option String}
    {e : String × Comment} (h : e ∈ (wanted discovered scope).entries) :
    e.1 = e.2.place.key := by
  have hget := (Index.mem_entries_iff _ _ _).1 h
  rw [wanted, Index.get?_ofListFirst, Option.map_eq_some_iff] at hget
  obtain ⟨e', hfind, he'⟩ := hget
  obtain ⟨c, -, rfl⟩ := List.mem_map.1 (List.mem_of_find?_eq_some hfind)
  have hkey : c.key = e.1 := by simpa using List.find?_some hfind
  rw [← hkey, ← he']
  rfl

theorem mem_wanted {discovered : List Comment} {scope : Option String} {e : String × Comment} :
    e ∈ (wanted discovered scope).entries ↔
      e.1 = e.2.place.key ∧ e.2.place.isIn scope ∧
        firstAt discovered e.2.place = some e.2 := by
  obtain ⟨k, c⟩ := e
  constructor
  · intro h
    have hkey := key_of_mem_wanted h
    simp only at hkey
    subst hkey
    rw [Index.mem_entries_iff, get?_wanted] at h
    split at h
    · exact ⟨rfl, by assumption, h⟩
    · cases h
  · rintro ⟨hkey, hscope, hfirst⟩
    simp only at hkey
    subst hkey
    rw [Index.mem_entries_iff, get?_wanted, if_pos hscope]
    exact hfirst

theorem get?_known {notes : List Note} (h : (notes.map Note.place).Nodup) {k : String}
    {n : Note} : (known notes).get? k = some n ↔ n ∈ notes ∧ n.key = k := by
  have hkeys : ((notes.map fun n => (n.key, n)).map (·.1)).Nodup := by
    have := h.map fun _ _ heq => Location.key_injective heq
    rw [List.map_map] at this
    rwa [List.map_map]
  rw [known, Index.get?_ofList hkeys, List.mem_map]
  constructor
  · rintro ⟨m, hm, heq⟩
    cases heq
    exact ⟨hm, rfl⟩
  · rintro ⟨hn, rfl⟩
    exact ⟨n, hn, rfl⟩

/-! ## The plan -/

/-- The call that a wanted comment needs, if any. -/
def callFor? (existing : Index Note) (e : String × Comment) : Option Call :=
  match existing.get? e.1 with
  | none => some (.create (.ofComment e.2))
  | some n =>
    if agrees n e.2 then none else some (.update e.2.filepath e.2.line (.ofComment e.2))

/-- A call for a comment adds a note, or it changes the one known under the key of the
comment. -/
theorem callFor?_cases {existing : Index Note} {e : String × Comment} {c : Call}
    (h : callFor? existing e = some c) :
    existing.get? e.1 = none ∧ c = .create (.ofComment e.2) ∨
      ∃ n, existing.get? e.1 = some n ∧ agrees n e.2 = false ∧
        c = .update e.2.filepath e.2.line (.ofComment e.2) := by
  unfold callFor? at h
  split at h
  · rename_i hget
    cases h
    exact .inl ⟨hget, rfl⟩
  · rename_i n hget
    split at h
    · cases h
    · rename_i hagrees
      cases h
      exact .inr ⟨n, hget, Bool.eq_false_iff.2 hagrees, rfl⟩

/-- The notes that no wanted comment asked for. -/
def stale (entries : List (String × Comment)) (existing : Index Note) : List (String × Note) :=
  existing.entries.filter fun e => e.1 ∉ entries.map (·.1)

/-- The call that removes a note. -/
def removal (e : String × Note) : Call := .delete e.2.filepath e.2.line

/-- The calls of a pass after its listing. -/
def plan (entries : List (String × Comment)) (existing : Index Note) : List Call :=
  entries.filterMap (callFor? existing) ++ (stale entries existing).map removal

/-- What a pass reports when all its calls are granted. -/
def tally (entries : List (String × Comment)) (existing : Index Note) : Report :=
  { created := entries.countP fun e => (existing.get? e.1).isNone
    updated := entries.countP fun e => (existing.get? e.1).any (!agrees · e.2)
    unchanged := entries.countP fun e => (existing.get? e.1).any (agrees · e.2)
    pruned := (stale entries existing).map (·.1) }

/-- A pass counts each wanted comment once. -/
theorem counts_tally (entries : List (String × Comment)) (existing : Index Note) :
    (tally entries existing).created + (tally entries existing).updated +
      (tally entries existing).unchanged = entries.length := by
  simp only [tally]
  induction entries with
  | nil => rfl
  | cons e rest ih =>
    rw [List.countP_cons, List.countP_cons, List.countP_cons, List.length_cons]
    cases existing.get? e.1 with
    | none =>
      simp only [Option.isNone_none, Option.any_none, if_true, Bool.false_eq_true, if_false]
      omega
    | some n =>
      cases hagrees : agrees n e.2 <;>
        simp only [Option.isNone_some, Option.any_some, hagrees, Bool.not_true, Bool.not_false,
          if_true, Bool.false_eq_true, if_false] <;> omega

/-! ## Following the plan -/

theorem prune_follows (notes : List (String × Note)) (report : Report) :
    (prune notes report).Follows (notes.map removal)
      { report with pruned := report.pruned ++ notes.map (·.1) } := by
  induction notes generalizing report with
  | nil =>
    simp only [List.map_nil, List.append_nil]
    exact .done report
  | cons e notes ih =>
    obtain ⟨key, n⟩ := e
    refine .call (fun _ => ?_) fun _ _ => rfl
    have := ih { report with pruned := report.pruned ++ [key] }
    rwa [List.append_assoc] at this

/-- Taking a key out of the index leaves the look-ups of other keys. -/
theorem get?_erase_of_mem {existing : Index Note} {key : String}
    {rest : List (String × Comment)} (hkey : key ∉ rest.map (·.1)) {e : String × Comment}
    (he : e ∈ rest) : (existing.erase key).get? e.1 = existing.get? e.1 := by
  rw [Index.get?_erase, if_neg]
  rintro rfl
  exact hkey (List.mem_map.2 ⟨e, he, rfl⟩)

theorem stale_cons_erase (existing : Index Note) (key : String) (c : Comment)
    (rest : List (String × Comment)) :
    stale ((key, c) :: rest) existing = stale rest (existing.erase key) := by
  simp only [stale, Index.erase, List.filter_filter]
  refine List.filter_congr fun e _ => ?_
  rw [Bool.eq_iff_iff]
  simp only [List.map_cons, List.mem_cons, not_or, Bool.and_eq_true, decide_eq_true_eq,
    bne_iff_ne]
  exact and_comm

theorem stale_cons_none {existing : Index Note} {key : String} (h : existing.get? key = none)
    (c : Comment) (rest : List (String × Comment)) :
    stale ((key, c) :: rest) existing = stale rest existing := by
  refine List.filter_congr fun e he => ?_
  rw [Bool.eq_iff_iff]
  simp only [List.map_cons, List.mem_cons, not_or, decide_eq_true_eq]
  refine ⟨fun hne => hne.2, fun hne => ⟨?_, hne⟩⟩
  rintro rfl
  rw [(Index.mem_entries_iff existing e.1 e.2).1 he] at h
  cases h

theorem plan_erase {existing : Index Note} {key : String} {rest : List (String × Comment)}
    (hkey : key ∉ rest.map (·.1)) (c : Comment) :
    plan rest (existing.erase key) =
      rest.filterMap (callFor? existing) ++ (stale ((key, c) :: rest) existing).map removal := by
  have hcalls : rest.filterMap (callFor? (existing.erase key)) =
      rest.filterMap (callFor? existing) :=
    List.filterMap_congr fun e he => by rw [callFor?, callFor?, get?_erase_of_mem hkey he]
  rw [plan, hcalls, stale_cons_erase]

theorem tally_erase {existing : Index Note} {key : String} {rest : List (String × Comment)}
    (hkey : key ∉ rest.map (·.1)) (c : Comment) :
    tally rest (existing.erase key) =
      { tally rest existing with
        pruned := (stale ((key, c) :: rest) existing).map (·.1) } := by
  have hcount : ∀ test : Option Note → Comment → Bool,
      rest.countP (fun e => test ((existing.erase key).get? e.1) e.2) =
        rest.countP fun e => test (existing.get? e.1) e.2 := by
    intro test
    refine List.countP_congr fun e he => ?_
    rw [get?_erase_of_mem hkey he]
  simp only [tally, stale_cons_erase, Report.mk.injEq, and_true]
  exact ⟨hcount fun n _ => n.isNone, hcount fun n c => n.any (!agrees · c),
    hcount fun n c => n.any (agrees · c)⟩

theorem plan_cons_create {existing : Index Note} {key : String}
    (hget : existing.get? key = none) (c : Comment) (rest : List (String × Comment)) :
    plan ((key, c) :: rest) existing = .create (.ofComment c) :: plan rest existing := by
  have hcall : callFor? existing (key, c) = some (.create (.ofComment c)) := by
    rw [callFor?, hget]
  rw [plan, List.filterMap_cons_some hcall, stale_cons_none hget]
  rfl

theorem plan_cons_keep {existing : Index Note} {key : String} {n : Note} {c : Comment}
    {rest : List (String × Comment)} (hkey : key ∉ rest.map (·.1))
    (hget : existing.get? key = some n) (hagrees : agrees n c = true) :
    plan ((key, c) :: rest) existing = plan rest (existing.erase key) := by
  have hcall : callFor? existing (key, c) = none := by
    simp only [callFor?, hget, if_pos hagrees]
  rw [plan, List.filterMap_cons_none hcall, plan_erase hkey c]

theorem plan_cons_update {existing : Index Note} {key : String} {n : Note} {c : Comment}
    {rest : List (String × Comment)} (hkey : key ∉ rest.map (·.1))
    (hget : existing.get? key = some n) (hagrees : ¬agrees n c = true) :
    plan ((key, c) :: rest) existing =
      .update c.filepath c.line (.ofComment c) :: plan rest (existing.erase key) := by
  have hcall : callFor? existing (key, c) =
      some (.update c.filepath c.line (.ofComment c)) := by
    simp only [callFor?, hget, if_neg hagrees]
  rw [plan, List.filterMap_cons_some hcall, plan_erase hkey c]
  rfl

theorem plus_tally_cons_create {existing : Index Note} {key : String}
    (hget : existing.get? key = none) (c : Comment) (rest : List (String × Comment))
    (report : Report) :
    report.plus (tally ((key, c) :: rest) existing) =
      { report with created := report.created + 1 }.plus (tally rest existing) := by
  simp only [Report.plus, tally, stale_cons_none hget, List.countP_cons, hget,
    Option.isNone_none, Option.any_none, if_true, Report.mk.injEq, and_true]
  simp only [Bool.false_eq_true, if_false]
  omega

theorem plus_tally_cons_keep {existing : Index Note} {key : String} {n : Note} {c : Comment}
    {rest : List (String × Comment)} (hkey : key ∉ rest.map (·.1))
    (hget : existing.get? key = some n) (hagrees : agrees n c = true) (report : Report) :
    report.plus (tally ((key, c) :: rest) existing) =
      { report with unchanged := report.unchanged + 1 }.plus
        (tally rest (existing.erase key)) := by
  simp only [Report.plus, tally_erase hkey c, Report.mk.injEq]
  simp only [tally, List.countP_cons, hget, Option.isNone_some, Option.any_some, hagrees,
    Bool.not_true, Bool.false_eq_true, if_true, if_false]
  refine ⟨?_, ?_, ?_, trivial⟩ <;> omega

theorem plus_tally_cons_update {existing : Index Note} {key : String} {n : Note} {c : Comment}
    {rest : List (String × Comment)} (hkey : key ∉ rest.map (·.1))
    (hget : existing.get? key = some n) (hagrees : ¬agrees n c = true) (report : Report) :
    report.plus (tally ((key, c) :: rest) existing) =
      { report with updated := report.updated + 1 }.plus
        (tally rest (existing.erase key)) := by
  simp only [Report.plus, tally_erase hkey c, Report.mk.injEq]
  simp only [tally, List.countP_cons, hget, Option.isNone_some, Option.any_some, hagrees,
    Bool.not_false, Bool.false_eq_true, if_true, if_false]
  refine ⟨?_, ?_, ?_, trivial⟩ <;> omega

/-- All that is known is stale when nothing is wanted. -/
theorem stale_nil (existing : Index Note) : stale [] existing = existing.entries :=
  List.filter_eq_self.2 fun e _ => by simp

theorem plan_nil (existing : Index Note) :
    plan [] existing = existing.entries.map removal := by
  rw [plan, stale_nil]
  rfl

/-- The turns of a pass that writes.  Each is about one comment and the note known under its
key, which is not looked for again. -/
inductive Turns : List (String × Comment) → Index Note → Prop
  | done {existing : Index Note} : Turns [] existing
  | create {key : String} {c : Comment} {rest : List (String × Comment)} {existing : Index Note}
      (hkey : key ∉ rest.map (·.1)) (hget : existing.get? key = none)
      (later : Turns rest existing) : Turns ((key, c) :: rest) existing
  | keep {key : String} {c : Comment} {rest : List (String × Comment)} {existing : Index Note}
      {n : Note} (hkey : key ∉ rest.map (·.1)) (hget : existing.get? key = some n)
      (hagrees : agrees n c = true) (later : Turns rest (existing.erase key)) :
      Turns ((key, c) :: rest) existing
  | update {key : String} {c : Comment} {rest : List (String × Comment)} {existing : Index Note}
      {n : Note} (hkey : key ∉ rest.map (·.1)) (hget : existing.get? key = some n)
      (hagrees : ¬agrees n c = true) (later : Turns rest (existing.erase key)) :
      Turns ((key, c) :: rest) existing

/-- Comments under keys of their own are gone through turn by turn, whatever is known. -/
theorem turns_of_nodup {entries : List (String × Comment)} (h : (entries.map (·.1)).Nodup)
    (existing : Index Note) : Turns entries existing := by
  induction entries generalizing existing with
  | nil => exact .done
  | cons e rest ih =>
    obtain ⟨key, c⟩ := e
    obtain ⟨hkey, hrest⟩ := List.nodup_cons.1 h
    cases hget : existing.get? key with
    | none => exact .create hkey hget (ih hrest existing)
    | some n =>
      by_cases hagrees : agrees n c = true
      · exact .keep hkey hget hagrees (ih hrest _)
      · exact .update hkey hget hagrees (ih hrest _)

/-- Removing what is left once nothing more is wanted. -/
theorem write_nil_follows (existing : Index Note) (report : Report) :
    (write [] existing report).Follows (plan [] existing)
      (report.plus (tally [] existing)) := by
  have hreport : report.plus (tally [] existing) =
      { report with pruned := report.pruned ++ existing.entries.map (·.1) } := by
    rw [tally, stale_nil]
    rfl
  rw [plan_nil, hreport]
  exact prune_follows existing.entries report

/-- Writing what is wanted and removing what is stale follows the plan. -/
theorem write_follows {entries : List (String × Comment)} (h : (entries.map (·.1)).Nodup)
    (existing : Index Note) (report : Report) :
    (write entries existing report).Follows (plan entries existing)
      (report.plus (tally entries existing)) := by
  replace h := turns_of_nodup h existing
  induction h generalizing report with
  | done => exact write_nil_follows _ report
  | create _ hget _ ih =>
    rw [plan_cons_create hget, plus_tally_cons_create hget]
    simp only [write, hget]
    refine .call (fun _ => ih _) fun err herr => ?_
    cases err with
    | alreadyExists f l => exact absurd ⟨f, l, rfl⟩ herr
    | notFound f l => rfl
    | backend f => rfl
    | corrupt reason => rfl
  | keep hkey hget hagrees _ ih =>
    rw [plan_cons_keep hkey hget hagrees, plus_tally_cons_keep hkey hget hagrees]
    simp only [write, hget, if_pos hagrees]
    exact ih _
  | update hkey hget hagrees _ ih =>
    rw [plan_cons_update hkey hget hagrees, plus_tally_cons_update hkey hget hagrees]
    simp only [write, hget, if_neg hagrees]
    exact .call (fun _ => ih _) fun _ _ => rfl

/-! ## Runs that are stopped

Whatever a pass is answered, it makes the calls of its plan in order, all of them or those
up to one that fails. -/

section Calls

variable {σ : Type} (clerk : Clerk σ)

theorem isPrefix_calls_prune (notes : List (String × Note)) (report : Report) (state : σ) :
    (prune notes report).calls clerk state <+: notes.map removal := by
  induction notes generalizing report state with
  | nil => exact List.prefix_rfl
  | cons e notes ih =>
    obtain ⟨key, n⟩ := e
    rw [prune, Script.calls, List.map_cons]
    refine List.cons_prefix_cons.2 ⟨rfl, ?_⟩
    cases (clerk (.delete n.filepath n.line) state).1 with
    | ok _ => exact ih _ _
    | error e => exact List.nil_prefix

theorem isPrefix_calls_write {entries : List (String × Comment)}
    (h : (entries.map (·.1)).Nodup) (existing : Index Note) (report : Report) (state : σ) :
    (write entries existing report).calls clerk state <+: plan entries existing := by
  replace h := turns_of_nodup h existing
  induction h generalizing report state with
  | done =>
    rw [plan_nil]
    exact isPrefix_calls_prune clerk _ report state
  | create _ hget _ ih =>
    rw [plan_cons_create hget]
    simp only [write, hget, Script.calls]
    refine List.cons_prefix_cons.2 ⟨rfl, ?_⟩
    split
    · exact ih _ _
    · exact ih _ _
    · exact List.nil_prefix
  | keep hkey hget hagrees _ ih =>
    rw [plan_cons_keep hkey hget hagrees]
    simp only [write, hget, if_pos hagrees]
    exact ih _ state
  | update hkey hget hagrees _ ih =>
    rw [plan_cons_update hkey hget hagrees]
    simp only [write, hget, if_neg hagrees, Script.calls]
    refine List.cons_prefix_cons.2 ⟨rfl, ?_⟩
    split
    · exact ih _ _
    · exact List.nil_prefix

end Calls

end Reconcile

end Marginalia
