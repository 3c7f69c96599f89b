import Marginalia.Proofs.Pattern.Place

set_option autoImplicit false

/-!
# Runs of a machine

A run takes one way through a machine and a text, from an instruction at a place to
the end of a match.  The search tries the ways one after the other and leaves out
those that are settled; whatever it leaves out and whenever it gives up, a match that
it finds is where a run ends.  This holds for every machine, also for one that no
pattern denotes.  Which of the runs is found, and that one is found when there is
one, is said for the machines of fences only.
-/

namespace Marginalia.Pattern

variable {m : Machine} {text : List Char}

namespace Machine

/-- Whether a run that goes on at a place with the instruction of a number can end a
match at another place. -/
inductive Run (m : Machine) : Cursor → Nat → Cursor → Prop
  | done {p : Cursor} {i : Nat} (here : m.code[i]? = some .done) : Run m p i p
  | check {p q : Cursor} {i next : Nat} {a : Anchor} (here : m.code[i]? = some (.check a next))
      (holds : a.holds p = true) (later : Run m p next q) : Run m p i q
  | read {p q : Cursor} {i next : Nat} {s : CharSet} {c : Char} {rest : List Char}
      (here : m.code[i]? = some (.read s next)) (ahead : p.rest = c :: rest)
      (holds : s.holds c = true) (later : Run m (p.advance c rest) next q) : Run m p i q
  | fork {p q : Cursor} {i way : Nat} {ways : List Nat} (here : m.code[i]? = some (.fork ways))
      (among : way ∈ ways) (later : Run m p way q) : Run m p i q

namespace Run

variable {p q : Cursor} {i : Nat}

/-- A run ends at a place of the text. -/
theorem isIn (h : m.Run p i q) (hp : p.IsIn text) : q.IsIn text := by
  induction h with
  | done _ => exact hp
  | check _ _ _ ih => exact ih hp
  | read _ ahead _ _ ih => exact ih (.advance hp ahead)
  | fork _ _ _ ih => exact ih hp

end Run

/-! ## What the search finds -/

/-- Whether a run that does a task can end a match at a place. -/
def Ends (m : Machine) (q : Cursor) : Task → Prop
  | .attempt p i => m.Run p i q
  | .settle _ => False

theorem exists_ends_of_later {q : Cursor} {task : Task} {tasks : List Task}
    (h : ∃ t ∈ tasks, m.Ends q t) : ∃ t ∈ task :: tasks, m.Ends q t := by
  obtain ⟨t, ht, hends⟩ := h
  exact ⟨t, List.mem_cons_of_mem _ ht, hends⟩

/-- A task that is replaced by others ends a match where one of them does. -/
theorem exists_ends_of_replaced {q : Cursor} {task : Task} {others tasks : List Task}
    (hothers : ∀ t ∈ others, m.Ends q t → m.Ends q task)
    (h : ∃ t ∈ others ++ tasks, m.Ends q t) : ∃ t ∈ task :: tasks, m.Ends q t := by
  obtain ⟨t, ht, hends⟩ := h
  rcases List.mem_append.1 ht with ht | ht
  · exact ⟨task, List.mem_cons_self, hothers t ht hends⟩
  · exact ⟨t, List.mem_cons_of_mem _ ht, hends⟩

/-- A task that goes on as another ends a match where the other does. -/
theorem exists_ends_of_next {q : Cursor} {task next : Task} {tasks : List Task}
    (hnext : m.Ends q next → m.Ends q task) (h : ∃ t ∈ next :: tasks, m.Ends q t) :
    ∃ t ∈ task :: tasks, m.Ends q t := by
  refine exists_ends_of_replaced ?_ (List.singleton_append ▸ h)
  intro t ht hends
  rw [List.mem_singleton.1 ht] at hends
  exact hnext hends

/-- A fork ends a match where one of its ways does. -/
theorem ends_of_attempts {p q : Cursor} {i : Nat} {ways : List Nat}
    (hfork : m.code[i]? = some (.fork ways)) :
    ∀ t ∈ ways.map (Task.attempt p), m.Ends q t → m.Ends q (.attempt p i) := by
  intro t ht hends
  obtain ⟨way, hway, rfl⟩ := List.mem_map.1 ht
  exact .fork hfork hway hends

/-- That a fork is settled after its ways ends no match. -/
theorem exists_ends_of_settled {p q : Cursor} {i key : Nat} {ways : List Nat} {tasks : List Task}
    (hfork : m.code[i]? = some (.fork ways))
    (h : ∃ t ∈ ways.map (Task.attempt p) ++ .settle key :: tasks, m.Ends q t) :
    ∃ t ∈ .attempt p i :: tasks, m.Ends q t := by
  rw [List.append_cons] at h
  refine exists_ends_of_replaced ?_ h
  intro t ht hends
  rcases List.mem_append.1 ht with ht | ht
  · exact ends_of_attempts hfork t ht hends
  · rw [List.mem_singleton.1 ht] at hends
    exact hends.elim

/-- What the search finds is where a run ends that does one of the tasks. -/
theorem exists_ends_of_work {bound : Nat} {tasks : List Task} {settled : Settled} {q : Cursor}
    (h : (m.work bound tasks settled).1 = some q) : ∃ t ∈ tasks, m.Ends q t := by
  induction bound generalizing tasks settled with
  | zero => cases h
  | succ bound ih =>
    cases tasks with
    | nil => cases h
    | cons task tasks =>
      cases task with
      | settle key => exact exists_ends_of_later (ih h)
      | attempt p i =>
        unfold work at h
        split at h
        · exact exists_ends_of_later (ih h)
        · rename_i hdone
          cases h
          exact ⟨_, List.mem_cons_self, .done hdone⟩
        · rename_i a next hcheck
          split at h
          · rename_i hholds
            refine exists_ends_of_next ?_ (ih h)
            exact Run.check hcheck hholds
          · exact exists_ends_of_later (ih h)
        · rename_i s next hread
          split at h
          · exact exists_ends_of_later (ih h)
          · rename_i c rest hrest
            split at h
            · rename_i hholds
              refine exists_ends_of_next ?_ (ih h)
              exact Run.read hread hrest hholds
            · exact exists_ends_of_later (ih h)
        · rename_i ways hfork
          simp only at h
          split at h
          · exact exists_ends_of_later (ih h)
          · split at h
            · exact exists_ends_of_replaced (ends_of_attempts hfork) (ih h)
            · exact exists_ends_of_settled hfork (ih h)

end Machine

/-! ## The matches in a text -/

/-- Whether a span of a text is a match of a machine with at least one character. -/
structure Span.IsMatch (s : Span) (m : Machine) (text : List Char) : Prop where
  /-- it starts at a place of the text -/
  isIn : s.first.IsIn text
  /-- a run of the whole machine leads from its start to its end -/
  run : m.Run s.first m.start s.last
  nonempty : s.first.offset < s.last.offset

theorem Span.IsMatch.isIn_last {s : Span} (h : s.IsMatch m text) : s.last.IsIn text :=
  h.run.isIn h.isIn

namespace Machine

theorem isMatch_of_mem_spansFrom {bound resume : Nat} {settled : Settled} {p : Cursor} {s : Span}
    (hp : p.IsIn text) (h : s ∈ m.spansFrom bound p.rest p resume settled) :
    s.IsMatch m text := by
  generalize hrest : p.rest = rest at h
  induction rest generalizing p resume settled with
  | nil => cases h
  | cons c rest ih =>
    have hlater : ∀ {resume settled}, s ∈ m.spansFrom bound rest (p.advance c rest) resume settled →
        s.IsMatch m text := fun h => ih (.advance hp hrest) rfl h
    simp only [spansFrom] at h
    split at h
    · exact hlater h
    · split at h
      · rename_i q settled' hwork
        split at h
        · rename_i hlt
          rcases List.mem_cons.1 h with rfl | h
          · obtain ⟨t, ht, hends⟩ := exists_ends_of_work (congrArg Prod.fst hwork)
            rw [List.mem_singleton.1 ht] at hends
            exact ⟨hp, hends, hlt⟩
          · exact hlater h
        · exact hlater h
      · exact hlater h

/-- What a machine finds in a text are matches of it. -/
theorem isMatch_of_mem_spans {s : Span} (h : s ∈ m.spans text) : s.IsMatch m text :=
  isMatch_of_mem_spansFrom .start h

end Machine

end Marginalia.Pattern
