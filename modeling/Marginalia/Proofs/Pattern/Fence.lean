import Marginalia.Proofs.Pattern.Place

set_option autoImplicit false

/-!
# Fences

The patterns of comments are of one kind: something opens the comment, something
may close it, and between the two stands a filler of characters of one set, as
short or as long as it can be.  Where such a match ends is told by one walk over
the text.  The machine of a fence finds the same end, however it was run before:
what is settled says only that the walk fails there.
-/

namespace Marginalia.Pattern

/-! ## Fences and their walk -/

/-- One step of what opens or closes a fence. -/
inductive Step where
  | char (s : CharSet)
  | anchor (a : Anchor)
  deriving DecidableEq, Repr, Inhabited

/-- What a comment looks like. -/
structure Fence where
  opening : List Step
  filler : CharSet
  closing : List Step
  /-- whether the filler is as long as it can be -/
  greedy : Bool
  deriving DecidableEq, Repr, Inhabited

/-- Takes steps from a place. -/
def follow : List Step → Cursor → Option Cursor
  | [], p => some p
  | .anchor a :: steps, p => if a.holds p then follow steps p else none
  | .char s :: steps, p =>
    match p.rest with
    | [] => none
    | c :: rest => if s.holds c then follow steps (p.advance c rest) else none

namespace Fence

/-- Where the filler and the closing end, from a place inside a fence.  The list is
the text after the place. -/
def insideEnd? (f : Fence) : List Char → Cursor → Option Cursor
  | [], p => follow f.closing p
  | c :: rest, p =>
    let closed := follow f.closing p
    let filled := if f.filler.holds c then insideEnd? f rest (p.advance c rest) else none
    if f.greedy then filled.or closed else closed.or filled

/-- Where a match that starts at a place ends. -/
def endAt? (f : Fence) (p : Cursor) : Option Cursor :=
  (follow f.opening p).bind fun q => f.insideEnd? q.rest q

/-- The instruction that decides between the filler and the closing. -/
def loop (f : Fence) : Nat := f.closing.length + 1

/-- The instruction that reads the filler. -/
def fill (f : Fence) : Nat := f.closing.length + 2

/-- The ways on from the decision, the preferred one first. -/
def ways (f : Fence) : List Nat :=
  if f.greedy then [f.fill, f.closing.length] else [f.closing.length, f.fill]

end Fence

/-! ## Steps that are taken -/

/-- A step over a character is taken where there is one of its set. -/
theorem exists_of_follow_char {s : CharSet} {steps : List Step} {p q : Cursor}
    (h : follow (.char s :: steps) p = some q) :
    ∃ c rest, p.rest = c :: rest ∧ s.holds c = true ∧ follow steps (p.advance c rest) = some q := by
  unfold follow at h
  split at h
  · cases h
  · rename_i c rest hrest
    split at h
    · exact ⟨c, rest, hrest, by assumption, h⟩
    · cases h

/-- A step over an anchor is taken where the anchor holds, and leads nowhere else. -/
theorem holds_of_follow_anchor {a : Anchor} {steps : List Step} {p q : Cursor}
    (h : follow (.anchor a :: steps) p = some q) : a.holds p = true ∧ follow steps p = some q := by
  unfold follow at h
  split at h
  · exact ⟨by assumption, h⟩
  · cases h

/-! ## Places stay places -/

theorem follow_isIn {text : List Char} {steps : List Step} {p q : Cursor} (hp : p.IsIn text)
    (h : follow steps p = some q) : q.IsIn text := by
  induction steps generalizing p with
  | nil =>
    cases h
    exact hp
  | cons step steps ih =>
    cases step with
    | anchor a => exact ih hp (holds_of_follow_anchor h).2
    | char s =>
      obtain ⟨c, rest, hrest, -, hgo⟩ := exists_of_follow_char h
      exact ih (.advance hp hrest) hgo

theorem Fence.insideEnd?_isIn {text : List Char} {f : Fence} {p q : Cursor} (hp : p.IsIn text)
    (h : f.insideEnd? p.rest p = some q) : q.IsIn text := by
  generalize hrest : p.rest = rest at h
  induction rest generalizing p q with
  | nil => exact follow_isIn hp h
  | cons c rest ih =>
    have hclosed : ∀ r, follow f.closing p = some r → r.IsIn text := by
      intro r hr
      exact follow_isIn hp hr
    have hfilled : ∀ r, (if f.filler.holds c then f.insideEnd? rest (p.advance c rest) else none) =
        some r → r.IsIn text := by
      intro r hr
      split at hr
      · exact ih (.advance hp hrest) rfl hr
      · cases hr
    simp only [insideEnd?] at h
    split at h
    · rcases Option.or_eq_some_iff.1 h with h | ⟨-, h⟩
      · exact hfilled q h
      · exact hclosed q h
    · rcases Option.or_eq_some_iff.1 h with h | ⟨-, h⟩
      · exact hclosed q h
      · exact hfilled q h

theorem Fence.endAt?_isIn {text : List Char} {f : Fence} {p q : Cursor} (hp : p.IsIn text)
    (h : f.endAt? p = some q) : q.IsIn text := by
  obtain ⟨r, hr, hq⟩ := Option.bind_eq_some_iff.1 h
  exact insideEnd?_isIn (follow_isIn hp hr) hq

/-! ## Machines of fences -/

namespace Machine

/-- Whether instructions lead from one number to another through steps. -/
def leads (m : Machine) : Nat → List Step → Nat → Bool
  | i, [], j => i == j
  | i, .char s :: steps, j =>
    match m.code[i]? with
    | some (.read s' next) => s' == s && leads m next steps j
    | _ => false
  | i, .anchor a :: steps, j =>
    match m.code[i]? with
    | some (.check a' next) => a' == a && leads m next steps j
    | _ => false

/-- Whether a machine is laid out as a fence is. -/
structure IsFence (m : Machine) (f : Fence) : Prop where
  size : m.code.size = f.opening.length + f.closing.length + 3
  opens : m.leads m.start f.opening f.loop = true
  forks : m.code[f.loop]? = some (.fork f.ways)
  fills : m.code[f.fill]? = some (.read f.filler f.loop)
  closes : m.leads f.closing.length f.closing 0 = true
  stops : m.code[0]? = some .done
  straight : m.circular = false

instance (m : Machine) (f : Fence) : Decidable (m.IsFence f) :=
  decidable_of_iff
    (m.code.size = f.opening.length + f.closing.length + 3 ∧
      m.leads m.start f.opening f.loop = true ∧ m.code[f.loop]? = some (.fork f.ways) ∧
      m.code[f.fill]? = some (.read f.filler f.loop) ∧
      m.leads f.closing.length f.closing 0 = true ∧ m.code[0]? = some .done ∧
      m.circular = false)
    ⟨fun h => ⟨h.1, h.2.1, h.2.2.1, h.2.2.2.1, h.2.2.2.2.1, h.2.2.2.2.2.1, h.2.2.2.2.2.2⟩,
      fun h => ⟨h.size, h.opens, h.forks, h.fills, h.closes, h.stops, h.straight⟩⟩

/-! ## Stretches of work -/

/-- Whether a number of tasks leads from one state of the work to another. -/
def Goes (m : Machine) (count : Nat) (tasks : List Task) (settled : Settled)
    (tasks' : List Task) (settled' : Settled) : Prop :=
  ∀ bound, m.work (bound + count) tasks settled = m.work bound tasks' settled'

variable {m : Machine} {tasks tasks' tasks'' : List Task} {settled settled' settled'' : Settled}

theorem Goes.refl : m.Goes 0 tasks settled tasks settled := by
  intro bound
  rfl

theorem Goes.trans {k l : Nat} (h : m.Goes k tasks settled tasks' settled')
    (h' : m.Goes l tasks' settled' tasks'' settled'') :
    m.Goes (k + l) tasks settled tasks'' settled'' := by
  intro bound
  rw [Nat.add_comm k l, ← Nat.add_assoc, h, h']

theorem goes_settle (key : Nat) :
    m.Goes 1 (.settle key :: tasks) settled tasks (settled.insert key) := by
  intro bound
  rfl

attribute [local simp] work

theorem goes_read {i next : Nat} {s : CharSet} {p : Cursor} {c : Char} {rest : List Char}
    (hcode : m.code[i]? = some (.read s next)) (hrest : p.rest = c :: rest)
    (hs : s.holds c = true) :
    m.Goes 1 (.attempt p i :: tasks) settled (.attempt (p.advance c rest) next :: tasks)
      settled := by
  intro bound
  simp [hcode, hrest, hs]

theorem goes_read_fail {i next : Nat} {s : CharSet} {p : Cursor}
    (hcode : m.code[i]? = some (.read s next))
    (hs : ∀ c rest, p.rest = c :: rest → s.holds c = false) :
    m.Goes 1 (.attempt p i :: tasks) settled tasks settled := by
  intro bound
  cases hrest : p.rest with
  | nil => simp [hcode, hrest]
  | cons c rest =>
    simp [hcode, hrest, hs c rest hrest]

theorem goes_check {i next : Nat} {a : Anchor} {p : Cursor}
    (hcode : m.code[i]? = some (.check a next)) (ha : a.holds p = true) :
    m.Goes 1 (.attempt p i :: tasks) settled (.attempt p next :: tasks) settled := by
  intro bound
  simp [hcode, ha]

theorem goes_check_fail {i next : Nat} {a : Anchor} {p : Cursor}
    (hcode : m.code[i]? = some (.check a next)) (ha : a.holds p = false) :
    m.Goes 1 (.attempt p i :: tasks) settled tasks settled := by
  intro bound
  simp [hcode, ha]

theorem goes_fork {i : Nat} {ways : List Nat} {p : Cursor}
    (hcode : m.code[i]? = some (.fork ways)) (hstraight : m.circular = false)
    (hkey : settled.contains (m.key p i) = false) :
    m.Goes 1 (.attempt p i :: tasks) settled
      (ways.map (Task.attempt p) ++ .settle (m.key p i) :: tasks) settled := by
  intro bound
  simp [hcode, hkey, hstraight]

theorem goes_fork_settled {i : Nat} {ways : List Nat} {p : Cursor}
    (hcode : m.code[i]? = some (.fork ways)) (hkey : settled.contains (m.key p i) = true) :
    m.Goes 1 (.attempt p i :: tasks) settled tasks settled := by
  intro bound
  simp [hcode, hkey]

theorem work_done {i : Nat} {p : Cursor} (hcode : m.code[i]? = some .done)
    (hstraight : m.circular = false) (bound : Nat) :
    m.work (bound + 1) (.attempt p i :: tasks) settled = (some p, settled) := by
  simp [hcode, hstraight]

theorem work_nil (bound : Nat) : m.work bound [] settled = (none, settled) := by
  cases bound <;> rfl

/-! ## Steps -/

theorem code_of_leads_char {i j : Nat} {s : CharSet} {steps : List Step}
    (h : m.leads i (.char s :: steps) j = true) :
    ∃ next, m.code[i]? = some (.read s next) ∧ m.leads next steps j = true := by
  unfold leads at h
  split at h
  · rename_i s' next hcode
    rw [Bool.and_eq_true, beq_iff_eq] at h
    obtain ⟨rfl, hnext⟩ := h
    exact ⟨next, hcode, hnext⟩
  · cases h

theorem code_of_leads_anchor {i j : Nat} {a : Anchor} {steps : List Step}
    (h : m.leads i (.anchor a :: steps) j = true) :
    ∃ next, m.code[i]? = some (.check a next) ∧ m.leads next steps j = true := by
  unfold leads at h
  split at h
  · rename_i a' next hcode
    rw [Bool.and_eq_true, beq_iff_eq] at h
    obtain ⟨rfl, hnext⟩ := h
    exact ⟨next, hcode, hnext⟩
  · cases h

/-- Steps that can be taken are taken, one task each. -/
theorem goes_of_follow {steps : List Step} {i j : Nat} {p q : Cursor}
    (hleads : m.leads i steps j = true) (h : follow steps p = some q) :
    m.Goes steps.length (.attempt p i :: tasks) settled (.attempt q j :: tasks) settled := by
  induction steps generalizing i p with
  | nil =>
    cases h
    simp only [leads, beq_iff_eq] at hleads
    subst hleads
    exact Goes.refl
  | cons step steps ih =>
    rw [List.length_cons, Nat.add_comm]
    cases step with
    | char s =>
      obtain ⟨next, hcode, hnext⟩ := code_of_leads_char hleads
      obtain ⟨c, rest, hrest, hs, hgo⟩ := exists_of_follow_char h
      exact (goes_read hcode hrest hs).trans (ih hnext hgo)
    | anchor a =>
      obtain ⟨next, hcode, hnext⟩ := code_of_leads_anchor hleads
      obtain ⟨ha, hgo⟩ := holds_of_follow_anchor h
      exact (goes_check hcode ha).trans (ih hnext hgo)

/-- Steps that cannot be taken are given up, at one of them. -/
theorem goes_of_follow_none {steps : List Step} {i j : Nat} {p : Cursor}
    (hleads : m.leads i steps j = true) (h : follow steps p = none) :
    ∃ k, k ≤ steps.length ∧ m.Goes k (.attempt p i :: tasks) settled tasks settled := by
  induction steps generalizing i p with
  | nil => cases h
  | cons step steps ih =>
    rw [List.length_cons]
    cases step with
    | char s =>
      obtain ⟨next, hcode, hnext⟩ := code_of_leads_char hleads
      unfold follow at h
      split at h
      · rename_i hrest
        refine ⟨1, by omega, goes_read_fail hcode ?_⟩
        intro c rest hcons
        rw [hrest] at hcons
        cases hcons
      · rename_i c rest hrest
        split at h
        · rename_i hs
          obtain ⟨k, hk, hgoes⟩ := ih hnext h
          exact ⟨1 + k, by omega, (goes_read hcode hrest hs).trans hgoes⟩
        · rename_i hs
          refine ⟨1, by omega, goes_read_fail hcode ?_⟩
          intro c' rest' hcons
          rw [hrest, List.cons.injEq] at hcons
          rw [← hcons.1]
          exact Bool.eq_false_iff.2 hs
    | anchor a =>
      obtain ⟨next, hcode, hnext⟩ := code_of_leads_anchor hleads
      unfold follow at h
      split at h
      · rename_i ha
        obtain ⟨k, hk, hgoes⟩ := ih hnext h
        exact ⟨1 + k, by omega, (goes_check hcode ha).trans hgoes⟩
      · rename_i ha
        exact ⟨1, by omega, goes_check_fail hcode (Bool.eq_false_iff.2 ha)⟩

end Machine

end Marginalia.Pattern
