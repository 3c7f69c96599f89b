import Marginalia.Proofs.Pattern.Fence
import Marginalia.Proofs.Pattern.Leftmost
import Std.Data.TreeSet.Lemmas

set_option autoImplicit false

/-!
# The search of a fence

A run of the machine of a fence ends where the walk over the fence ends, whatever
is settled, as long as the settled places are places where the walk fails.  So
the matches that a machine finds in a text are the leftmost ones: each starts at
the first place after the one before where the walk, made for that place alone,
comes to an end.
-/

namespace Marginalia.Pattern

namespace Machine

/-- Where a match that starts at a place of a text of some length ends, if the
machine is run from this place alone. -/
def endAt? (m : Machine) (length : Nat) (p : Cursor) : Option Cursor :=
  (m.work (m.enoughTasks length) [.attempt p m.start] ∅).1

variable {m : Machine} {f : Fence} {text : List Char}

/-! ## What is settled -/

/-- Whether all that is settled is settled rightly: the walk fails there. -/
def Sound (m : Machine) (f : Fence) (text : List Char) (settled : Settled) : Prop :=
  ∀ p : Cursor, p.IsIn text → settled.contains (m.key p f.loop) = true →
    f.insideEnd? p.rest p = none

theorem sound_empty : m.Sound f text ∅ := by
  intro p _ hkey
  rw [Std.TreeSet.contains_emptyc] at hkey
  cases hkey

theorem sound_insert (hm : m.IsFence f) {settled : Settled} (hs : m.Sound f text settled)
    {p : Cursor} (hp : p.IsIn text) (hfail : f.insideEnd? p.rest p = none) :
    m.Sound f text (settled.insert (m.key p f.loop)) := by
  intro q hq hkey
  rw [Std.TreeSet.contains_insert, Bool.or_eq_true, beq_iff_eq] at hkey
  rcases hkey with hkey | hkey
  · have hsize : 0 < m.code.size := by
      rw [hm.size]
      omega
    have hoffset : p.offset * m.code.size = q.offset * m.code.size := by
      have := Nat.compare_eq_eq.1 hkey
      unfold key at this
      omega
    have hsame := hp.eq_of_offset hq (Nat.eq_of_mul_eq_mul_right hsize hoffset)
    rwa [← hsame]
  · exact hs q hq hkey

/-! ## What a task comes to -/

/-- Whether a number of tasks leads to a result: either to the end of a match, or to
what is left to be done when there is none. -/
def Arrives (m : Machine) (count : Nat) (tasks : List Task) (settled : Settled)
    (result : Option Cursor) (left : List Task) (settled' : Settled) : Prop :=
  match result with
  | some q => ∃ tasks', m.Goes count tasks settled (.attempt q 0 :: tasks') settled'
  | none => m.Goes count tasks settled left settled'

theorem Goes.arrives {k l : Nat} {tasks tasks' left : List Task}
    {settled settled' settled'' : Settled} {result : Option Cursor}
    (h : m.Goes k tasks settled tasks' settled')
    (h' : m.Arrives l tasks' settled' result left settled'') :
    m.Arrives (k + l) tasks settled result left settled'' := by
  cases result with
  | none => exact h.trans h'
  | some q =>
    obtain ⟨tasks'', hgoes⟩ := h'
    exact ⟨tasks'', h.trans hgoes⟩

/-- Whether a task comes to a result within a number of tasks, whatever is settled
and whatever is to be done after it: either a match ends, or the task is given up. -/
def Comes (m : Machine) (f : Fence) (text : List Char) (count : Nat) (task : Task)
    (result : Option Cursor) : Prop :=
  ∀ settled, m.Sound f text settled → ∀ tasks, ∃ k settled', k ≤ count ∧
    m.Sound f text settled' ∧ m.Arrives k (task :: tasks) settled result tasks settled'

theorem Comes.mono {count count' : Nat} {task : Task} {result : Option Cursor}
    (h : m.Comes f text count task result) (hcount : count ≤ count') :
    m.Comes f text count' task result := by
  intro settled hs tasks
  obtain ⟨k, settled', hk, hrest⟩ := h settled hs tasks
  exact ⟨k, settled', Nat.le_trans hk hcount, hrest⟩

theorem comes_steps {steps : List Step} {i j : Nat} {p : Cursor} {count : Nat}
    {result : Cursor → Option Cursor} (hleads : m.leads i steps j = true)
    (h : ∀ q, follow steps p = some q → m.Comes f text count (.attempt q j) (result q)) :
    m.Comes f text (steps.length + count) (.attempt p i) ((follow steps p).bind result) := by
  intro settled hs tasks
  cases hfollow : follow steps p with
  | none =>
    obtain ⟨k, hk, hgoes⟩ : ∃ k, k ≤ steps.length ∧
        m.Goes k (.attempt p i :: tasks) settled tasks settled :=
      goes_of_follow_none hleads hfollow
    exact ⟨k, settled, by omega, hs, hgoes⟩
  | some q =>
    have hfirst : m.Goes steps.length (.attempt p i :: tasks) settled (.attempt q j :: tasks)
        settled := goes_of_follow hleads hfollow
    obtain ⟨k, settled', hk, hs', harrives⟩ := h q hfollow settled hs tasks
    exact ⟨steps.length + k, settled', by omega, hs', hfirst.arrives harrives⟩

/-- The end of a machine is the end of a match. -/
theorem comes_stop (p : Cursor) : m.Comes f text 0 (.attempt p 0) (some p) := by
  intro settled hs tasks
  exact ⟨0, settled, Nat.le_refl 0, hs, tasks, Goes.refl⟩

theorem comes_close (hm : m.IsFence f) (p : Cursor) :
    m.Comes f text f.closing.length (.attempt p f.closing.length) (follow f.closing p) := by
  have h : m.Comes f text (f.closing.length + 0) (.attempt p f.closing.length)
      ((follow f.closing p).bind some) := by
    apply comes_steps hm.closes
    intro q _
    exact comes_stop q
  rwa [Option.bind_fun_some] at h

theorem comes_fill (hm : m.IsFence f) {p : Cursor} {c : Char} {rest : List Char} {count : Nat}
    (hrest : p.rest = c :: rest)
    (h : m.Comes f text count (.attempt (p.advance c rest) f.loop)
      (f.insideEnd? rest (p.advance c rest))) :
    m.Comes f text (count + 1) (.attempt p f.fill)
      (if f.filler.holds c then f.insideEnd? rest (p.advance c rest) else none) := by
  intro settled hs tasks
  by_cases hc : f.filler.holds c = true
  · rw [if_pos hc]
    have hfirst : m.Goes 1 (.attempt p f.fill :: tasks) settled
        (.attempt (p.advance c rest) f.loop :: tasks) settled := goes_read hm.fills hrest hc
    obtain ⟨k, settled', hk, hs', harrives⟩ := h settled hs tasks
    exact ⟨1 + k, settled', by omega, hs', hfirst.arrives harrives⟩
  · rw [if_neg hc]
    refine ⟨1, settled, by omega, hs, goes_read_fail hm.fills ?_⟩
    intro c' rest' hcons
    rw [hrest, List.cons.injEq] at hcons
    rw [← hcons.1]
    exact Bool.eq_false_iff.2 hc

theorem comes_fill_nil (hm : m.IsFence f) {p : Cursor} (hrest : p.rest = []) :
    m.Comes f text 1 (.attempt p f.fill) none := by
  intro settled hs tasks
  refine ⟨1, settled, by omega, hs, goes_read_fail hm.fills ?_⟩
  intro c rest hcons
  rw [hrest] at hcons
  cases hcons

/-- The decision comes to what its ways come to, the preferred one first; when both
are given up, it is settled. -/
theorem comes_loop_of_ways (hm : m.IsFence f) {p : Cursor} (hp : p.IsIn text) {a b : Nat}
    (hways : f.ways = [a, b]) {j k : Nat} {result result' : Option Cursor}
    (ha : m.Comes f text j (.attempt p a) result) (hb : m.Comes f text k (.attempt p b) result')
    (hinside : f.insideEnd? p.rest p = result.or result') :
    m.Comes f text (j + k + 2) (.attempt p f.loop) (f.insideEnd? p.rest p) := by
  intro settled hs tasks
  by_cases hkey : settled.contains (m.key p f.loop) = true
  · rw [hs p hp hkey]
    exact ⟨1, settled, by omega, hs, goes_fork_settled hm.forks hkey⟩
  · have hfork : m.Goes 1 (.attempt p f.loop :: tasks) settled
        (f.ways.map (Task.attempt p) ++ .settle (m.key p f.loop) :: tasks) settled :=
      goes_fork hm.forks hm.straight (Bool.eq_false_iff.2 hkey)
    rw [hways] at hfork
    obtain ⟨j', settled₁, hj, hs₁, hfirst⟩ :=
      ha settled hs (.attempt p b :: .settle (m.key p f.loop) :: tasks)
    cases result with
    | some q =>
      refine ⟨1 + j', settled₁, by omega, hs₁, ?_⟩
      rw [hinside, Option.some_or]
      exact hfork.arrives hfirst
    | none =>
      rw [Option.none_or] at hinside
      have hnext : m.Goes (1 + j') (.attempt p f.loop :: tasks) settled
          (.attempt p b :: .settle (m.key p f.loop) :: tasks) settled₁ := hfork.trans hfirst
      obtain ⟨k', settled₂, hk, hs₂, hsecond⟩ := hb settled₁ hs₁ (.settle (m.key p f.loop) :: tasks)
      cases result' with
      | some q =>
        refine ⟨1 + j' + k', settled₂, by omega, hs₂, ?_⟩
        rw [hinside]
        exact hnext.arrives hsecond
      | none =>
        refine ⟨1 + j' + k' + 1, settled₂.insert (m.key p f.loop), by omega,
          sound_insert hm hs₂ hp hinside, ?_⟩
        rw [hinside]
        exact (hnext.trans hsecond).trans (goes_settle _)

/-- The decision comes to the end that the walk finds, whichever way is preferred. -/
theorem comes_loop_of_fill (hm : m.IsFence f) {p : Cursor} (hp : p.IsIn text) {count : Nat}
    {filled : Option Cursor} (hfill : m.Comes f text count (.attempt p f.fill) filled)
    (hinside : f.insideEnd? p.rest p =
      if f.greedy then filled.or (follow f.closing p) else (follow f.closing p).or filled) :
    m.Comes f text (count + f.closing.length + 2) (.attempt p f.loop)
      (f.insideEnd? p.rest p) := by
  have hclose : m.Comes f text f.closing.length (.attempt p f.closing.length)
      (follow f.closing p) := comes_close hm p
  cases hgreedy : f.greedy with
  | true =>
    have hways : f.ways = [f.fill, f.closing.length] := if_pos hgreedy
    rw [hgreedy, if_pos rfl] at hinside
    exact comes_loop_of_ways hm hp hways hfill hclose hinside
  | false =>
    have hways : f.ways = [f.closing.length, f.fill] := if_neg (by rw [hgreedy]; decide)
    rw [hgreedy, if_neg (by decide)] at hinside
    refine (comes_loop_of_ways hm hp hways hclose hfill hinside).mono ?_
    omega

/-- The walk inside a fence, by induction on the text that is left. -/
theorem comes_loop (hm : m.IsFence f) {p : Cursor} (hp : p.IsIn text) :
    m.Comes f text ((f.closing.length + 3) * (p.rest.length + 1)) (.attempt p f.loop)
      (f.insideEnd? p.rest p) := by
  generalize hrest : p.rest = rest
  induction rest generalizing p with
  | nil =>
    have hinside : f.insideEnd? p.rest p =
        if f.greedy then Option.none.or (follow f.closing p) else (follow f.closing p).or none := by
      rw [hrest, Option.none_or, Option.or_none, ite_self]
      rfl
    have hcomes := comes_loop_of_fill hm hp (comes_fill_nil hm hrest) hinside
    rw [hrest] at hcomes
    refine hcomes.mono ?_
    rw [List.length_nil]
    omega
  | cons c rest ih =>
    have hfill := comes_fill hm hrest (ih (.advance hp hrest) rfl)
    have hcomes := comes_loop_of_fill hm hp hfill (by rw [hrest]; rfl)
    rw [hrest] at hcomes
    refine hcomes.mono ?_
    rw [List.length_cons, Nat.mul_succ (f.closing.length + 3) (rest.length + 1)]
    omega

/-! ## Whole runs -/

theorem comes_start (hm : m.IsFence f) {p : Cursor} (hp : p.IsIn text) :
    m.Comes f text (f.opening.length + (f.closing.length + 3) * (text.length + 1))
      (.attempt p m.start) (f.endAt? p) := by
  refine comes_steps hm.opens ?_
  intro q hq
  have hq' := follow_isIn hp hq
  refine (comes_loop hm hq').mono (Nat.mul_le_mul_left _ ?_)
  have := hq'.offset_add_length
  omega

theorem enoughTasks_ge (hm : m.IsFence f) (length : Nat) :
    f.opening.length + (f.closing.length + 3) * (length + 1) + 1 ≤ m.enoughTasks length := by
  unfold enoughTasks
  generalize m.code.foldl (fun n i => n + i.ways) 0 = ways
  rw [hm.size]
  calc f.opening.length + (f.closing.length + 3) * (length + 1) + 1
      ≤ (f.opening.length + f.closing.length + 4) * (length + 1) +
          (f.opening.length + f.closing.length + 4) * 2 := by
        have := Nat.mul_le_mul_right (length + 1)
          (show f.closing.length + 3 ≤ f.opening.length + f.closing.length + 4 by omega)
        omega
    _ = (f.opening.length + f.closing.length + 4) * ((length + 1) + 2) :=
        (Nat.mul_add _ (length + 1) 2).symm
    _ ≤ (f.opening.length + f.closing.length + 3 + 1) * ((ways + 1) * (length + 1) + 2) := by
        refine Nat.mul_le_mul_left _ (Nat.add_le_add_right ?_ 2)
        exact Nat.le_mul_of_pos_left _ (Nat.succ_pos ways)

/-- A run ends where the walk ends, and what is settled then is settled rightly. -/
theorem work_eq_endAt? (hm : m.IsFence f) {settled : Settled} (hs : m.Sound f text settled)
    {p : Cursor} (hp : p.IsIn text) :
    ∃ settled', m.work (m.enoughTasks text.length) [.attempt p m.start] settled =
      (f.endAt? p, settled') ∧ m.Sound f text settled' := by
  obtain ⟨k, settled', hk, hs', hgoes⟩ := comes_start hm hp settled hs []
  obtain ⟨bound, hbound⟩ : ∃ bound, m.enoughTasks text.length = (bound + 1) + k := by
    have := enoughTasks_ge hm text.length
    exact ⟨m.enoughTasks text.length - k - 1, by omega⟩
  refine ⟨settled', ?_, hs'⟩
  rw [hbound]
  cases hresult : f.endAt? p with
  | none =>
    rw [hresult] at hgoes
    rw [hgoes, work_nil]
  | some q =>
    rw [hresult] at hgoes
    obtain ⟨tasks', hgoes⟩ := hgoes
    rw [hgoes, work_done hm.stops hm.straight]

/-- A machine of a fence, run from a place alone, ends where the walk ends. -/
theorem endAt?_eq (hm : m.IsFence f) {p : Cursor} (hp : p.IsIn text) :
    m.endAt? text.length p = f.endAt? p := by
  obtain ⟨settled', hwork, -⟩ := work_eq_endAt? hm sound_empty hp
  rw [endAt?, hwork]

theorem endAt?_isIn (hm : m.IsFence f) {p q : Cursor} (hp : p.IsIn text)
    (h : m.endAt? text.length p = some q) : q.IsIn text := by
  rw [endAt?_eq hm hp] at h
  exact Fence.endAt?_isIn hp h

theorem spansFrom_eq_leftmost (hm : m.IsFence f) {p : Cursor} (hp : p.IsIn text) (resume : Nat)
    {settled : Settled} (hs : m.Sound f text settled) :
    m.spansFrom (m.enoughTasks text.length) p.rest p resume settled =
      leftmost f.endAt? p.rest p resume := by
  generalize hrest : p.rest = rest
  induction rest generalizing p resume settled with
  | nil => rfl
  | cons c rest ih =>
    have hnext : ∀ resume settled, m.Sound f text settled →
        m.spansFrom (m.enoughTasks text.length) rest (p.advance c rest) resume settled =
          leftmost f.endAt? rest (p.advance c rest) resume := by
      intro resume settled hs
      exact ih (.advance hp hrest) resume hs rfl
    obtain ⟨settled', hwork, hs'⟩ := work_eq_endAt? hm hs hp
    simp only [spansFrom, leftmost, hwork]
    split
    · exact hnext resume settled hs
    · cases f.endAt? p with
      | none => exact hnext resume settled' hs'
      | some q =>
        simp only [hnext _ settled' hs']

theorem spans_eq_leftmost (hm : m.IsFence f) (text : List Char) :
    m.spans text = leftmost (m.endAt? text.length) text (.start text) 0 := by
  have hstart : (Cursor.start text).IsIn text := .start
  have hspans := spansFrom_eq_leftmost hm hstart 0 sound_empty
  have hends := leftmost_congr hstart (fun q hq => (endAt?_eq hm hq).symm) 0
  exact hspans.trans hends

/-- The matches that the machine of a fence finds are the leftmost ones. -/
theorem isLeftmost_spans (hm : m.IsFence f) (text : List Char) :
    IsLeftmost (m.endAt? text.length) text 0 (m.spans text) := by
  rw [spans_eq_leftmost hm]
  apply isLeftmost_leftmost
  intro p q hp hq
  exact endAt?_isIn hm hp hq

end Machine

end Marginalia.Pattern
