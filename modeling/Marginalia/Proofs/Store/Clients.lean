import Marginalia.Store.Call

set_option autoImplicit false

/-!
# Two clients at one clerk

Two clients take turns at one clerk.  Each call is answered as a whole, and what
happens between two calls of a client is any number of calls of the other one.
Who makes the next call is said by a sequence of turns; a client that is finished
passes its turn on, so whatever the turns are, both clients come to an end.
-/

namespace Marginalia

variable {α β σ : Type}

namespace Script

/-- The call that a client waits to make. -/
def call? : Script α → Option Call
  | .done _ => none
  | .call c _ => some c

/-- A client and the state of the clerk after the next call of the client. -/
def advance (clerk : Clerk σ) : Script α → σ → Script α × σ
  | .done a, state => (.done a, state)
  | .call c next, state => (next (clerk c state).1, (clerk c state).2)

end Script

/-- Two clients, and the state that their clerk keeps. -/
structure Clients (α β σ : Type) where
  first : Script α
  second : Script β
  state : σ

namespace Clients

/-- Whether it is the first client that makes the next call. -/
def firstMoves (turn : Bool) (x : Clients α β σ) : Bool :=
  match x.first, x.second with
  | .done _, _ => false
  | .call _ _, .done _ => true
  | .call _ _, .call _ _ => turn

/-- The next call. -/
def call? (turn : Bool) (x : Clients α β σ) : Option Call :=
  if x.firstMoves turn then x.first.call? else x.second.call?

/-- The clients after the next call. -/
def step (clerk : Clerk σ) (turn : Bool) (x : Clients α β σ) : Clients α β σ :=
  if x.firstMoves turn then
    ⟨(x.first.advance clerk x.state).1, x.second, (x.first.advance clerk x.state).2⟩
  else ⟨x.first, (x.second.advance clerk x.state).1, (x.second.advance clerk x.state).2⟩

/-- The clients after some calls. -/
def after (clerk : Clerk σ) (turns : Nat → Bool) (x : Clients α β σ) : Nat → Clients α β σ
  | 0 => x
  | n + 1 => (x.after clerk turns n).step clerk (turns n)

/-- Whether both clients have come to an end. -/
def IsFinished (x : Clients α β σ) : Prop :=
  (∃ a, x.first = .done a) ∧ ∃ b, x.second = .done b

/-- Whether a property holds of every call of a run and the state it is made in. -/
def Always (clerk : Clerk σ) (turns : Nat → Bool) (P : Call → σ → Prop)
    (x : Clients α β σ) : Prop :=
  ∀ n c, (x.after clerk turns n).call? (turns n) = some c → P c (x.after clerk turns n).state

variable {clerk : Clerk σ} {turns : Nat → Bool} {x : Clients α β σ}

/-! ## Runs -/

/-- A run is its first step and then the rest of the run. -/
theorem after_succ (clerk : Clerk σ) (turns : Nat → Bool) (x : Clients α β σ) (n : Nat) :
    x.after clerk turns (n + 1) =
      (x.step clerk (turns 0)).after clerk (fun k => turns (k + 1)) n := by
  induction n with
  | zero => rfl
  | succ n ih => exact congrArg (step clerk (turns (n + 1))) ih

/-- Whatever the turns, both clients come to an end. -/
theorem exists_isFinished (clerk : Clerk σ) (turns : Nat → Bool) (x : Clients α β σ) :
    ∃ n, (x.after clerk turns n).IsFinished := by
  obtain ⟨s, t, state⟩ := x
  -- by recursion on both scripts: every step takes a call off one of them
  induction s generalizing t state turns with
  | done a =>
    induction t generalizing state turns with
    | done b => exact ⟨0, ⟨a, rfl⟩, b, rfl⟩
    | call c next ih =>
      obtain ⟨n, h⟩ := ih (clerk c state).1 (fun k => turns (k + 1)) (clerk c state).2
      exact ⟨n + 1, by rwa [after_succ]⟩
  | call c next ih =>
    induction t generalizing state turns with
    | done b =>
      obtain ⟨n, h⟩ := ih (clerk c state).1 (fun k => turns (k + 1)) (.done b) (clerk c state).2
      exact ⟨n + 1, by rwa [after_succ]⟩
    | call c' next' ih' =>
      cases hturn : turns 0 with
      | true =>
        obtain ⟨n, h⟩ :=
          ih (clerk c state).1 (fun k => turns (k + 1)) (.call c' next') (clerk c state).2
        exact ⟨n + 1, by rwa [after_succ, hturn]⟩
      | false =>
        obtain ⟨n, h⟩ := ih' (clerk c' state).1 (fun k => turns (k + 1)) (clerk c' state).2
        exact ⟨n + 1, by rwa [after_succ, hturn]⟩

theorem call?_of_isFinished (h : x.IsFinished) (turn : Bool) : x.call? turn = none := by
  obtain ⟨s, t, state⟩ := x
  obtain ⟨⟨a, rfl⟩, b, rfl⟩ := h
  rfl

/-- Nothing happens once both clients have come to an end. -/
theorem after_of_isFinished {m : Nat} (h : (x.after clerk turns m).IsFinished) (n : Nat) :
    x.after clerk turns (m + n) = x.after clerk turns m := by
  induction n with
  | zero => rfl
  | succ n ih =>
    have hstep : (x.after clerk turns m).step clerk (turns (m + n)) = x.after clerk turns m := by
      generalize x.after clerk turns m = y at h
      obtain ⟨s, t, state⟩ := y
      obtain ⟨⟨a, rfl⟩, b, rfl⟩ := h
      rfl
    rw [← Nat.add_assoc, after, ih, hstep]

/-- What every call of either client keeps is kept by a step. -/
theorem step_induction {Inv : Clients α β σ → Prop} {P : Call → σ → Prop} {turn : Bool}
    (hfirst : ∀ c next t state, P c state → Inv ⟨.call c next, t, state⟩ →
      Inv ⟨next (clerk c state).1, t, (clerk c state).2⟩)
    (hsecond : ∀ s c next state, P c state → Inv ⟨s, .call c next, state⟩ →
      Inv ⟨s, next (clerk c state).1, (clerk c state).2⟩)
    (h : Inv x) (hP : ∀ c, x.call? turn = some c → P c x.state) : Inv (x.step clerk turn) := by
  obtain ⟨s, t, state⟩ := x
  cases s with
  | done a =>
    cases t with
    | done b => exact h
    | call c next => exact hsecond _ c next state (hP c rfl) h
  | call c next =>
    cases t with
    | done b => exact hfirst c next _ state (hP c rfl) h
    | call c' next' =>
      cases turn with
      | true => exact hfirst c next _ state (hP c rfl) h
      | false => exact hsecond _ c' next' state (hP c' rfl) h

/-- What every call of either client keeps is kept by a run. -/
theorem after_induction {Inv : Clients α β σ → Prop} {P : Call → σ → Prop}
    (hfirst : ∀ c next t state, P c state → Inv ⟨.call c next, t, state⟩ →
      Inv ⟨next (clerk c state).1, t, (clerk c state).2⟩)
    (hsecond : ∀ s c next state, P c state → Inv ⟨s, .call c next, state⟩ →
      Inv ⟨s, next (clerk c state).1, (clerk c state).2⟩)
    (h : Inv x) (hP : x.Always clerk turns P) (n : Nat) : Inv (x.after clerk turns n) := by
  induction n with
  | zero => exact h
  | succ n ih => exact step_induction hfirst hsecond ih (hP n)

end Clients

end Marginalia
