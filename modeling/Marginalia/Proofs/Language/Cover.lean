import Marginalia.Proofs.Language.Scan

set_option autoImplicit false

/-!
# The cover of all matches

The choice among what several finders find does not depend on how it is made.  The
chosen spans lie apart, all that is found starts within one of them, and nothing is
longer at the same start.  Only one list of spans is so, whatever the finders are:
what they find may be nested, cross each other, touch or be equal.
-/

namespace Marginalia.Language

open Marginalia.Pattern (Machine Span)

variable {l us : List Span}

/-- Whether spans are a cover of all that is found in a text. -/
structure IsCover (l us : List Span) : Prop where
  /-- each is found -/
  among : ∀ u ∈ us, u ∈ l
  /-- they start one after the other and do not overlap -/
  apart : us.Pairwise fun a b =>
    a.first.offset < b.first.offset ∧ a.last.offset ≤ b.first.offset
  /-- all that is found starts within one of them -/
  covers : ∀ s ∈ l, ∃ u ∈ us,
    u.first.offset ≤ s.first.offset ∧ s.first.offset < u.last.offset
  /-- none that is found is longer and starts where one of them does -/
  longest : ∀ s ∈ l, ∀ u ∈ us,
    u.first.offset = s.first.offset → s.last.offset ≤ u.last.offset

/-! ## What is chosen stands for all -/

namespace StandFor

variable {covered : Nat} {a : Span}

/-- Spans stand for one more when it starts too early to count. -/
theorem unskip (h : StandFor covered us l) (hbefore : a.first.offset < covered)
    (hsorted : (a :: l).Pairwise fun a b => comesFirst a b = true) :
    StandFor covered us (a :: l) := by
  refine ⟨hsorted, h.apart, ?_, ?_, ?_⟩
  · intro u hu
    obtain ⟨hul, hfrom, hlt⟩ := h.among u hu
    exact ⟨List.mem_cons_of_mem a hul, hfrom, hlt⟩
  · intro s hs hfrom
    rcases List.mem_cons.1 hs with rfl | hs
    · exact absurd hfrom (Nat.not_le_of_lt hbefore)
    · exact h.covers s hs hfrom
  · intro u hu s hs hfirst hlast
    rcases List.mem_cons.1 hs with rfl | hs
    · have := (h.among u hu).2.1
      omega
    · exact h.same u hu s hs hfirst hlast

/-- A span and spans that stand for all from its end on stand for all from its start on. -/
theorem untake (h : StandFor a.last.offset us l) (hfrom : covered ≤ a.first.offset)
    (hlt : a.first.offset < a.last.offset)
    (hsorted : (a :: l).Pairwise fun a b => comesFirst a b = true)
    (hsame : ∀ s ∈ l, a.first.offset = s.first.offset → a.last.offset = s.last.offset → a = s) :
    StandFor covered (a :: us) (a :: l) := by
  refine ⟨hsorted, ?_, ?_, ?_, ?_⟩
  · exact List.pairwise_cons.2 ⟨fun u hu => (h.among u hu).2.1, h.apart⟩
  · intro u hu
    rcases List.mem_cons.1 hu with rfl | hu
    · exact ⟨List.mem_cons_self, hfrom, hlt⟩
    · obtain ⟨hul, hbehind, hult⟩ := h.among u hu
      exact ⟨List.mem_cons_of_mem a hul, by omega, hult⟩
  · intro s hs _
    rcases List.mem_cons.1 hs with rfl | hs
    · exact ⟨s, List.mem_cons_self, Nat.le_refl _, hlt, fun _ => Nat.le_refl _⟩
    · have hfirst := List.rel_of_pairwise_cons hsorted hs
      rw [comesFirst_iff] at hfirst
      -- the span itself stands for those that start before its end
      rcases Nat.lt_or_ge s.first.offset a.last.offset with hinside | hbehind
      · exact ⟨a, List.mem_cons_self, by omega, hinside, by omega⟩
      · obtain ⟨u, hu, hcovers⟩ := h.covers s hs hbehind
        exact ⟨u, List.mem_cons_of_mem a hu, hcovers⟩
  · intro u hu s hs hfirst hlast
    rcases List.mem_cons.1 hu with rfl | hus
    · rcases List.mem_cons.1 hs with rfl | hsl
      · rfl
      · exact hsame s hsl hfirst hlast
    · rcases List.mem_cons.1 hs with rfl | hsl
      · have := (h.among u hus).2.1
        omega
      · exact h.same u hus s hsl hfirst hlast

end StandFor

/-- What is chosen from spans in the order of choice stands for all of them. -/
theorem standFor_disjointFrom {covered : Nat} {l : List Span}
    (hsorted : l.Pairwise fun a b => comesFirst a b = true)
    (hlt : ∀ s ∈ l, s.first.offset < s.last.offset)
    (hsame : ∀ a ∈ l, ∀ b ∈ l, a.first.offset = b.first.offset →
      a.last.offset = b.last.offset → a = b) :
    StandFor covered (disjointFrom covered l) l := by
  induction l generalizing covered with
  | nil => exact ⟨.nil, .nil, nofun, nofun, nofun⟩
  | cons a l ih =>
    have hlater : ∀ {covered}, StandFor covered (disjointFrom covered l) l :=
      ih hsorted.tail (fun s hs => hlt s (List.mem_cons_of_mem a hs))
        fun b hb c hc => hsame b (List.mem_cons_of_mem a hb) c (List.mem_cons_of_mem a hc)
    unfold disjointFrom
    split
    · rename_i hbefore
      exact hlater.unskip hbefore hsorted
    · rename_i hfrom
      refine hlater.untake (Nat.le_of_not_lt hfrom) (hlt a List.mem_cons_self) hsorted ?_
      exact fun s hs => hsame a List.mem_cons_self s (List.mem_cons_of_mem a hs)

/-- Spans that stand for all that is found are a cover of it. -/
theorem StandFor.isCover {finders : List Finder} {text : List Char}
    (h : StandFor 0 us (candidates finders text)) : IsCover (found finders text) us := by
  refine ⟨fun u hu => mem_candidates.1 (h.among u hu).1, ?_, ?_, ?_⟩
  · refine (List.Pairwise.and_mem.1 h.apart).imp ?_
    rintro a b ⟨ha, -, hle⟩
    exact ⟨Nat.lt_of_lt_of_le (h.among a ha).2.2 hle, hle⟩
  · intro s hs
    obtain ⟨u, hu, hle, hinside, -⟩ := h.covers s (mem_candidates.2 hs) (Nat.zero_le _)
    exact ⟨u, hu, hle, hinside⟩
  · intro s hs u hu hsame
    obtain ⟨v, hv, hle, hinside, hlonger⟩ := h.covers s (mem_candidates.2 hs) (Nat.zero_le _)
    have hone : v = u := by
      refine Span.eq_of_apart h.apart (fun u hu => (h.among u hu).2.2) hv hu ?_ ?_
      · rwa [hsame]
      · rwa [hsame]
    rw [← hone]
    exact hlonger (hone ▸ hsame)

/-! ## The only cover -/

section Sound

variable {finders : List Finder} {text : List Char} (hfinders : ∀ find ∈ finders, find.Sound)
include hfinders

theorem standFor_selected (text : List Char) :
    StandFor 0 (selected finders text) (candidates finders text) := by
  refine standFor_disjointFrom (pairwise_candidates finders text) ?_ ?_
  · exact fun s hs => (mem_found.1 (mem_candidates.1 hs)).2
  · intro a ha b hb
    exact eq_of_mem_found hfinders (mem_candidates.1 ha) (mem_candidates.1 hb)

/-- A cover stands for all that is found. -/
theorem IsCover.standFor (h : IsCover (found finders text) us) :
    StandFor 0 us (candidates finders text) := by
  refine ⟨pairwise_candidates finders text, h.apart.imp And.right, ?_, ?_, ?_⟩
  · intro u hu
    have hfound := h.among u hu
    exact ⟨mem_candidates.2 hfound, Nat.zero_le _, (mem_found.1 hfound).2⟩
  · intro s hs _
    obtain ⟨u, hu, hle, hinside⟩ := h.covers s (mem_candidates.1 hs)
    exact ⟨u, hu, hle, hinside, h.longest s (mem_candidates.1 hs) u hu⟩
  · intro u hu s hs
    exact eq_of_mem_found hfinders (h.among u hu) (mem_candidates.1 hs)

/-- The spans that are chosen are the only cover. -/
theorem isCover_iff : IsCover (found finders text) us ↔ us = selected finders text := by
  constructor
  · intro h
    exact (h.standFor hfinders).disjointFrom_eq.symm
  · rintro rfl
    exact (standFor_selected hfinders text).isCover

end Sound

end Marginalia.Language
