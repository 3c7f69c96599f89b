import Marginalia.Proofs.Store.Listing
import Marginalia.Proofs.Text.Letters

set_option autoImplicit false

/-!
# Searching without regard to case

A search looks for a text with the letters A to Z in either case, and with all other
characters as they are.  So two queries that are lowered to the same text have the same
answers in all stores exactly when they differ in the case of letters A to Z only, and not
in that of an umlaut.  This is also when the one is found in every note that holds the other
as it is.
-/

namespace Marginalia

open Marginalia.Text (lower lowerAscii AreRecased)

/-! ## Queries -/

namespace Store

variable {s : Store} {query : String} {n : Note}

/-- Whether a search succeeds and a note is among those it shows. -/
def Finds (s : Store) (query : String) (n : Note) : Prop :=
  ∃ found, s.search query = .ok found ∧ n ∈ found

/-- The notes that a search finds, of those that are listed. -/
theorem Views.finds_iff {notes : List Note} (h : s.Views notes) :
    s.Finds query n ↔ n ∈ notes ∧ lowerAscii query.toList <:+: lowerAscii n.text.toList := by
  simp only [Finds, h.search, Except.ok.injEq, exists_eq_left', List.mem_filter,
    decide_eq_true_iff]

/-- Queries that differ in the case of letters A to Z only are the same query. -/
theorem search_congr {q v : String} (h : AreRecased q.toList v.toList) (s : Store) :
    s.search q = s.search v := by
  have htest : (matchesText · q) = (matchesText · v) := by
    funext text
    rw [matchesText, matchesText, Text.lowerAscii_eq_iff.2 h]
  unfold search
  rw [htest]

end Store

namespace Operation

/-! ## A store with one note -/

/-- A note with a text. -/
def noteSaying (text : String) : Note := { strayNote with text := text }

/-- The note is added to a new store. -/
def adding (text : String) : List (Operation × Mishaps) := creating [noteSaying text]

theorem run_adding (text : String) :
    run (adding text) = ⟨[.ofNote (noteSaying text)], [⟨(noteSaying text).id.toText, text⟩]⟩ := by
  rw [show run (adding text) = (perform (.create (noteSaying text)) [] .empty).2 from rfl,
    perform_nil]
  rfl

theorem all_adding (text : String) : (run (adding text)).all = .ok [noteSaying text] := by
  have htimes : strayNote.createdAt.IsRepresentable := by decide
  have hyears : strayNote.TimesWithin 0 9999 := by decide
  have hshown : (noteSaying text).shownTimes = noteSaying text := by
    have hstray : strayNote.createdAt.shown = strayNote.createdAt := by decide
    exact congrArg (fun t => { noteSaying text with createdAt := t, updatedAt := t }) hstray
  have htext : (run (adding text)).textOf? (noteSaying text).id.toText = some text := by
    refine (intact_run (adding text)).textOf?_eq (x := ⟨(noteSaying text).id.toText, text⟩) ?_
    rw [run_adding]
    exact List.mem_singleton.2 rfl
  have hread : (run (adding text)).readRow (.ofNote (noteSaying text)) = .ok (noteSaying text) := by
    have hread := Row.read_ofNote (n := noteSaying text) htimes htimes hyears
    rw [hshown] at hread
    refine Store.readRow_eq_ok_iff.2 ?_
    rw [show (Row.ofNote (noteSaying text)).id = (noteSaying text).id.toText from rfl, htext]
    exact hread
  rw [Store.all, Store.select, List.filter_true, Store.ordered, mapM_eq_ok_iff,
    show (run (adding text)).notes = [.ofNote (noteSaying text)] by rw [run_adding],
    List.mergeSort_singleton]
  exact .cons hread .nil

theorem views_adding (text : String) : (run (adding text)).Views [noteSaying text] :=
  (intact_run (adding text)).views (all_adding text)

/-- A query that is found in a note that says another one differs from it in the case of
letters A to Z only, if both are lowered to the same text. -/
theorem areRecased_of_finds {q v : String} (h : lower q.toList = lower v.toList)
    (hfinds : (run (adding q)).Finds v (noteSaying q)) : AreRecased q.toList v.toList := by
  obtain ⟨-, hpart⟩ := (views_adding q).finds_iff.1 hfinds
  exact Text.lowerAscii_eq_iff.1 (Text.lowerAscii_eq_of_infix h.symm hpart).symm

/-! ## All stores -/

/-- Two queries that are lowered to the same text show the same notes in all stores that can
be read exactly when they differ in the case of letters A to Z only; and this is when each
note that holds the one as it is is found by the other. -/
theorem searches_ignore_case_iff {q v : String} (h : lower q.toList = lower v.toList) :
    ((∀ ops, (run ops).IsReadable →
        ∃ found, (run ops).search q = .ok found ∧ (run ops).search v = .ok found) ↔
      AreRecased q.toList v.toList) ∧
    ((∀ ops notes, (run ops).all = .ok notes → ∀ n ∈ notes, q.toList <:+: n.text.toList →
        (run ops).Finds v n) ↔
      AreRecased q.toList v.toList) := by
  have hlone : noteSaying q ∈ [noteSaying q] := List.mem_singleton.2 rfl
  refine ⟨⟨fun hsame => ?_, fun hrecased ops hreadable => ?_⟩,
    ⟨fun hfound => ?_, fun hrecased ops notes hall n hn hpart => ?_⟩⟩
  · obtain ⟨found, hq, hv⟩ := hsame (adding q) ⟨_, all_adding q⟩
    obtain ⟨shown, hshown, hmem⟩ : (run (adding q)).Finds q (noteSaying q) :=
      (views_adding q).finds_iff.2 ⟨hlone, List.infix_rfl⟩
    rw [hq, Except.ok.injEq] at hshown
    exact areRecased_of_finds h ⟨found, hv, hshown ▸ hmem⟩
  · obtain ⟨notes, hall⟩ := hreadable
    have hviews := (intact_run ops).views hall
    exact ⟨_, hviews.search q, Store.search_congr hrecased (run ops) ▸ hviews.search q⟩
  · exact areRecased_of_finds h (hfound (adding q) _ (all_adding q) _ hlone List.infix_rfl)
  · refine ((intact_run ops).views hall).finds_iff.2 ⟨hn, ?_⟩
    rw [← Text.lowerAscii_eq_iff.2 hrecased]
    exact hpart.map _

/-- The umlaut stands in one case in both queries, and the other letters do not. -/
theorem searches_ignore_case_iff_umlaut :
    lower "Äpfel".toList = lower "ÄPFEL".toList ∧
      (∀ ops, (run ops).IsReadable → ∃ found, (run ops).search "Äpfel" = .ok found ∧
        (run ops).search "ÄPFEL" = .ok found) ∧
      ∀ ops notes, (run ops).all = .ok notes → ∀ n ∈ notes, "Äpfel".toList <:+: n.text.toList →
        (run ops).Finds "ÄPFEL" n := by
  have h : lower "Äpfel".toList = lower "ÄPFEL".toList := by decide +kernel
  have hrecased : AreRecased "Äpfel".toList "ÄPFEL".toList :=
    Text.lowerAscii_eq_iff.1 (by decide)
  exact ⟨h, (searches_ignore_case_iff h).1.2 hrecased, (searches_ignore_case_iff h).2.2 hrecased⟩

/-- A note that holds one of two queries is not found by the other, whose umlaut is small. -/
theorem search_misses_umlaut :
    lower "Äpfel".toList = lower "äpfel".toList ∧
      (run (adding "Äpfel")).all = .ok [noteSaying "Äpfel"] ∧
      "Äpfel".toList <:+: (noteSaying "Äpfel").text.toList ∧
      (run (adding "Äpfel")).search "Äpfel" = .ok [noteSaying "Äpfel"] ∧
      (run (adding "Äpfel")).search "äpfel" = .ok [] := by
  have hviews := views_adding "Äpfel"
  refine ⟨by decide +kernel, all_adding _, List.infix_rfl, ?_, ?_⟩
  · rw [hviews.search, List.filter_cons_of_pos (by decide), List.filter_nil]
  · rw [hviews.search, List.filter_cons_of_neg (by decide), List.filter_nil]

end Operation

end Marginalia
