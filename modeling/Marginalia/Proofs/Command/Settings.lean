import Marginalia.Proofs.Command.FoundProject
import Marginalia.Proofs.Config.Lens

set_option autoImplicit false

/-!
# Settings that are changed by a command

A command that sets a setting either saves the settings with the new value or is refused,
and then everything is as it was.  Whatever was set before, the settings obey the laws of a
lens: to set what is shown changes nothing, to set one setting shows in no other, and of two
values that are set the last one counts.
-/

namespace Marginalia.Run

open Config (Key Refuses afterCalls)

variable {s : Session} {c : Config} {name v : String} {e : ConfigError}

/-- A change that is refused leaves everything as it is. -/
theorem run_configSet_of_error (hc : Config.discover s.tree s.place = .ok c)
    (hset : c.set name v = .error e) :
    (configSet name v).run.run s = (.error (.ofConfig e), s) := by
  unfold configSet
  rw [run_bind_of_ok (run_openConfig hc), hset, run_bind, run_orFail]

/-- Whatever was set or refused since a project was new: every setting but the source root
is set as it is by the text that it is shown as.  A setting that is set shows in no other, what
it was set to before has no part in what comes of it, and it is set as it is by the text that
it is shown as.  What is refused is an unknown name, the source root, a list without tags
and a number that is not in range; then the settings are as they were, and so is all that
the command was run on. -/
theorem set_obeys_lens_laws (root : Path) (calls : List (String × String)) (c : Config)
    (hc : afterCalls root calls = c) :
    (∀ key ≠ Key.sourceRoot, ∃ shown, c.get key.name = .ok shown ∧
      c.set key.name shown = .ok c) ∧
    (∀ name v c', c.set name v = .ok c' →
      afterCalls root (calls ++ [(name, v)]) = c' ∧
      (∀ other, other ≠ name → c'.get other = c.get other) ∧
      (∀ w, c'.set name w = c.set name w) ∧
      ∃ shown, c'.get name = .ok shown ∧ c'.set name shown = .ok c') ∧
    (∀ name v e, c.set name v = .error e ↔ Refuses name v e) ∧
    ∀ name v e, c.set name v = .error e →
      afterCalls root (calls ++ [(name, v)]) = c ∧
      ∀ s : Session, Config.discover s.tree s.place = .ok c →
        (configSet name v).run.run s = (.error (.ofConfig e), s) := by
  subst hc
  have htidy := Config.isTidy_afterCalls root calls
  refine ⟨fun key hkey => ?_, fun name v c' hset => ?_, fun name v e => Config.set_eq_error_iff,
    fun name v e hset => ?_⟩
  · exact ⟨_, Config.get_name _ key, htidy.set_value hkey⟩
  · obtain ⟨key, rfl, hsets⟩ := Config.set_eq_ok_iff.1 hset
    exact ⟨by rw [Config.afterCalls_append, hset]; rfl,
      fun other => Config.get_of_set_of_ne hset, Config.set_of_set hset, _, Config.get_name c' key,
      (htidy.of_sets hsets).set_value hsets.ne_sourceRoot⟩
  · refine ⟨by rw [Config.afterCalls_append, hset]; rfl, fun s hc => ?_⟩
    exact run_configSet_of_error hc hset

/-! ## A project whose settings are set loosely -/

/-- Calls with blanks, empty items, a sign and zeros, and two that are refused. -/
def looseCalls : List (String × String) :=
  [("tags", " TODO ,, fix me,"), ("workers", " +008 "), ("workers", "-1"), ("email", "  "),
   ("tags", ", ,")]

/-- The settings after these calls. -/
def looseConfig : Config :=
  { Config.ofRoot ⟨"/srv"⟩ with tags := ["TODO", "fix me"], workers := 8 }

theorem afterCalls_loose : afterCalls ⟨"/srv"⟩ looseCalls = looseConfig := by
  decide +kernel

/-- What is shown of the settings is set again, and a list without tags is refused. -/
theorem set_obeys_lens_laws_loose :
    looseConfig.set "tags" "TODO,fix me" = .ok looseConfig ∧
      looseConfig.set "workers" "8" = .ok looseConfig ∧
      looseConfig.set "tags" ", ," = .error (.invalidValue "tags" ", ,") ∧
      afterCalls ⟨"/srv"⟩ (looseCalls ++ [("tags", ", ,")]) = looseConfig := by
  obtain ⟨hshown, -, hrefuses, hkept⟩ :=
    set_obeys_lens_laws ⟨"/srv"⟩ looseCalls looseConfig afterCalls_loose
  have hblank : ∀ a ∈ (", ,").toList, a = ',' ∨ Text.isBlank a = true := by
    have hlist : (", ,").toList = [',', ' ', ','] := by decide
    have hspace : Text.isBlank ' ' = true := by decide
    simp [hlist, hspace]
  have hrefused : looseConfig.set "tags" ", ," = .error (.invalidValue "tags" ", ,") :=
    (hrefuses _ _ _).2 (.noTag hblank)
  obtain ⟨tags, htags, hsame⟩ := hshown .tags (by decide)
  obtain ⟨workers, hworkers, hkeeps⟩ := hshown .workers (by decide)
  cases htags.symm.trans (by decide +kernel : looseConfig.get "tags" = .ok "TODO,fix me")
  cases hworkers.symm.trans (by decide +kernel : looseConfig.get "workers" = .ok "8")
  exact ⟨hsame, hkeeps, hrefused, (hkept _ _ _ hrefused).1⟩

end Marginalia.Run
