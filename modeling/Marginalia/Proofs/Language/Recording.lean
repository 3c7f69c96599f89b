import Marginalia.Proofs.Language.Merging
import Marginalia.Proofs.Language.Registry

set_option autoImplicit false

/-!
# The path on a comment

An extractor writes the path it is given on every comment it finds.  The extractors
that choose among what finders find do so and those that merge lines, and with them all
that come with the library.
-/

namespace Marginalia.Language

/-- Whether an extractor writes the path it is given on every comment. -/
def Extractor.RecordsPath (x : Extractor) : Prop :=
  ∀ filepath text tags comments, x.extract filepath text tags = some comments →
    ∀ c ∈ comments, c.filepath = filepath

/-- Whether all extractors of a registry write the path they are given. -/
def Registry.RecordPaths (r : Registry) : Prop :=
  ∀ extension x, r.get? extension = some x → x.RecordsPath

/-! ## Extractors -/

theorem recordsPath_ofFinders (name : String) (finders : List Finder) :
    (Extractor.ofFinders name finders).RecordsPath := by
  rintro filepath text tags comments hcomments c hc
  rw [← Option.some.inj hcomments] at hc
  obtain ⟨span, -, rfl⟩ := List.mem_map.1 hc
  rfl

theorem recordsPath_ofLines (name : String) (lines : List Char → List LineComment) :
    (Extractor.ofLines name lines).RecordsPath := by
  rintro filepath text tags comments hcomments c hc
  rw [← Option.some.inj hcomments] at hc
  exact forall_mem_mergeLines (motive := fun m => m.filepath = filepath) (fun _ => rfl)
    (fun _ _ h _ => h) c hc

/-! ## Registries -/

namespace Registry

theorem recordPaths_empty : empty.RecordPaths := fun _ _ h => nomatch h

theorem RecordPaths.register {r : Registry} (h : r.RecordPaths) (extension : String)
    {x : Extractor} (hx : x.RecordsPath) : (r.register extension x).RecordPaths := by
  intro other y hy
  rw [get?, Registry.register, Index.get?_insert] at hy
  split at hy
  · exact Option.some.inj hy ▸ hx
  · exact h other y hy

/-- Every extractor that comes with the library writes the path it is given. -/
theorem recordPaths_standard : standard.RecordPaths := by
  refine standard_induction recordPaths_empty fun r extension x hx h => h.register extension ?_
  rcases hx with rfl | ⟨rule, hrule⟩
  · exact recordsPath_ofLines "python" pythonLines
  · obtain ⟨finders, -, rfl⟩ := Option.map_eq_some_iff.1 hrule
    exact recordsPath_ofFinders rule.name finders

end Registry

end Marginalia.Language
