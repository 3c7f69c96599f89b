import Marginalia.Language.Registry
import Marginalia.Proofs.Collection.Lookup
import Marginalia.Proofs.Text.Lower
import Mathlib.Data.List.Induction

set_option autoImplicit false

/-!
# Registries

The form in which an extension is looked up is its own normal form.  A registry is
made by registering, so its extensions are in this form, and it does not matter how
often an extension is brought into it before it is looked up.  What is found is what was
registered last for the form.
-/

namespace Marginalia.Language

open Marginalia.Text

theorem dropWhile_eq_self {s : List Char} (h : s.head? ≠ some '.') :
    s.dropWhile (· == '.') = s := by
  cases s with
  | nil => rfl
  | cons c s => exact List.dropWhile_cons_of_neg fun hc => h (by simpa using hc)

theorem normalExtension_normalExtension (extension : String) :
    normalExtension (normalExtension extension) = normalExtension extension := by
  have hhead : (extension.toList.dropWhile (· == '.')).head? ≠ some '.' := by
    intro h
    have hnot := List.head?_dropWhile_not (· == '.') extension.toList
    rw [h] at hnot
    cases hnot
  simp only [normalExtension, String.toList_ofList]
  rw [dropWhile_eq_self (head?_lower_ne_dot hhead), lower_lower]

namespace Registry

/-- A registry made by registering. -/
inductive IsBuilt : Registry → Prop
  | empty : IsBuilt .empty
  | register {r : Registry} (before : IsBuilt r) (extension : String) (e : Extractor) :
      IsBuilt (r.register extension e)

theorem mem_extensions_iff (r : Registry) (extension : String) :
    extension ∈ r.extensions ↔ ∃ e, r.extractors.get? extension = some e := by
  rw [extensions, Index.keys, List.mem_map]
  constructor
  · rintro ⟨e, he, rfl⟩
    exact ⟨e.2, (Index.mem_entries_iff _ _ _).1 he⟩
  · rintro ⟨e, he⟩
    exact ⟨(extension, e), (Index.mem_entries_iff _ _ _).2 he, rfl⟩

/-- The extensions of a registry are in normal form. -/
theorem IsBuilt.normal {r : Registry} (h : r.IsBuilt) :
    ∀ extension ∈ r.extensions, normalExtension extension = extension := by
  induction h with
  | empty => exact fun _ hx => absurd hx List.not_mem_nil
  | register _ extension e ih =>
    intro x hx
    obtain ⟨f, hf⟩ := (mem_extensions_iff _ x).1 hx
    rw [Registry.register, Index.get?_insert] at hf
    split at hf
    · rename_i heq
      rw [heq, normalExtension_normalExtension]
    · exact ih x ((mem_extensions_iff _ x).2 ⟨f, hf⟩)

/-- A property of the registry of all languages that come with the library, by way of
the registrations that make it. -/
theorem standard_induction {P : Registry → Prop} (hempty : P empty)
    (hregister : ∀ r extension x, (x = .python ∨ ∃ rule, Extractor.ofRule? rule = some x) →
      P r → P (r.register extension x)) : P standard := by
  have hall : ∀ (extensions : List String) (r : Registry) (x : Extractor),
      (x = .python ∨ ∃ rule, Extractor.ofRule? rule = some x) → P r →
        P (r.registerAll extensions x) := by
    intro extensions
    induction extensions with
    | nil => exact fun _ _ _ h => h
    | cons extension extensions ih => exact fun r x hx h => ih _ x hx (hregister r extension x hx h)
  have hrules : ∀ (rules : List Rule) (r : Registry), P r → P (rules.foldl registerRule r) := by
    intro rules
    induction rules with
    | nil => exact fun _ h => h
    | cons rule rules ih =>
      refine fun r h => ih _ ?_
      unfold registerRule
      split
      · rename_i x hx
        exact hall rule.extensions r x (.inr ⟨rule, hx⟩) h
      · exact h
  exact hregister _ "py" .python (.inl rfl) (hrules builtinRules empty hempty)

theorem isBuilt_standard : standard.IsBuilt :=
  standard_induction .empty fun _ extension x _ h => h.register extension x

theorem get?_normalExtension (r : Registry) (extension : String) :
    r.get? (normalExtension extension) = r.get? extension := by
  rw [get?, get?, normalExtension_normalExtension]

/-! ## Looking up what was registered -/

theorem get?_register (r : Registry) (extension other : String) (x : Extractor) :
    (r.register extension x).get? other =
      if normalExtension other = normalExtension extension then some x else r.get? other := by
  rw [get?, Registry.register, Index.get?_insert]
  rfl

theorem get?_registerAll (r : Registry) (extensions : List String) (other : String)
    (x : Extractor) :
    (r.registerAll extensions x).get? other =
      if normalExtension other ∈ extensions.map normalExtension then some x else r.get? other := by
  unfold registerAll
  induction extensions generalizing r with
  | nil => rfl
  | cons extension extensions ih =>
    rw [List.foldl_cons, ih, get?_register, List.map_cons]
    by_cases hrest : normalExtension other ∈ extensions.map normalExtension
    · rw [if_pos hrest, if_pos (List.mem_cons_of_mem _ hrest)]
    · simp only [hrest, if_false, List.mem_cons, or_false]

/-- A rule whose patterns can be read is found under its extensions, and under no others. -/
theorem get?_registerRule {rule : Rule} {x : Extractor} (hx : Extractor.ofRule? rule = some x)
    (r : Registry) (other : String) :
    (r.registerRule rule).get? other =
      if normalExtension other ∈ rule.extensions.map normalExtension then some x
      else r.get? other := by
  rw [registerRule, hx]
  exact get?_registerAll r _ other x

theorem get?_foldl_of_not_mem {rules : List Rule}
    (hread : ∀ rule ∈ rules, ∃ x, Extractor.ofRule? rule = some x) {other : String}
    (hother : ∀ rule ∈ rules, normalExtension other ∉ rule.extensions.map normalExtension)
    (r : Registry) : (rules.foldl registerRule r).get? other = r.get? other := by
  induction rules generalizing r with
  | nil => rfl
  | cons rule rules ih =>
    obtain ⟨x, hx⟩ := hread rule List.mem_cons_self
    rw [List.foldl_cons, ih (fun s hs => hread s (List.mem_cons_of_mem _ hs))
      fun s hs => hother s (List.mem_cons_of_mem _ hs), get?_registerRule hx,
      if_neg (hother rule List.mem_cons_self)]

/-- Where no two rules share an extension, each is found under its own. -/
theorem get?_foldl_registerRule {rules : List Rule}
    (hread : ∀ rule ∈ rules, ∃ x, Extractor.ofRule? rule = some x)
    (hapart : rules.Pairwise fun a b =>
      ∀ extension ∈ a.extensions, normalExtension extension ∉ b.extensions.map normalExtension)
    {rule : Rule} (hrule : rule ∈ rules) {extension : String}
    (hextension : extension ∈ rule.extensions) (r : Registry) :
    (rules.foldl registerRule r).get? extension = Extractor.ofRule? rule := by
  induction rules generalizing r with
  | nil => exact absurd hrule List.not_mem_nil
  | cons first rules ih =>
    obtain ⟨hfirst, hrest⟩ := List.pairwise_cons.1 hapart
    have hreadRest := fun s hs => hread s (List.mem_cons_of_mem _ hs)
    rw [List.foldl_cons]
    rcases List.mem_cons.1 hrule with rfl | hrule
    · obtain ⟨x, hx⟩ := hread rule List.mem_cons_self
      rw [get?_foldl_of_not_mem hreadRest fun s hs => hfirst s hs extension hextension,
        get?_registerRule hx, if_pos (List.mem_map.2 ⟨extension, hextension, rfl⟩), hx]
    · exact ih hreadRest hrest hrule _

/-! ## What was registered last -/

/-- The registry that registrations, one after the other, make of the one without
languages. -/
def registered (calls : List (String × Extractor)) : Registry :=
  calls.foldl (fun r call => r.register call.1 call.2) empty

variable {calls : List (String × Extractor)} {extension : String} {x : Extractor}

theorem registered_concat (calls : List (String × Extractor)) (call : String × Extractor) :
    registered (calls ++ [call]) = (registered calls).register call.1 call.2 := by
  rw [registered, List.foldl_append]
  rfl

theorem isBuilt_registered (calls : List (String × Extractor)) : (registered calls).IsBuilt := by
  induction calls using List.reverseRecOn with
  | nil => exact .empty
  | append_singleton calls call ih =>
    rw [registered_concat]
    exact ih.register call.1 call.2

theorem get?_registered (calls : List (String × Extractor)) (extension : String) :
    (registered calls).get? extension =
      (calls.reverse.find? fun call => normalExtension call.1 == normalExtension extension).map
        (·.2) := by
  induction calls using List.reverseRecOn with
  | nil => rfl
  | append_singleton calls call ih =>
    rw [registered_concat, get?_register, List.reverse_concat]
    by_cases hsame : normalExtension extension = normalExtension call.1
    · rw [if_pos hsame, List.find?_cons_of_pos (by simp [hsame]), Option.map_some]
    · rw [if_neg hsame, List.find?_cons_of_neg (by simp [Ne.symm hsame]), ih]

/-- Whether an extractor was registered for an extension, and none after it. -/
def IsLast (calls : List (String × Extractor)) (extension : String) (x : Extractor) : Prop :=
  ∃ before key after, calls = before ++ (key, x) :: after ∧
    normalExtension key = normalExtension extension ∧
    ∀ call ∈ after, normalExtension call.1 ≠ normalExtension extension

theorem get?_registered_eq_some_iff :
    (registered calls).get? extension = some x ↔ IsLast calls extension x := by
  simp only [get?_registered, Option.map_eq_some_iff, List.find?_eq_some_iff_append, beq_iff_eq,
    Bool.not_eq_true', beq_eq_false_iff_ne]
  constructor
  · rintro ⟨⟨key, x⟩, ⟨hkey, after, before, hsplit, hafter⟩, rfl⟩
    refine ⟨before.reverse, key, after.reverse, ?_, hkey, fun call hcall => ?_⟩
    · rw [← List.reverse_reverse calls, hsplit]
      simp
    · exact hafter call (List.mem_reverse.1 hcall)
  · rintro ⟨before, key, after, rfl, hkey, hafter⟩
    refine ⟨(key, x), ⟨hkey, after.reverse, before.reverse, by simp, fun call hcall => ?_⟩, rfl⟩
    exact hafter call (List.mem_reverse.1 hcall)

theorem get?_registered_eq_none_iff :
    (registered calls).get? extension = none ↔
      ∀ call ∈ calls, normalExtension call.1 ≠ normalExtension extension := by
  simp only [get?_registered, Option.map_eq_none_iff, List.find?_eq_none, List.mem_reverse,
    beq_iff_eq]

/-- The extensions of a registry are those under which something is found as they are. -/
theorem IsBuilt.mem_extensions_iff_isSome {r : Registry} (h : r.IsBuilt) :
    extension ∈ r.extensions ↔
      normalExtension extension = extension ∧ (r.get? extension).isSome := by
  rw [mem_extensions_iff, ← Option.isSome_iff_exists]
  constructor
  · intro hsome
    have hnormal := h.normal extension
      ((mem_extensions_iff r extension).2 (Option.isSome_iff_exists.1 hsome))
    exact ⟨hnormal, by rwa [get?, hnormal]⟩
  · rintro ⟨hnormal, hsome⟩
    rwa [get?, hnormal] at hsome

/-- The extensions of a registry are the normal forms of those that were registered. -/
theorem mem_extensions_registered_iff :
    extension ∈ (registered calls).extensions ↔
      ∃ call ∈ calls, normalExtension call.1 = extension := by
  rw [(isBuilt_registered calls).mem_extensions_iff_isSome, Option.isSome_iff_ne_none, Ne,
    get?_registered_eq_none_iff]
  constructor
  · rintro ⟨hnormal, hsome⟩
    simp only [not_forall, not_not] at hsome
    obtain ⟨call, hcall, hkey⟩ := hsome
    exact ⟨call, hcall, hkey.trans hnormal⟩
  · rintro ⟨call, hcall, rfl⟩
    have hidem := normalExtension_normalExtension call.1
    exact ⟨hidem, fun hnone => hnone call hcall hidem.symm⟩

end Registry

end Marginalia.Language
