import Marginalia.Proofs.Collection.Lookup
import Marginalia.Proofs.Text.Context
import Marginalia.TagSet

set_option autoImplicit false

/-!
# Which tags are found

A text carries a tag when the lowered tag is found in the lowered text.  Tag and text are
lowered apart, so a tag that is a part of the text is found if it is lowered there as it is
alone.  That is so for all tags that tell the forms of their capital sigmas, and for no
others: a tag that ends in a sigma is lowered to the final form, which the sigma does not
have where the word goes on.
-/

namespace Marginalia

open Marginalia.Text

/-! ## The tags of a set -/

theorem mem_distinctSorted {texts : List String} {t : String} :
    t ∈ distinctSorted texts ↔ t ∈ texts := by
  rw [distinctSorted, Index.mem_keys_ofList, List.map_map]
  exact Eq.to_iff (congrArg (t ∈ ·) (List.map_id texts))

namespace TagSet

/-- The normal form of a tag is what is left of it after trimming, lowered. -/
theorem normalTag?_eq_some_iff {tag form : String} :
    normalTag? tag = some form ↔
      trim tag.toList ≠ [] ∧ form.toList = lower (trim tag.toList) := by
  rw [normalTag?, Ne, ← lower_eq_nil_iff]
  cases lower (trim tag.toList) with
  | nil => simp
  | cons c rest =>
    rw [Option.some.injEq, ← String.toList_inj, String.toList_ofList]
    exact ⟨fun h => ⟨List.cons_ne_nil _ _, h.symm⟩, fun h => h.2.symm⟩

/-- The words that a set is made of: those of the tags, or of the default ones if these have
none. -/
def chosenWords (tags : List String) : List String :=
  (if tags.filterMap normalTag? = [] then defaultTags else tags).filterMap normalTag?

theorem chosenWords_of_ne_nil {tags : List String} (h : tags.filterMap normalTag? ≠ []) :
    chosenWords tags = tags.filterMap normalTag? := by
  rw [chosenWords, if_neg h]

theorem chosenWords_of_eq_nil {tags : List String} (h : tags.filterMap normalTag? = []) :
    chosenWords tags = defaultTags.filterMap normalTag? := by
  rw [chosenWords, if_pos h]

theorem default_words : defaultTags.filterMap normalTag? = ["todo", "fixme"] := by decide +kernel

theorem chosenWords_ne_nil (tags : List String) : chosenWords tags ≠ [] := by
  by_cases h : tags.filterMap normalTag? = []
  · rw [chosenWords_of_eq_nil h, default_words]
    exact List.cons_ne_nil _ _
  · rwa [chosenWords_of_ne_nil h]

theorem ofList_eq (tags : List String) : ofList tags = ⟨distinctSorted (chosenWords tags)⟩ := by
  unfold ofList
  split
  · rename_i hnil
    rw [chosenWords_of_eq_nil hnil]
  · rename_i first rest hforms
    rw [chosenWords_of_ne_nil (by rw [hforms]; exact List.cons_ne_nil _ _), hforms]

theorem mem_tags_ofList {tags : List String} {form : String} :
    form ∈ (ofList tags).tags ↔ form ∈ chosenWords tags := by
  rw [ofList_eq, mem_distinctSorted]

/-- A set has the normal forms of the tags that it is made of, unless all are blank. -/
theorem mem_ofList_iff {tags : List String} (h : ∃ tag ∈ tags, trim tag.toList ≠ [])
    {form : String} :
    form ∈ (ofList tags).tags ↔
      ∃ tag ∈ tags, trim tag.toList ≠ [] ∧ form.toList = lower (trim tag.toList) := by
  obtain ⟨tag, hmem, hword⟩ := h
  have hsome : String.ofList (lower (trim tag.toList)) ∈ tags.filterMap normalTag? :=
    List.mem_filterMap.2 ⟨tag, hmem, normalTag?_eq_some_iff.2 ⟨hword, String.toList_ofList⟩⟩
  rw [mem_tags_ofList, chosenWords_of_ne_nil (List.ne_nil_of_mem hsome), List.mem_filterMap]
  simp only [normalTag?_eq_some_iff]

theorem classify_eq_todo_iff {set : TagSet} {text : List Char} :
    set.classify text = .todo ↔ ∃ form ∈ set.tags, contains (lower text) form.toList = true := by
  rw [classify]
  simp

/-! ## Tags that are part of a text -/

/-- A tag that is not blank makes a comment of every text that holds it one to be done, in
every list of tags, exactly when it tells the forms of its capital sigmas. -/
theorem found_wherever_present_iff {tag : String} (hword : trim tag.toList ≠ []) :
    (∀ tags, tag ∈ tags → ∀ text, contains text (trim tag.toList) = true →
      (ofList tags).classify text = .todo) ↔ tellsForms (trim tag.toList) = true := by
  constructor
  · intro hfound
    by_contra hopen
    obtain ⟨before, after, hmisses⟩ := exists_not_contains_lower (Bool.eq_false_iff.2 hopen)
    have htodo := hfound [tag] List.mem_cons_self (before ++ trim tag.toList ++ after)
      ((contains_iff _ _).2 ⟨before, after, rfl⟩)
    obtain ⟨form, hform, hcontains⟩ := classify_eq_todo_iff.1 htodo
    obtain ⟨other, hother, -, hlower⟩ :=
      (mem_ofList_iff ⟨tag, List.mem_cons_self, hword⟩).1 hform
    rw [hlower, List.mem_singleton.1 hother, hmisses] at hcontains
    cases hcontains
  · intro htells tags hmem text hpresent
    obtain ⟨before, after, rfl⟩ := (contains_iff _ _).1 hpresent
    refine classify_eq_todo_iff.2 ⟨String.ofList (lower (trim tag.toList)), ?_, ?_⟩
    · exact (mem_ofList_iff ⟨tag, hmem, hword⟩).2 ⟨tag, hmem, hword, String.toList_ofList⟩
    · rw [String.toList_ofList, lower_append_append, lowerWithin_of_tellsForms htells]
      exact (contains_iff _ _).2 ⟨_, _, rfl⟩

/-- The sigma of this tag has a letter before it and a mark after it that is not ignored. -/
theorem found_wherever_present_iff_marked :
    trim " ΠΡΟΣ! ".toList ≠ [] ∧ ∀ tags, " ΠΡΟΣ! " ∈ tags → ∀ text,
      contains text (trim " ΠΡΟΣ! ".toList) = true → (ofList tags).classify text = .todo := by
  have hword : trim " ΠΡΟΣ! ".toList ≠ [] := by decide
  exact ⟨hword, (found_wherever_present_iff hword).2 (by decide +kernel)⟩

/-- A tag that ends in a sigma is not found where the word goes on. -/
theorem misses_present_tag :
    trim "ΠΡΟΣ".toList ≠ [] ∧ contains "ΠΡΟΣΟΧΗ".toList (trim "ΠΡΟΣ".toList) = true ∧
      (ofList ["ΠΡΟΣ"]).classify "ΠΡΟΣΟΧΗ".toList = .note := by
  decide +kernel

end TagSet

end Marginalia
