import Marginalia.Proofs.TagSet
import Marginalia.Proofs.Text.Bytes
import Marginalia.Proofs.Text.LowerTrim
import Mathlib.Data.List.Sort
import Mathlib.Data.Set.Basic

set_option autoImplicit false

/-!
# Tags in one form

A set of tags depends on its words only: on the normal forms of the tags that are not blank,
whatever their order, their case, the blanks around them and how often they come.  It holds
these words in the order of their bytes, and it is the set that is made of them again.  Lists
without a word stand for the words of the default tags.
-/

namespace Marginalia

open Marginalia.Text

/-! ## Distinct texts in rising order -/

theorem pairwise_distinctSorted (texts : List String) :
    (distinctSorted texts).Pairwise (· < ·) :=
  Index.pairwise_keys _

/-- The order of texts and their repetitions do not count. -/
theorem distinctSorted_congr {texts others : List String} (h : ∀ t, t ∈ texts ↔ t ∈ others) :
    distinctSorted texts = distinctSorted others := by
  refine (pairwise_distinctSorted texts).eq_of_mem_iff (pairwise_distinctSorted others) fun t => ?_
  rw [mem_distinctSorted, mem_distinctSorted, h]

theorem distinctSorted_distinctSorted (texts : List String) :
    distinctSorted (distinctSorted texts) = distinctSorted texts :=
  distinctSorted_congr fun _ => mem_distinctSorted

namespace TagSet

/-! ## Words -/

/-- The words of a list of tags: what is left of each after trimming and lowering, if
anything is. -/
def words (tags : List String) : Set String :=
  {form | form ≠ "" ∧ ∃ tag ∈ tags, form.toList = lower (trim tag.toList)}

theorem mem_words_iff {tags : List String} {form : String} :
    form ∈ words tags ↔ form ∈ tags.filterMap normalTag? := by
  have hempty : form ≠ "" ↔ form.toList ≠ [] := (String.toList_eq_nil_iff).not.symm
  simp only [words, Set.mem_ofPred_eq, List.mem_filterMap, normalTag?_eq_some_iff]
  constructor
  · rintro ⟨hne, tag, htag, hform⟩
    refine ⟨tag, htag, fun hblank => hempty.1 hne ?_, hform⟩
    rw [hform, hblank]
    rfl
  · rintro ⟨tag, htag, hword, hform⟩
    refine ⟨hempty.2 fun hnil => hword ?_, tag, htag, hform⟩
    exact lower_eq_nil_iff.1 (hform.symm.trans hnil)

theorem words_eq_empty_iff {tags : List String} :
    words tags = ∅ ↔ tags.filterMap normalTag? = [] := by
  rw [Set.eq_empty_iff_forall_notMem, List.eq_nil_iff_forall_not_mem]
  simp only [mem_words_iff]

/-- A word is its own normal form. -/
theorem normalTag?_of_normalTag? {tag form : String} (h : normalTag? tag = some form) :
    normalTag? form = some form := by
  obtain ⟨hword, hform⟩ := normalTag?_eq_some_iff.1 h
  have htrim : trim form.toList = form.toList := by rw [hform, trim_lower_trim]
  refine normalTag?_eq_some_iff.2 ⟨fun hnil => hword ?_, ?_⟩
  · rw [htrim, hform] at hnil
    exact lower_eq_nil_iff.1 hnil
  · rw [htrim, hform, lower_lower]

/-! ## Sets of words -/

/-- The tags of a set are words in normal form. -/
theorem normalTag?_of_mem {tags : List String} {form : String} (h : form ∈ (ofList tags).tags) :
    normalTag? form = some form := by
  obtain ⟨tag, -, htag⟩ := List.mem_filterMap.1 (mem_tags_ofList.1 h)
  exact normalTag?_of_normalTag? htag

/-- Lists with the same words make the same set. -/
theorem ofList_congr {tags others : List String} (h : words tags = words others) :
    ofList tags = ofList others := by
  have hmem : ∀ form, form ∈ tags.filterMap normalTag? ↔ form ∈ others.filterMap normalTag? :=
    fun form => by rw [← mem_words_iff, h, mem_words_iff]
  have hnil : tags.filterMap normalTag? = [] ↔ others.filterMap normalTag? = [] := by
    rw [← words_eq_empty_iff, h, words_eq_empty_iff]
  have hchosen : ∀ form, form ∈ chosenWords tags ↔ form ∈ chosenWords others := by
    by_cases hblank : tags.filterMap normalTag? = []
    · rw [chosenWords_of_eq_nil hblank, chosenWords_of_eq_nil (hnil.1 hblank)]
      exact fun _ => Iff.rfl
    · rw [chosenWords_of_ne_nil hblank, chosenWords_of_ne_nil (hblank ∘ hnil.2)]
      exact hmem
  rw [ofList_eq, ofList_eq, distinctSorted_congr hchosen]

/-- The tags of a set make the set again. -/
theorem ofList_tags (tags : List String) : ofList (ofList tags).tags = ofList tags := by
  have hforms : (ofList tags).tags.filterMap normalTag? = (ofList tags).tags :=
    (List.filterMap_congr fun _ hform => normalTag?_of_mem hform).trans List.filterMap_some
  have hne : (ofList tags).tags ≠ [] := by
    obtain ⟨form, hform⟩ := List.exists_mem_of_ne_nil _ (chosenWords_ne_nil tags)
    exact List.ne_nil_of_mem (mem_tags_ofList.2 hform)
  rw [ofList_eq (ofList tags).tags, chosenWords_of_ne_nil (by rwa [hforms]), hforms, ofList_eq,
    distinctSorted_distinctSorted]

/-- The set that a list of tags makes depends on the words of the list only, and so does the
kind of every comment.  It holds these words, and the default ones in their place if there
are none; they rise strictly in the order of their bytes, none is empty, and they make the
set again. -/
theorem ofList_canonical (tags : List String) :
    (∀ others, words tags = words others → ofList tags = ofList others ∧
      ∀ text, (ofList tags).classify text = (ofList others).classify text) ∧
    ((words tags).Nonempty → ∀ form, form ∈ (ofList tags).tags ↔ form ∈ words tags) ∧
    (words tags = ∅ → (ofList tags).tags = ["fixme", "todo"]) ∧
    ((ofList tags).tags.Pairwise fun s t => bytes s < bytes t) ∧
    (∀ form ∈ (ofList tags).tags, form ≠ "") ∧
    ofList (ofList tags).tags = ofList tags := by
  refine ⟨fun others h => ?_, fun hsome form => ?_, fun hnone => ?_, ?_, fun form hform => ?_,
    ofList_tags tags⟩
  · rw [ofList_congr h]
    exact ⟨rfl, fun _ => rfl⟩
  · have hne : tags.filterMap normalTag? ≠ [] := words_eq_empty_iff.not.1 hsome.ne_empty
    rw [mem_tags_ofList, chosenWords_of_ne_nil hne, mem_words_iff]
  · rw [ofList_eq, chosenWords_of_eq_nil (words_eq_empty_iff.1 hnone), default_words]
    decide
  · rw [ofList_eq]
    exact (pairwise_distinctSorted _).imp fun hlt => (bytes_lt_iff _ _).2 hlt
  · have hword := (normalTag?_eq_some_iff.1 (normalTag?_of_mem hform)).1
    rintro rfl
    exact hword rfl

/-- Two lists with the words of a tag that ends in a sigma and of another one. -/
theorem ofList_canonical_sigma :
    words ["", " ΟΔΟΣ\t", "Fix", "FIX"] = words ["fix ", "οδος"] ∧
      ofList ["", " ΟΔΟΣ\t", "Fix", "FIX"] = ofList ["fix ", "οδος"] ∧
      "οδος" ∈ (ofList ["", " ΟΔΟΣ\t", "Fix", "FIX"]).tags ∧
      words [" ", ""] = ∅ ∧ (ofList [" ", ""]).tags = ["fixme", "todo"] := by
  have hfirst : ["", " ΟΔΟΣ\t", "Fix", "FIX"].filterMap normalTag? = ["οδος", "fix", "fix"] := by
    decide +kernel
  have hsecond : ["fix ", "οδος"].filterMap normalTag? = ["fix", "οδος"] := by decide +kernel
  have hwords : words ["", " ΟΔΟΣ\t", "Fix", "FIX"] = words ["fix ", "οδος"] := by
    ext form
    rw [mem_words_iff, mem_words_iff, hfirst, hsecond]
    simp [or_comm]
  have hmem : "οδος" ∈ words ["", " ΟΔΟΣ\t", "Fix", "FIX"] := by
    rw [mem_words_iff, hfirst]
    exact List.mem_cons_self
  have hnone : words [" ", ""] = ∅ := words_eq_empty_iff.2 (by decide +kernel)
  obtain ⟨hsame, hheld, -⟩ := ofList_canonical ["", " ΟΔΟΣ\t", "Fix", "FIX"]
  exact ⟨hwords, (hsame _ hwords).1, (hheld ⟨_, hmem⟩ _).2 hmem, hnone,
    (ofList_canonical [" ", ""]).2.2.1 hnone⟩

end TagSet

end Marginalia
