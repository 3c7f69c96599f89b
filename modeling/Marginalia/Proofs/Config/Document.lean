import Marginalia.Config.Document
import Marginalia.Proofs.Json.RoundTrip
import Marginalia.Proofs.Text.Utf8

set_option autoImplicit false

/-!
# Settings are read back from their document

A document that was printed is read as the settings it was printed from, if their source
root is a text and their numbers are within the range of the settings.  The numbers of all
settings that were read from a document are, and they stay so when they are changed by key.
-/

namespace Marginalia.Config

open Marginalia.Json (Value member)
open Marginalia.Text

/-- Whether the numbers among the settings are in their range. -/
def IsBounded (c : Config) : Prop := c.workers ≤ maxSetting ∧ c.readChunk ≤ maxSetting

/-- Whether settings can be read back from their document. -/
structure IsPrintable (c : Config) : Prop where
  bounded : c.IsBounded
  text : c.sourceRoot.bytes.isText = true

/-- A source root that is a text is the path of this text. -/
theorem IsPrintable.sourceRoot_eq {c : Config} (h : c.IsPrintable) :
    ⟨c.sourceRoot.text⟩ = c.sourceRoot :=
  congrArg Path.mk (RawText.bytes_shown_iff.2 h.text)

/-! ## Single values -/

theorem Key.ofName?_name (key : Key) : Key.ofName? key.name = some key := by
  cases key <;> rfl

theorem textsOf?_ofStrings (ss : List String) : textsOf? (.ofStrings ss) = some ss := by
  show (ss.map Value.ofString).mapM textOf? = some ss
  induction ss with
  | nil => rfl
  | cons s ss ih =>
    rw [List.map_cons, List.mapM_cons, ih]
    rfl

theorem optionOf?_ofOption (o : Option String) : optionOf? (.ofOption o) = some o := by
  cases o <;> rfl

theorem numberOf?_decimalString {n : Nat} (h : n ≤ maxSetting) :
    numberOf? (.number (decimalString n)) = some n := by
  rw [numberOf?, decimalString, String.toList_ofList, readDecimal?_decimal]
  simp [h]

theorem le_of_numberOf? {v : Value} {n : Nat} (h : numberOf? v = some n) : n ≤ maxSetting := by
  unfold numberOf? at h
  split at h
  · simpa using (Option.filter_eq_some_iff.1 h).2
  · cases h

/-! ## The document -/

/-- The document has plain numbers only. -/
theorem isPlain_toValue (c : Config) : c.toValue.IsPlain := by
  have hstrings : ∀ ss, (Value.ofStrings ss).IsPlain := fun ss =>
    .array fun item hitem => by
      obtain ⟨s, -, rfl⟩ := List.mem_map.1 hitem
      exact .text _
  have hoption : ∀ o, (Value.ofOption o).IsPlain := by
    rintro (_ | s)
    · exact .null
    · exact .text _
  refine .object fun m hm => ?_
  simp only [List.mem_cons, List.not_mem_nil, or_false] at hm
  rcases hm with rfl | rfl | rfl | rfl | rfl | rfl | rfl
  · exact .text _
  · exact hstrings _
  · exact .number _
  · exact .number _
  · exact hstrings _
  · exact hoption _
  · exact hoption _

/-- The settings that the document of some settings describes are these. -/
theorem ofValue?_toValue {c : Config} (h : c.IsPrintable) : ofValue? c.toValue = some c := by
  simp [ofValue?, toValue, member, readMembers?, Key.ofName?_name, withMember?, textOf?,
    Value.ofString, textsOf?_ofStrings, numberOf?_decimalString h.bounded.1,
    numberOf?_decimalString h.bounded.2, optionOf?_ofOption, ofRoot, h.sourceRoot_eq]

/-- Printed settings are read back. -/
theorem read?_print {c : Config} (h : c.IsPrintable) : read? c.print = some c := by
  rw [read?, print, c.isPlain_toValue.read?_print, Option.bind_some, ofValue?_toValue h]

/-! ## Settings that were read -/

theorem isBounded_ofRoot (root : Path) : (ofRoot root).IsBounded := by
  exact ⟨show Discovery.defaultWorkers ≤ maxSetting by decide,
    show Discovery.defaultReadChunk ≤ maxSetting by decide⟩

theorem IsBounded.withMember? {c c' : Config} (h : c.IsBounded) {key : Key} {v : Value}
    (hread : c.withMember? key v = some c') : c'.IsBounded := by
  cases key <;> obtain ⟨x, hx, rfl⟩ := Option.map_eq_some_iff.1 hread
  case workers => exact ⟨le_of_numberOf? hx, h.2⟩
  case readChunk => exact ⟨h.1, le_of_numberOf? hx⟩
  all_goals exact h

theorem IsBounded.readMembers? {c : Config} (h : c.IsBounded) {seen seen' : List Key}
    {members : List (Option String × Value)} {c' : Config}
    (hread : readMembers? c seen members = some (c', seen')) : c'.IsBounded := by
  induction members generalizing c seen with
  | nil =>
    cases hread
    exact h
  | cons m members ih =>
    obtain ⟨_ | name, v⟩ := m
    · cases hread
    · rw [Config.readMembers?] at hread
      split at hread
      · exact ih h hread
      · split at hread
        · cases hread
        · split at hread
          · rename_i hmember
            exact ih (h.withMember? hmember) hread
          · cases hread

theorem IsBounded.readItems? {c : Config} (h : c.IsBounded) {keys : List Key} {items : List Value}
    {c' : Config} (hread : readItems? c keys items = some c') : c'.IsBounded := by
  induction items generalizing c keys with
  | nil =>
    rw [Config.readItems?] at hread
    cases hread
    exact h
  | cons v items ih =>
    cases keys with
    | nil => cases hread
    | cons key keys =>
      rw [Config.readItems?] at hread
      split at hread
      · rename_i hmember
        exact ih (h.withMember? hmember) hread
      · cases hread

/-- The numbers of settings that were read are in their range. -/
theorem isBounded_of_read? {text : String} {c : Config} (h : read? text = some c) :
    c.IsBounded := by
  obtain ⟨v, -, hv⟩ := Option.bind_eq_some_iff.1 h
  unfold ofValue? at hv
  split at hv
  · split at hv
    · rename_i hread
      split at hv
      · cases hv
        exact (isBounded_ofRoot _).readMembers? hread
      · cases hv
    · cases hv
  · exact (isBounded_ofRoot _).readItems? hv
  · cases hv

/-! ## Settings that were changed -/

theorem le_of_positive? {s : String} {n : Nat} (h : positive? s = some n) : n ≤ maxSetting := by
  have hboth := (Option.filter_eq_some_iff.1 h).2
  rw [Bool.and_eq_true, decide_eq_true_iff, decide_eq_true_iff] at hboth
  exact hboth.2

/-- What becomes of settings when one of them is set from a text. -/
inductive Sets (c : Config) (s : String) : Key → Config → Prop
  | tags (h : splitList s ≠ []) : Sets c s .tags { c with tags := splitList s }
  | workers {n : Nat} (h : positive? s = some n) : Sets c s .workers { c with workers := n }
  | readChunk {n : Nat} (h : positive? s = some n) : Sets c s .readChunk { c with readChunk := n }
  | exclude : Sets c s .exclude { c with exclude := splitList s }
  | username : Sets c s .username { c with username := trimmed? s }
  | email : Sets c s .email { c with email := trimmed? s }

theorem withValue?_eq_some_iff {c c' : Config} {key : Key} {s : String} :
    c.withValue? key s = some c' ↔ Sets c s key c' := by
  constructor
  · intro h
    cases key with
    | sourceRoot => cases h
    | tags =>
      unfold withValue? at h
      dsimp only at h
      split at h
      · cases h
      · rename_i tag tags hitems
        cases h
        exact hitems ▸ .tags (hitems ▸ List.cons_ne_nil tag tags)
    | workers =>
      obtain ⟨n, hn, rfl⟩ := Option.map_eq_some_iff.1 h
      exact .workers hn
    | readChunk =>
      obtain ⟨n, hn, rfl⟩ := Option.map_eq_some_iff.1 h
      exact .readChunk hn
    | exclude =>
      cases h
      exact .exclude
    | username =>
      cases h
      exact .username
    | email =>
      cases h
      exact .email
  · intro h
    cases h with
    | tags h =>
      obtain ⟨tag, tags, hitems⟩ := List.exists_cons_of_ne_nil h
      simp only [withValue?, hitems]
    | workers h => exact Option.map_eq_some_iff.2 ⟨_, h, rfl⟩
    | readChunk h => exact Option.map_eq_some_iff.2 ⟨_, h, rfl⟩
    | exclude => rfl
    | username => rfl
    | email => rfl

/-- A setting that is changed by name is that of a key other than the source root's. -/
theorem exists_key_of_set {c c' : Config} {name s : String} (h : c.set name s = .ok c') :
    ∃ key, Key.ofName? name = some key ∧ Sets c s key c' := by
  unfold set at h
  split at h
  · cases h
  · cases h
  · rename_i key hroot hkey
    split at h
    · rename_i hvalue
      cases h
      exact ⟨key, hkey, withValue?_eq_some_iff.1 hvalue⟩
    · cases h

/-- Changing a setting keeps the source root and the range of the numbers. -/
theorem keeps_of_set {c c' : Config} {name s : String} (h : c.set name s = .ok c') :
    c'.sourceRoot = c.sourceRoot ∧ (c.IsBounded → c'.IsBounded) := by
  obtain ⟨key, -, hsets⟩ := exists_key_of_set h
  cases hsets with
  | workers hn => exact ⟨rfl, fun hc => ⟨le_of_positive? hn, hc.2⟩⟩
  | readChunk hn => exact ⟨rfl, fun hc => ⟨hc.1, le_of_positive? hn⟩⟩
  | tags => exact ⟨rfl, id⟩
  | exclude => exact ⟨rfl, id⟩
  | username => exact ⟨rfl, id⟩
  | email => exact ⟨rfl, id⟩

/-- A setting that was changed has a value. -/
theorem exists_get_of_set {c c' : Config} {name s : String} (h : c.set name s = .ok c') :
    ∃ shown, c'.get name = .ok shown := by
  obtain ⟨key, hkey, -⟩ := exists_key_of_set h
  exact ⟨c'.value key, by rw [get, hkey]⟩

end Marginalia.Config
