import Marginalia.Proofs.Config.Document
import Marginalia.Proofs.Text.Split
import Marginalia.Proofs.Text.Trim
import Mathlib.Data.List.Induction

set_option autoImplicit false

/-!
# Settings as texts

A setting is shown as a text and set from one.  Texts may be loose: blanks around them, a
plus sign or zeros before a number, empty items in a list.  What is kept is tidy, and the
text that a tidy value is shown as is set as that value again.  So the settings with keys
are fields that do not touch each other, and the last value given to one counts.
-/

namespace Marginalia.Config

open Marginalia.Text

variable {c c' : Config} {key : Key} {name s v : String}

/-! ## Lists -/

/-- Whether a text is an item that a list is split into. -/
def IsItem (s : String) : Prop := trimmed? s = some s ∧ ',' ∉ s.toList

theorem isItem_of_mem_splitList (h : s ∈ splitList v) : IsItem s := by
  obtain ⟨part, hpart, htrim⟩ := List.mem_filterMap.1 h
  refine ⟨trimmed?_of_trimmed? htrim, fun hcomma => ?_⟩
  -- an item is a stretch of a part, and no part holds a comma
  obtain ⟨before, after, hsplit, -⟩ := exists_trim_append part
  have hlist := (trimmed?_eq_some_iff.1 htrim).2
  rw [String.toList_ofList] at hlist
  rw [hlist] at hsplit
  refine not_mem_of_mem_splitOn hpart ?_
  rw [hsplit]
  exact List.mem_append_left _ (List.mem_append_right _ hcomma)

/-- Items joined with commas are split into the same items. -/
theorem splitList_joinWith {items : List String} (h : ∀ s ∈ items, IsItem s) :
    splitList (joinWith "," items) = items := by
  by_cases hne : items = []
  · subst hne
    rfl
  · rw [splitList, splitOn_joinWith rfl hne fun s hs => (h s hs).2, List.filterMap_map,
      List.filterMap_congr (g := some) fun s hs => ?_, List.filterMap_some]
    rw [Function.comp_apply, String.ofList_toList, (h s hs).1]

/-- A list has no items if and only if all between the commas is blank. -/
theorem splitList_eq_nil_iff : splitList v = [] ↔ ∀ a ∈ v.toList, a = ',' ∨ isBlank a = true := by
  rw [splitList, List.filterMap_eq_nil_iff, ← forall_mem_splitOn_iff]
  refine forall₂_congr fun part _ => ?_
  rw [trimmed?_eq_none_iff, String.toList_ofList]

/-! ## Numbers -/

/-- No digit is blank. -/
theorem isBlank_eq_false_of_isDigit {d : Char} (h : isDigit d = true) : isBlank d = false := by
  have hall : ∀ n < 58, 48 ≤ n → inStretches blankStretches n = false := by decide
  rw [isDigit, Bool.and_eq_true, decide_eq_true_iff, decide_eq_true_iff] at h
  have hfirst : '0'.toNat ≤ d.toNat := UInt32.le_iff_toNat_le.1 h.1
  have hlast : d.toNat ≤ '9'.toNat := UInt32.le_iff_toNat_le.1 h.2
  exact hall d.toNat (Nat.lt_succ_of_le hlast) hfirst

/-- Whether a text spells a number: digits, with a plus sign before them or without, and
blanks around. -/
def Spells (v : String) (n : Nat) : Prop :=
  ∃ before sign digits after, v.toList = before ++ (sign ++ digits) ++ after ∧
    (∀ b ∈ before, isBlank b = true) ∧ (∀ b ∈ after, isBlank b = true) ∧
    (sign = [] ∨ sign = ['+']) ∧ digits ≠ [] ∧ (∀ d ∈ digits, isDigit d = true) ∧
    digitsValue digits 0 = n

/-- A text without the plus sign that it may begin with. -/
def unsigned : List Char → List Char
  | '+' :: rest => rest
  | s => s

theorem exists_unsigned (s : List Char) :
    ∃ sign, (sign = [] ∨ sign = ['+']) ∧ s = sign ++ unsigned s := by
  unfold unsigned
  split
  · exact ⟨['+'], .inr rfl, rfl⟩
  · exact ⟨[], .inl rfl, rfl⟩

theorem unsigned_append {sign digits : List Char} (hsign : sign = [] ∨ sign = ['+'])
    (hdigits : ∀ d ∈ digits, isDigit d = true) : unsigned (sign ++ digits) = digits := by
  rcases hsign with rfl | rfl
  · unfold unsigned
    split
    · rename_i rest hplus
      rw [List.nil_append] at hplus
      have hdigit := hdigits '+' (hplus ▸ List.mem_cons_self)
      exact absurd hdigit (by decide)
    · rfl
  · rfl

/-- Neither a digit nor a sign is blank. -/
theorem noBlankEnds_sign_append {sign digits : List Char} (hsign : sign = [] ∨ sign = ['+'])
    (hdigits : ∀ d ∈ digits, isDigit d = true) : NoBlankEnds (sign ++ digits) := by
  have hall : ∀ b ∈ sign ++ digits, isBlank b = false := by
    intro b hb
    rcases List.mem_append.1 hb with hb | hb
    · rcases hsign with rfl | rfl
      · cases hb
      · rw [List.mem_singleton.1 hb]
        decide
    · exact isBlank_eq_false_of_isDigit (hdigits b hb)
  exact ⟨fun b hb => hall b (List.mem_of_head? hb), fun b hb => hall b (List.mem_of_getLast? hb)⟩

/-- A text is the number of a setting if and only if it spells one that is positive and not
too large. -/
theorem positive?_eq_some_iff {n : Nat} :
    positive? v = some n ↔ Spells v n ∧ 0 < n ∧ n ≤ maxSetting := by
  have hunsigned : positive? v = (readDecimal? (unsigned (trim v.toList))).filter
      fun n => 0 < n && n ≤ maxSetting := rfl
  rw [hunsigned, Option.filter_eq_some_iff, readDecimal?_eq_some_iff, Bool.and_eq_true,
    decide_eq_true_iff, decide_eq_true_iff]
  refine and_congr_left fun _ => ?_
  constructor
  · -- what was trimmed are the blanks, and what was dropped is the sign
    rintro ⟨hne, hdigits, hvalue⟩
    obtain ⟨before, after, hsplit, hbefore, hafter, -⟩ := exists_trim_append v.toList
    obtain ⟨sign, hsign, htrim⟩ := exists_unsigned (trim v.toList)
    exact ⟨before, sign, _, after, htrim ▸ hsplit, hbefore, hafter, hsign, hne, hdigits, hvalue⟩
  · rintro ⟨before, sign, digits, after, hsplit, hbefore, hafter, hsign, hne, hdigits, hvalue⟩
    rw [hsplit, trim_append hbefore hafter (noBlankEnds_sign_append hsign hdigits),
      unsigned_append hsign hdigits]
    exact ⟨hne, hdigits, hvalue⟩

/-- The number of a setting is set again as it is shown. -/
theorem positive?_decimalString {n : Nat} (h : 0 < n ∧ n ≤ maxSetting) :
    positive? (decimalString n) = some n := by
  have hread := readDecimal?_eq_some_iff.1 (readDecimal?_decimal n)
  refine positive?_eq_some_iff.2 ⟨⟨[], [], decimal n, [], ?_, nofun, nofun, .inl rfl, hread⟩, h⟩
  rw [decimalString, String.toList_ofList, List.append_nil]
  rfl

/-! ## Tidy settings -/

/-- Whether all settings are such as are set from texts. -/
structure IsTidy (c : Config) : Prop where
  someTag : c.tags ≠ []
  tags : ∀ s ∈ c.tags, IsItem s
  workers : 0 < c.workers ∧ c.workers ≤ maxSetting
  readChunk : 0 < c.readChunk ∧ c.readChunk ≤ maxSetting
  exclude : ∀ s ∈ c.exclude, IsItem s
  username : ∀ s ∈ c.username, trimmed? s = some s
  email : ∀ s ∈ c.email, trimmed? s = some s

theorem isTidy_ofRoot (root : Path) : (ofRoot root).IsTidy where
  someTag := List.cons_ne_nil _ _
  tags := by
    show ∀ s ∈ defaultTags, trimmed? s = some s ∧ ',' ∉ s.toList
    decide
  workers := show 0 < Discovery.defaultWorkers ∧ Discovery.defaultWorkers ≤ maxSetting by decide
  readChunk :=
    show 0 < Discovery.defaultReadChunk ∧ Discovery.defaultReadChunk ≤ maxSetting by decide
  exclude := nofun
  username := nofun
  email := nofun

/-- Settings stay tidy when one of them is set. -/
theorem IsTidy.of_sets (h : c.IsTidy) (hset : Sets c v key c') : c'.IsTidy := by
  cases hset with
  | tags hne => exact { h with someTag := hne, tags := fun s => isItem_of_mem_splitList }
  | workers hn => exact { h with workers := (positive?_eq_some_iff.1 hn).2 }
  | readChunk hn => exact { h with readChunk := (positive?_eq_some_iff.1 hn).2 }
  | exclude => exact { h with exclude := fun s => isItem_of_mem_splitList }
  | username => exact { h with username := fun s => trimmed?_of_trimmed? }
  | email => exact { h with email := fun s => trimmed?_of_trimmed? }

/-- A tidy text that may be absent is what is left of the text that it is shown as. -/
theorem trimmed?_getD {o : Option String} (h : ∀ s ∈ o, trimmed? s = some s) :
    trimmed? (o.getD "") = o := by
  cases o with
  | none => rfl
  | some s => exact h s rfl

/-- What a setting is shown as is set as what it is. -/
theorem IsTidy.sets_value (h : c.IsTidy) (hkey : key ≠ .sourceRoot) :
    Sets c (c.value key) key c := by
  cases key with
  | sourceRoot => exact absurd rfl hkey
  | tags =>
    have hitems : splitList (c.value .tags) = c.tags := splitList_joinWith h.tags
    have hset := @Sets.tags c (c.value .tags) (hitems ▸ h.someTag)
    rwa [hitems] at hset
  | workers => exact .workers (positive?_decimalString h.workers)
  | readChunk => exact .readChunk (positive?_decimalString h.readChunk)
  | exclude =>
    have hset := @Sets.exclude c (c.value .exclude)
    rwa [show splitList (c.value .exclude) = c.exclude from splitList_joinWith h.exclude] at hset
  | username =>
    have hset := @Sets.username c (c.value .username)
    rwa [show trimmed? (c.value .username) = c.username from trimmed?_getD h.username] at hset
  | email =>
    have hset := @Sets.email c (c.value .email)
    rwa [show trimmed? (c.value .email) = c.email from trimmed?_getD h.email] at hset

/-! ## One setting and the others -/

/-- Other settings are shown as before. -/
theorem Sets.value_of_ne {other : Key} (hset : Sets c v key c') (hne : other ≠ key) :
    c'.value other = c.value other := by
  cases hset <;> cases other <;> first | rfl | exact absurd rfl hne

theorem Sets.ne_sourceRoot (hset : Sets c v key c') : key ≠ .sourceRoot := by
  rintro rfl
  cases hset

/-! ## Setting by name -/

theorem Key.ofName?_eq_some_iff : Key.ofName? name = some key ↔ key.name = name := by
  constructor
  · intro h
    exact beq_iff_eq.1 (List.find?_some (p := fun k : Key => k.name == name) h)
  · rintro rfl
    exact Key.ofName?_name key

theorem Key.ofName?_eq_none_iff : Key.ofName? name = none ↔ ∀ key : Key, key.name ≠ name := by
  simp only [Option.eq_none_iff_forall_ne_some, ne_eq, Key.ofName?_eq_some_iff]

theorem set_eq_ok_iff :
    c.set name v = .ok c' ↔ ∃ key : Key, key.name = name ∧ Sets c v key c' := by
  constructor
  · intro h
    obtain ⟨key, hkey, hset⟩ := exists_key_of_set h
    exact ⟨key, Key.ofName?_eq_some_iff.1 hkey, hset⟩
  · rintro ⟨key, rfl, hset⟩
    rw [set, Key.ofName?_name]
    cases key with
    | sourceRoot => cases hset
    | _ => dsimp only; rw [withValue?_eq_some_iff.2 hset]

theorem get_name (c : Config) (key : Key) : c.get key.name = .ok (c.value key) := by
  rw [get, Key.ofName?_name]

/-- A setting that is set shows in no other. -/
theorem get_of_set_of_ne {other : String} (h : c.set name v = .ok c') (hne : other ≠ name) :
    c'.get other = c.get other := by
  obtain ⟨key, rfl, hset⟩ := set_eq_ok_iff.1 h
  unfold get
  split
  · rename_i otherKey hother
    obtain rfl := Key.ofName?_eq_some_iff.1 hother
    rw [hset.value_of_ne fun heq => hne (congrArg Key.name heq)]
  · rfl

/-- The last of two texts that are set under a name counts. -/
theorem set_of_set (h : c.set name v = .ok c') (s : String) : c'.set name s = c.set name s := by
  obtain ⟨key, rfl, hset⟩ := set_eq_ok_iff.1 h
  cases hset <;> rfl

/-- A tidy setting is set as it is by the text that it is shown as. -/
theorem IsTidy.set_value (h : c.IsTidy) (hkey : key ≠ .sourceRoot) :
    c.set key.name (c.value key) = .ok c :=
  set_eq_ok_iff.2 ⟨key, rfl, h.sets_value hkey⟩

/-- Why a text is not set under a name. -/
inductive Refuses : String → String → ConfigError → Prop
  | unknown {name v : String} (h : ∀ key : Key, key.name ≠ name) :
      Refuses name v (.unknownKey name)
  | readOnly {v : String} : Refuses Key.sourceRoot.name v (.readOnlyKey Key.sourceRoot.name)
  | noTag {v : String} (h : ∀ a ∈ v.toList, a = ',' ∨ isBlank a = true) :
      Refuses Key.tags.name v (.invalidValue Key.tags.name v)
  | noNumber {key : Key} {v : String} (hkey : key = .workers ∨ key = .readChunk)
      (h : ∀ n, Spells v n → n = 0 ∨ maxSetting < n) :
      Refuses key.name v (.invalidValue key.name v)

theorem positive?_eq_none_iff : positive? v = none ↔ ∀ n, Spells v n → n = 0 ∨ maxSetting < n := by
  simp only [Option.eq_none_iff_forall_ne_some, ne_eq, positive?_eq_some_iff]
  refine forall_congr' fun n => ?_
  constructor
  · intro h hspells
    by_contra hrange
    exact h ⟨hspells, by omega⟩
  · rintro h ⟨hspells, hrange⟩
    have hout := h hspells
    omega

/-- A text is refused for a reason that the settings at hand have no part in. -/
theorem set_eq_error_iff {e : ConfigError} : c.set name v = .error e ↔ Refuses name v e := by
  constructor
  · intro h
    cases hname : Key.ofName? name with
    | none =>
      rw [set, hname] at h
      cases h
      exact .unknown (Key.ofName?_eq_none_iff.1 hname)
    | some key =>
      obtain rfl := Key.ofName?_eq_some_iff.1 hname
      rw [set, hname] at h
      cases key with
      | sourceRoot =>
        cases h
        exact .readOnly
      | tags =>
        dsimp only at h
        split at h
        · cases h
        · rename_i hnone
          cases h
          refine .noTag (splitList_eq_nil_iff.1 ?_)
          by_contra hne
          cases (withValue?_eq_some_iff.2 (Sets.tags hne)).symm.trans hnone
      | workers =>
        dsimp only at h
        split at h
        · cases h
        · rename_i hnone
          cases h
          exact .noNumber (.inl rfl) (positive?_eq_none_iff.1 (Option.map_eq_none_iff.1 hnone))
      | readChunk =>
        dsimp only at h
        split at h
        · cases h
        · rename_i hnone
          cases h
          exact .noNumber (.inr rfl) (positive?_eq_none_iff.1 (Option.map_eq_none_iff.1 hnone))
      | exclude => cases h
      | username => cases h
      | email => cases h
  · intro h
    cases h with
    | unknown h => rw [set, Key.ofName?_eq_none_iff.2 h]
    | readOnly => rfl
    | noTag h => simp only [set, Key.ofName?_name, withValue?, splitList_eq_nil_iff.2 h]
    | noNumber hkey h =>
      have hnone := positive?_eq_none_iff.2 h
      rcases hkey with rfl | rfl <;>
        simp only [set, Key.ofName?_name, withValue?, hnone, Option.map_none]

/-! ## One call after the other -/

/-- The settings of a new project after calls that set them by name one after the other.  A
call that is refused leaves them as they are. -/
def afterCalls (root : Path) (calls : List (String × String)) : Config :=
  calls.foldl (fun c call => (c.set call.1 call.2).toOption.getD c) (ofRoot root)

theorem afterCalls_append (root : Path) (calls : List (String × String)) (name v : String) :
    afterCalls root (calls ++ [(name, v)]) =
      ((afterCalls root calls).set name v).toOption.getD (afterCalls root calls) := by
  rw [afterCalls, List.foldl_append]
  rfl

/-- No call leaves settings untidy. -/
theorem isTidy_afterCalls (root : Path) (calls : List (String × String)) :
    (afterCalls root calls).IsTidy := by
  -- from the last call, since it is the one that the settings at hand are left by
  induction calls using List.reverseRecOn with
  | nil => exact isTidy_ofRoot root
  | append_singleton calls call ih =>
    rw [afterCalls_append]
    cases hset : (afterCalls root calls).set call.1 call.2 with
    | error e => exact ih
    | ok c' =>
      obtain ⟨key, -, hsets⟩ := set_eq_ok_iff.1 hset
      exact ih.of_sets hsets

end Marginalia.Config
