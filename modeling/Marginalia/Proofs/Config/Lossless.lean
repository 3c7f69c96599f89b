import Marginalia.Proofs.Config.Project
import Marginalia.Proofs.Files.Create

set_option autoImplicit false

/-!
# Settings in their file

Settings are read member by member: each member gives one setting its value, and a setting
without a member keeps its default.  So settings that were saved are loaded as they were, and
where members of their document are missing the loaded settings differ from the saved ones
in just these settings, which have their defaults.
-/

namespace Marginalia.Config

open Marginalia.Json (Value member)

variable {c d : Config} {keys : List Key}

/-! ## Members -/

/-- The value of a setting in the document. -/
def document (c : Config) : Key → Value
  | .sourceRoot => .ofString c.sourceRoot.text
  | .tags => .ofStrings c.tags
  | .workers => .number (Text.decimalString c.workers)
  | .readChunk => .number (Text.decimalString c.readChunk)
  | .exclude => .ofStrings c.exclude
  | .username => .ofOption c.username
  | .email => .ofOption c.email

/-- The member of the document for a setting. -/
def memberOf (c : Config) (key : Key) : Option String × Value := member key.name (c.document key)

theorem toValue_eq (c : Config) : c.toValue = .object (Key.all.map c.memberOf) := rfl

/-- The settings with the values that others have under some keys. -/
def taking (c d : Config) (keys : List Key) : Config :=
  { sourceRoot := if .sourceRoot ∈ keys then d.sourceRoot else c.sourceRoot
    tags := if .tags ∈ keys then d.tags else c.tags
    workers := if .workers ∈ keys then d.workers else c.workers
    readChunk := if .readChunk ∈ keys then d.readChunk else c.readChunk
    exclude := if .exclude ∈ keys then d.exclude else c.exclude
    username := if .username ∈ keys then d.username else c.username
    email := if .email ∈ keys then d.email else c.email }

theorem taking_cons (c d : Config) (key : Key) (keys : List Key) :
    (c.taking d [key]).taking d keys = c.taking d (key :: keys) := by
  -- whether a field is taken is the same question for all fields
  have hfield {α : Type} (x y : α) (k : Key) :
      (if k ∈ keys then x else if k ∈ [key] then x else y) =
        if k ∈ key :: keys then x else y := by
    by_cases hkeys : k ∈ keys
    · rw [if_pos hkeys, if_pos (List.mem_cons_of_mem _ hkeys)]
    · rw [if_neg hkeys]
      simp only [List.mem_cons, hkeys, List.not_mem_nil, or_false]
  simp only [taking, hfield]

/-- A member gives its setting the value that it was written with. -/
theorem withMember?_document (hd : d.IsPrintable) (c : Config) (key : Key) :
    c.withMember? key (d.document key) = some (c.taking d [key]) := by
  cases key with
  | sourceRoot => exact congrArg (fun p => some { c with sourceRoot := p }) hd.sourceRoot_eq
  | tags => exact congrArg (Option.map _) (textsOf?_ofStrings d.tags)
  | workers => exact congrArg (Option.map _) (numberOf?_decimalString hd.bounded.1)
  | readChunk => exact congrArg (Option.map _) (numberOf?_decimalString hd.bounded.2)
  | exclude => exact congrArg (Option.map _) (textsOf?_ofStrings d.exclude)
  | username => exact congrArg (Option.map _) (optionOf?_ofOption d.username)
  | email => exact congrArg (Option.map _) (optionOf?_ofOption d.email)

/-- Members of different settings give all these settings their values, and no other. -/
theorem readMembers?_map (hd : d.IsPrintable) (hkeys : keys.Nodup) (c : Config) {seen : List Key}
    (hseen : ∀ key ∈ keys, key ∉ seen) :
    readMembers? c seen (keys.map d.memberOf) = some (c.taking d keys, keys.reverse ++ seen) := by
  -- the keys that were seen grow, and those that are left stay apart from them
  induction keys generalizing c seen with
  | nil => rfl
  | cons key keys ih =>
    obtain ⟨hkey, hrest⟩ := List.nodup_cons.1 hkeys
    have hnew : seen.contains key = false := by
      simpa using hseen key List.mem_cons_self
    have hlater : ∀ other ∈ keys, other ∉ key :: seen := by
      intro other hother hmem
      rcases List.mem_cons.1 hmem with rfl | hmem
      · exact hkey hother
      · exact hseen other (List.mem_cons_of_mem _ hother) hmem
    rw [List.map_cons, memberOf, member, readMembers?, Key.ofName?_name]
    simp only [hnew, Bool.false_eq_true, if_false, withMember?_document hd]
    rw [ih hrest _ hlater, taking_cons, List.reverse_cons, List.append_assoc, List.singleton_append]

/-! ## Members that are missing -/

/-- The document without the members of some names. -/
def removing (names : List String) : Value → Value
  | .object members => .object (members.filter fun m => m.1.all fun name => name ∉ names)
  | v => v

/-- The settings with the defaults of some of them; the source root has none. -/
def withDefaults (c : Config) (missing : List Key) : Config :=
  { sourceRoot := c.sourceRoot
    tags := if .tags ∈ missing then defaultTags else c.tags
    workers := if .workers ∈ missing then Discovery.defaultWorkers else c.workers
    readChunk := if .readChunk ∈ missing then Discovery.defaultReadChunk else c.readChunk
    exclude := if .exclude ∈ missing then [] else c.exclude
    username := if .username ∈ missing then none else c.username
    email := if .email ∈ missing then none else c.email }

/-- The keys that are left when some are missing. -/
def left (missing : List Key) : List Key := Key.all.filter fun key => key ∉ missing

variable {missing : List Key}

theorem mem_left_iff {key : Key} : key ∈ left missing ↔ key ∉ missing := by
  have hall : key ∈ Key.all := by cases key <;> decide
  simp [left, hall]

theorem removing_toValue (c : Config) (missing : List Key) :
    removing (missing.map Key.name) c.toValue = .object ((left missing).map c.memberOf) := by
  -- no two keys share a name
  have hname {key : Key} : key.name ∈ missing.map Key.name ↔ key ∈ missing := by
    refine ⟨fun h => ?_, List.mem_map_of_mem⟩
    obtain ⟨other, hother, heq⟩ := List.mem_map.1 h
    have hsame := congrArg Key.ofName? heq
    rw [Key.ofName?_name, Key.ofName?_name] at hsame
    exact Option.some.inj hsame ▸ hother
  rw [toValue_eq, removing, List.filter_map, left]
  simp only [Function.comp_def, memberOf, member, Option.all_some, hname]

theorem isPlain_removing_toValue (c : Config) (names : List String) :
    (removing names c.toValue).IsPlain := by
  have hplain := c.isPlain_toValue
  rw [toValue_eq] at hplain ⊢
  cases hplain with
  | object h => exact .object fun m hm => h m (List.mem_filter.1 hm).1

theorem taking_left (c : Config) (h : Key.sourceRoot ∉ missing) :
    (ofRoot ⟨""⟩).taking c (left missing) = c.withDefaults missing := by
  simp only [taking, mem_left_iff, h, not_false_eq_true, if_true, ite_not, withDefaults]
  rfl

/-- A document with some members missing describes the settings with the defaults of those. -/
theorem ofValue?_removing (hc : c.IsPrintable) (h : Key.sourceRoot ∉ missing) :
    ofValue? (removing (missing.map Key.name) c.toValue) = some (c.withDefaults missing) := by
  have hnodup : (left missing).Nodup :=
    List.Nodup.sublist List.filter_sublist (by decide : Key.all.Nodup)
  have hroot : ((left missing).reverse ++ []).contains Key.sourceRoot = true := by
    rw [List.append_nil, List.contains_iff_mem, List.mem_reverse]
    exact mem_left_iff.2 h
  rw [removing_toValue, ofValue?, readMembers?_map hc hnodup _ fun _ _ => List.not_mem_nil]
  dsimp only
  rw [if_pos hroot, taking_left c h]

/-! ## In a file -/

variable {t t' : FileTree} {p : Path} {text : String}

/-- Settings are loaded from a file that holds their document in any form. -/
theorem load_of_text {v : Value} (hread : t.read p = .ok (.bytes text.toUTF8))
    (hv : Value.read? text.toList = some v) (hc : ofValue? v = some c) : load t p = .ok c := by
  rw [load, hread]
  simp only [Content.text?, FileTree.fromUTF8?_toUTF8, read?, hv, Option.bind_some, hc]

/-- Settings that were saved are loaded as they were.  Any members but that of the source
root may be taken from the document of settings whose source root is a text: from a file that
holds what is left, in any form or as it is printed, the settings are loaded with just these at
their defaults. -/
theorem load_loses_nothing (hc : c.IsBounded) :
    (∀ t t', c.save t = .ok t' → load t' c.configPath = .ok c) ∧
    (c.sourceRoot.bytes.isText = true → ∀ missing : List Key, .sourceRoot ∉ missing → ∀ v,
      v = removing (missing.map Key.name) c.toValue →
        (∀ (t : FileTree) p (text : String), t.read p = .ok (.bytes text.toUTF8) →
          Value.read? text.toList = some v → load t p = .ok (c.withDefaults missing)) ∧
        ∀ (t : FileTree) p, t.read p = .ok (.bytes v.print.toUTF8) →
          load t p = .ok (c.withDefaults missing)) := by
  refine ⟨fun t t' hsave => ?_, fun hroot missing h v hv => ⟨fun t p text hread htext => ?_,
    fun t p hread => ?_⟩⟩
  · obtain ⟨hroot, hwrite⟩ := save_eq_ok_iff.1 hsave
    exact load_printed (FileTree.read_write hwrite) ⟨hc, hroot⟩
  · exact load_of_text hread htext (hv ▸ ofValue?_removing ⟨hc, hroot⟩ h)
  · exact load_of_text hread (hv ▸ (isPlain_removing_toValue c _).read?_print)
      (hv ▸ ofValue?_removing ⟨hc, hroot⟩ h)

/-! ## Settings with odd texts -/

/-- Settings with quotes, a backslash, a control character and one beyond the first plane,
and with numbers at both ends of their range. -/
def quaintConfig : Config :=
  { sourceRoot := ⟨"/srv"⟩, tags := ["a\"b\\c", "\x01", "😀"], workers := maxSetting, readChunk := 0
    exclude := [], username := some "", email := none }

/-- A project with a file of settings. -/
def quaintTree (data : ByteArray) : FileTree :=
  { entries :=
      [(["srv"], .directory), (["srv", ".notter"], .directory),
       (["srv", ".notter", "config.json"], .file (.bytes data))] }

theorem stat_quaintTree (data : ByteArray) : (quaintTree data).stat quaintConfig.configPath =
    .ok (["srv", ".notter", "config.json"], .file (.bytes data)) := by
  have hpath : quaintConfig.configPath = ⟨"/srv/.notter/config.json"⟩ := by decide
  rw [hpath]
  exact FileTree.Descends.stat
    (.down (by decide) rfl (.down (by decide) rfl (.last (by decide) rfl (by nofun)))) (by decide)
    (by decide) rfl

/-- The settings are saved and loaded, and loaded without two members. -/
theorem load_loses_nothing_quaint :
    (∃ t', quaintConfig.save (quaintTree .empty) = .ok t' ∧
      load t' quaintConfig.configPath = .ok quaintConfig) ∧
    load (quaintTree (removing ["workers", "username"] quaintConfig.toValue).print.toUTF8)
        quaintConfig.configPath =
      .ok { quaintConfig with workers := Discovery.defaultWorkers, username := none } := by
  obtain ⟨hsaved, hreduced⟩ := @load_loses_nothing quaintConfig
    ⟨Nat.le_refl maxSetting, Nat.zero_le maxSetting⟩
  constructor
  · have hsave : quaintConfig.save (quaintTree .empty) =
        .ok ((quaintTree .empty).put ["srv", ".notter", "config.json"]
          (.file (.bytes quaintConfig.print.toUTF8))) := by
      rw [save_eq_ok_iff, FileTree.write, FileTree.locate_of_stat (stat_quaintTree _)]
      exact ⟨by decide, rfl⟩
    exact ⟨_, hsave, hsaved _ _ hsave⟩
  · refine (hreduced (by decide) [.workers, .username] (by decide) _ rfl).2 _ _ ?_
    rw [FileTree.read, stat_quaintTree]
    rfl

end Marginalia.Config
