import Marginalia.Files.Walk
import Marginalia.Proofs.Files.Route
import Mathlib.Data.List.Nodup

set_option autoImplicit false

/-!
# What a walk comes to

A walk enters a name of a directory that leads to a file or a directory, but for a link
back into a directory that it is in.  In a proper tree an entry has a place of its own, and
the names on the way to it can be names of entries.  A walk over such a tree takes a
different way to each directory or file that it comes to, links or not.
-/

namespace Marginalia.FileTree

/-- Whether entries have places of their own, made of names. -/
structure IsProper (t : FileTree) : Prop where
  apart : (t.entries.map (·.1)).Nodup
  named : ∀ e ∈ t.entries, ∀ s ∈ e.1, Path.IsName s

/-- Whether a visit is reached by names below other names. -/
def Visit.IsBelow (names : List RawText) (v : Visit) : Prop :=
  ∃ rest, v.names = names ++ rest ∧ ∀ s ∈ rest, Path.IsName s

variable {t : FileTree}

/-! ## Names in a directory -/

/-- The name of an entry of a directory, if it is one. -/
def nameIn? (place : Place) (e : Place × Entry) : Option RawText :=
  match e.1.getLast? with
  | some name => if e.1.dropLast == place then some name else none
  | none => none

theorem nameIn?_eq_some_iff {place : Place} {e : Place × Entry} {name : RawText} :
    nameIn? place e = some name ↔ e.1 = place ++ [name] := by
  unfold nameIn?
  constructor
  · intro h
    split at h
    · rename_i last hlast
      split at h
      · rename_i hplace
        rw [← List.dropLast_append_getLast? last hlast, beq_iff_eq.1 hplace, Option.some.inj h]
      · cases h
    · cases h
  · intro h
    rw [h, List.getLast?_concat]
    simp only [List.dropLast_concat, beq_self_eq_true, if_true]

theorem mem_entries_of_entryAt? {place : Place} {entry : Entry} (hne : place ≠ [])
    (h : t.entryAt? place = some entry) : (place, entry) ∈ t.entries := by
  unfold entryAt? at h
  rw [if_neg hne] at h
  obtain ⟨e, he, rfl⟩ := Option.map_eq_some_iff.1 h
  have hplace : e.1 = place := by simpa using List.find?_some he
  exact hplace ▸ List.mem_of_find?_eq_some he

theorem mem_namesIn_iff {place : Place} {name : RawText} :
    name ∈ t.namesIn place ↔ ∃ e ∈ t.entries, e.1 = place ++ [name] := by
  rw [show t.namesIn place = t.entries.filterMap (nameIn? place) from rfl, List.mem_filterMap]
  simp only [nameIn?_eq_some_iff]

theorem IsProper.nodup_namesIn (h : t.IsProper) (place : Place) : (t.namesIn place).Nodup := by
  refine List.Pairwise.filterMap (nameIn? place) ?_ (List.pairwise_map.1 h.apart)
  intro e e' hne name hname name' hname' heq
  rw [nameIn?_eq_some_iff.1 hname, nameIn?_eq_some_iff.1 hname', heq] at hne
  exact hne rfl

theorem IsProper.isName_of_mem_namesIn (h : t.IsProper) {place : Place} {name : RawText}
    (hname : name ∈ t.namesIn place) : Path.IsName name := by
  obtain ⟨e, he, hplace⟩ := mem_namesIn_iff.1 hname
  exact h.named e he name (hplace ▸ List.mem_append_right _ (List.mem_singleton.2 rfl))

/-! ## One step -/

/-- What a name in a directory leads to: where, and whether it is a directory.  A link back
into a directory around leads nowhere, and so does one that leads to nothing. -/
inductive Enters (t : FileTree) (around : List Place) (place : Place) (name : RawText) :
    Place → Bool → Prop
  | directory (hentry : t.entryAt? (place ++ [name]) = some .directory) :
    Enters t around place name (place ++ [name]) true
  | file {content : Content} (hentry : t.entryAt? (place ++ [name]) = some (.file content)) :
    Enters t around place name (place ++ [name]) false
  | linkToDirectory {target : Path} {found : Place}
    (hentry : t.entryAt? (place ++ [name]) = some (.link target))
    (hstat : t.stat (pathOf (place ++ [name])) = .ok (found, .directory)) (hout : found ∉ around) :
    Enters t around place name found true
  | linkToFile {target : Path} {found : Place} {content : Content}
    (hentry : t.entryAt? (place ++ [name]) = some (.link target))
    (hstat : t.stat (pathOf (place ++ [name])) = .ok (found, .file content)) :
    Enters t around place name found false

theorem enter?_eq_some_iff {around : List Place} {place found : Place} {name : RawText}
    {directory : Bool} : t.enter? around place name = some (found, directory) ↔
      t.Enters around place name found directory := by
  constructor
  · intro h
    unfold enter? at h
    dsimp only at h
    split at h
    · rename_i hentry
      cases h
      exact .directory hentry
    · rename_i hentry
      cases h
      exact .file hentry
    · rename_i hentry
      split at h
      · rename_i hstat
        split at h
        · cases h
        · rename_i hout
          cases h
          exact .linkToDirectory hentry hstat (by simpa using hout)
      · rename_i entry hnot hstat
        cases h
        cases entry with
        | directory => exact absurd rfl hnot
        | file content => exact .linkToFile hentry hstat
        | link target => exact absurd rfl (ne_link_of_stat hstat target)
      · cases h
    · cases h
  · intro h
    cases h with
    | directory hentry => simp only [enter?, hentry]
    | file hentry => simp only [enter?, hentry]
    | linkToDirectory hentry hstat hout =>
      simp only [enter?, hentry, hstat, List.contains_iff_mem, if_neg hout]
    | linkToFile hentry hstat => simp only [enter?, hentry, hstat]

/-- What is entered is an entry of the directory. -/
theorem Enters.exists_entry {around : List Place} {place found : Place} {name : RawText}
    {directory : Bool} (h : t.Enters around place name found directory) :
    ∃ e ∈ t.entries, e.1 = place ++ [name] := by
  have hsome : ∃ entry, t.entryAt? (place ++ [name]) = some entry := by
    cases h with
    | directory hentry => exact ⟨_, hentry⟩
    | file hentry => exact ⟨_, hentry⟩
    | linkToDirectory hentry => exact ⟨_, hentry⟩
    | linkToFile hentry => exact ⟨_, hentry⟩
  obtain ⟨entry, hentry⟩ := hsome
  exact ⟨_, mem_entries_of_entryAt? (by simp) hentry, rfl⟩

/-! ## Walks -/

/-- What the walk comes to by one name of a directory. -/
def walkName (t : FileTree) (keep : Visit → Bool) (depth : Nat) (inside : List Place)
    (names : List RawText) (place : Place) (name : RawText) : List Visit :=
  match t.enter? (place :: inside) place name with
  | some (place', directory) =>
    t.walkFrom keep depth (place :: inside) (names ++ [name]) place' directory
  | none => []

section Steps

variable {keep : Visit → Bool} {depth : Nat} {inside : List Place} {names : List RawText}
  {place : Place}

/-- The walk stays out of what is refused. -/
theorem walkFrom_refused {directory : Bool} (h : keep ⟨names, directory⟩ = false) :
    t.walkFrom keep depth inside names place directory = [] := by
  unfold walkFrom
  dsimp only
  rw [h]
  rfl

/-- The walk ends with a file. -/
theorem walkFrom_file (h : keep ⟨names, false⟩ = true) :
    t.walkFrom keep depth inside names place false = [⟨names, false⟩] := by
  unfold walkFrom
  dsimp only
  rw [h]
  rfl

/-- The walk goes down into a directory by each name there. -/
theorem walkFrom_directory (h : keep ⟨names, true⟩ = true) :
    t.walkFrom keep (depth + 1) inside names place true =
      ⟨names, true⟩ :: (t.namesIn place).flatMap (t.walkName keep depth inside names place) := by
  rw [walkFrom]
  dsimp only
  rw [h]
  rfl

/-- What the walk comes to by a name is what it comes to from where the name leads. -/
theorem mem_walkName_iff {name : RawText} {v : Visit} :
    v ∈ t.walkName keep depth inside names place name ↔
      ∃ found directory, t.Enters (place :: inside) place name found directory ∧
        v ∈ t.walkFrom keep depth (place :: inside) (names ++ [name]) found directory := by
  simp only [← enter?_eq_some_iff]
  constructor
  · intro hv
    unfold walkName at hv
    split at hv
    · exact ⟨_, _, by assumption, hv⟩
    · exact absurd hv List.not_mem_nil
  · rintro ⟨found, directory, henter, hv⟩
    rw [walkName, henter]
    exact hv

end Steps

/-- A walk is empty, or it comes to its start and, if it goes down into a directory,
to what it comes to by each name there. -/
theorem walkFrom_cases (t : FileTree) (keep : Visit → Bool) (depth : Nat) (inside : List Place)
    (names : List RawText) (place : Place) (directory : Bool) :
    t.walkFrom keep depth inside names place directory = [] ∨
      t.walkFrom keep depth inside names place directory = [⟨names, directory⟩] ∨
        ∃ below, depth = below + 1 ∧ t.walkFrom keep depth inside names place directory =
          ⟨names, directory⟩ ::
            (t.namesIn place).flatMap (t.walkName keep below inside names place) := by
  unfold walkFrom
  dsimp only
  split
  · exact .inl rfl
  · split
    · exact .inr (.inl rfl)
    · cases depth with
      | zero => exact .inr (.inl rfl)
      | succ below => exact .inr (.inr ⟨below, rfl, rfl⟩)

theorem Visit.IsBelow.of_name {names : List RawText} {name : RawText} {v : Visit}
    (hname : Path.IsName name) (h : v.IsBelow (names ++ [name])) : v.IsBelow names := by
  obtain ⟨rest, hrest, his⟩ := h
  refine ⟨name :: rest, by rw [hrest, List.append_assoc]; rfl, fun s hs => ?_⟩
  rcases List.mem_cons.1 hs with rfl | hs
  · exact hname
  · exact his s hs

/-- A visit is below one name of a directory only. -/
theorem Visit.IsBelow.name_unique {names : List RawText} {name name' : RawText} {v v' : Visit}
    (h : v.IsBelow (names ++ [name])) (h' : v'.IsBelow (names ++ [name']))
    (heq : v.names = v'.names) : name = name' := by
  obtain ⟨rest, hrest, -⟩ := h
  obtain ⟨rest', hrest', -⟩ := h'
  rw [hrest, hrest', List.append_assoc, List.append_assoc] at heq
  exact (List.cons.inj (List.append_cancel_left heq)).1

/-- Whether visits lie below some names, each reached in a way of its own. -/
structure Spreads (names : List RawText) (l : List Visit) : Prop where
  below : ∀ v ∈ l, v.IsBelow names
  ways : (l.map Visit.names).Nodup

theorem spreads_nil (names : List RawText) : Spreads names [] :=
  ⟨fun _ hv => absurd hv List.not_mem_nil, List.nodup_nil⟩

theorem isBelow_self (names : List RawText) (directory : Bool) :
    Visit.IsBelow names ⟨names, directory⟩ :=
  ⟨[], (List.append_nil names).symm, fun _ hs => absurd hs List.not_mem_nil⟩

theorem spreads_singleton (names : List RawText) (directory : Bool) :
    Spreads names [⟨names, directory⟩] := by
  refine ⟨fun v hv => ?_, List.nodup_singleton _⟩
  rw [List.mem_singleton.1 hv]
  exact isBelow_self names directory

/-- A directory and what lies below its names, if no name comes twice. -/
theorem spreads_cons {names : List RawText} {directory : Bool} {below : List RawText}
    {visits : RawText → List Visit} (hbelow : below.Nodup) (hnames : ∀ s ∈ below, Path.IsName s)
    (hvisits : ∀ s ∈ below, Spreads (names ++ [s]) (visits s)) :
    Spreads names (⟨names, directory⟩ :: below.flatMap visits) := by
  refine ⟨fun v hv => ?_, ?_⟩
  · rcases List.mem_cons.1 hv with rfl | hv
    · exact isBelow_self names directory
    · obtain ⟨s, hs, hv⟩ := List.mem_flatMap.1 hv
      exact ((hvisits s hs).below v hv).of_name (hnames s hs)
  · rw [List.map_cons, List.map_flatMap, List.nodup_cons, List.nodup_flatMap]
    refine ⟨fun hmem => ?_, fun s hs => (hvisits s hs).ways, ?_⟩
    · -- below a name the way is longer
      obtain ⟨s, hs, hway⟩ := List.mem_flatMap.1 hmem
      obtain ⟨v, hv, heq⟩ := List.mem_map.1 hway
      obtain ⟨rest, hrest, -⟩ := (hvisits s hs).below v hv
      have hlength := congrArg List.length (hrest.symm.trans heq)
      simp only [List.length_append, List.length_singleton] at hlength
      omega
    · refine (List.Pairwise.and_mem.1 hbelow).imp ?_
      rintro s s' ⟨hs, hs', hne⟩ way hway hway'
      obtain ⟨v, hv, heq⟩ := List.mem_map.1 hway
      obtain ⟨v', hv', heq'⟩ := List.mem_map.1 hway'
      exact hne (((hvisits s hs).below v hv).name_unique ((hvisits s' hs').below v' hv')
        (heq.trans heq'.symm))

/-- A walk comes to places below its start only, to each in a way of its own. -/
theorem IsProper.spreads_walkFrom (h : t.IsProper) (keep : Visit → Bool) (depth : Nat)
    (inside : List Place) (names : List RawText) (place : Place) (directory : Bool) :
    Spreads names (t.walkFrom keep depth inside names place directory) := by
  induction depth generalizing inside names place directory with
  | zero =>
    rcases walkFrom_cases t keep 0 inside names place directory with hw | hw | ⟨below, hd, -⟩
    · exact hw ▸ spreads_nil names
    · exact hw ▸ spreads_singleton names directory
    · cases hd
  | succ depth ih =>
    rcases walkFrom_cases t keep (depth + 1) inside names place directory with
      hw | hw | ⟨below, hd, hw⟩
    · exact hw ▸ spreads_nil names
    · exact hw ▸ spreads_singleton names directory
    · obtain rfl := Nat.succ.inj hd
      rw [hw]
      refine spreads_cons (h.nodup_namesIn place) (fun s => h.isName_of_mem_namesIn) fun s _ => ?_
      unfold walkName
      split
      · exact ih _ _ _ _
      · exact spreads_nil _

/-- The ways to what a walk comes to are made of names, and no two are the same. -/
theorem IsProper.spreads_walk (h : t.IsProper) (keep : Visit → Bool) (start : Path) :
    Spreads [] (t.walk keep start) := by
  unfold walk
  split
  · exact h.spreads_walkFrom keep _ _ _ _ _
  · exact h.spreads_walkFrom keep _ _ _ _ _
  · exact spreads_nil []

/-! ## Ways into directories -/

/-- What a walk comes to is its start or lies below a name of its start, and the start is
not kept out. -/
theorem mem_walkFrom {keep : Visit → Bool} {depth : Nat} {inside : List Place}
    {names : List RawText} {place : Place} {directory : Bool} {v : Visit}
    (hv : v ∈ t.walkFrom keep depth inside names place directory) :
    keep ⟨names, directory⟩ = true ∧ (v = ⟨names, directory⟩ ∨
      directory = true ∧ ∃ below, ∃ name ∈ t.namesIn place,
        v ∈ t.walkName keep below inside names place name) := by
  unfold walkFrom at hv
  dsimp only at hv
  split at hv
  · exact absurd hv List.not_mem_nil
  · rename_i hkeep
    refine ⟨by simpa using hkeep, ?_⟩
    split at hv
    · exact .inl (List.mem_singleton.1 hv)
    · rename_i hdirectory
      cases depth with
      | zero => exact .inl (List.mem_singleton.1 hv)
      | succ below =>
        rcases List.mem_cons.1 hv with hstart | hbelow
        · exact .inl hstart
        · obtain ⟨name, hname, hv⟩ := List.mem_flatMap.1 hbelow
          exact .inr ⟨by simpa using hdirectory, below, name, hname, hv⟩

/-- What a walk comes to by a name lies below the name. -/
theorem IsProper.isBelow_of_mem_walkName (h : t.IsProper) {keep : Visit → Bool} {below : Nat}
    {inside : List Place} {names : List RawText} {place : Place} {name : RawText} {v : Visit}
    (hv : v ∈ t.walkName keep below inside names place name) : v.IsBelow (names ++ [name]) := by
  obtain ⟨found, directory, -, hv⟩ := mem_walkName_iff.1 hv
  exact (h.spreads_walkFrom keep _ _ _ _ _).below v hv

theorem mem_walk {keep : Visit → Bool} {start : Path} {v : Visit} (hv : v ∈ t.walk keep start) :
    ∃ depth place, v ∈ t.walkFrom keep depth [] [] place (t.isDirectory start) := by
  unfold walk at hv
  split at hv
  · rename_i place hstat
    rw [isDirectory, hstat]
    exact ⟨_, place, hv⟩
  · rename_i place entry hnot hstat
    refine ⟨t.walkDepth, place, ?_⟩
    cases entry with
    | directory => exact absurd rfl hnot
    | file content => rwa [isDirectory, hstat]
    | link target => rwa [isDirectory, hstat]
  · exact absurd hv List.not_mem_nil

/-- A walk that starts at a directory comes to a file by a name at least. -/
theorem IsProper.names_ne_nil (h : t.IsProper) {keep : Visit → Bool} {start : Path} {v : Visit}
    (hstart : t.isDirectory start = true) (hv : v ∈ t.walk keep start)
    (hfile : v.directory = false) : v.names ≠ [] := by
  obtain ⟨depth, place, hv⟩ := mem_walk hv
  rcases (mem_walkFrom hv).2 with rfl | ⟨-, below, name, -, hv⟩
  · rw [hstart] at hfile
    cases hfile
  · obtain ⟨rest, hrest, -⟩ := h.isBelow_of_mem_walkName hv
    rw [hrest]
    exact List.cons_ne_nil _ _

/-- A walk goes down into a directory only if it is not kept out. -/
theorem IsProper.keep_of_mem_walk (h : t.IsProper) {keep : Visit → Bool} {start : Path}
    {v : Visit} {name : RawText} {rest : List RawText} (hv : v ∈ t.walk keep start)
    (hnames : v.names = name :: rest) (hrest : rest ≠ []) : keep ⟨[name], true⟩ = true := by
  obtain ⟨depth, place, hv⟩ := mem_walk hv
  rcases (mem_walkFrom hv).2 with rfl | ⟨-, below, first, -, hv⟩
  · cases hnames
  · obtain ⟨tail, htail, -⟩ := h.isBelow_of_mem_walkName hv
    obtain ⟨rfl, -⟩ := List.cons.inj (hnames.symm.trans htail)
    obtain ⟨found, directory, -, hv⟩ := mem_walkName_iff.1 hv
    obtain ⟨hkeep, rfl | ⟨rfl, -⟩⟩ := mem_walkFrom hv
    · exact absurd (List.cons.inj hnames).2.symm hrest
    · exact hkeep

/-- A walk comes to the files that names in its start lead to. -/
theorem mem_walk_of_enters {keep : Visit → Bool} {start : Path} {base place : Place}
    {name : RawText} (hstart : t.stat start = .ok (base, .directory))
    (hname : name ∈ t.namesIn base) (h : t.Enters [base] base name place false)
    (hroot : keep ⟨[], true⟩ = true) (hkeep : keep ⟨[name], false⟩ = true) :
    ⟨[name], false⟩ ∈ t.walk keep start := by
  obtain ⟨below, hdepth⟩ : ∃ below, t.walkDepth = below + 1 :=
    Nat.exists_eq_succ_of_ne_zero (Nat.mul_ne_zero (Nat.succ_ne_zero _) (Nat.succ_ne_zero _))
  have hdown : ⟨[name], false⟩ ∈ t.walkName keep below [] [] base name := by
    refine mem_walkName_iff.2 ⟨place, false, h, ?_⟩
    rw [List.nil_append, walkFrom_file hkeep]
    exact List.mem_singleton.2 rfl
  rw [walk, hstart]
  dsimp only
  rw [hdepth, walkFrom_directory hroot]
  exact List.mem_cons_of_mem _ (List.mem_flatMap.2 ⟨name, hname, hdown⟩)

theorem mem_namesIn_of_entryAt? {place : Place} {name : RawText} {entry : Entry}
    (h : t.entryAt? (place ++ [name]) = some entry) : name ∈ t.namesIn place :=
  mem_namesIn_iff.2 ⟨_, mem_entries_of_entryAt? (by simp) h, rfl⟩

end Marginalia.FileTree
