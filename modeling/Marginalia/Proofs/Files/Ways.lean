import Marginalia.Proofs.Files.Presence
import Marginalia.Proofs.Files.Walk
import Mathlib.Data.List.Count
import Mathlib.Data.List.Infix

set_option autoImplicit false

/-!
# The ways of a walk

A way goes down from a directory by one name after the other, through the links that it
meets unless they lead back into a directory that it is inside of.  Every way ends: with
each step fewer entries lie below, and a link leads to a directory that was not entered
before.  So the bound of a walk cuts no way short, and a walk comes to all that its test
lets it come to and nothing else.
-/

namespace Marginalia.FileTree

variable {t : FileTree}

/-! ## Ways -/

/-- A way of names from what stands at a place; whether it ends at a directory is told by
the last index.  `around` holds the directories around the place. -/
inductive Way (t : FileTree) : (around : List Place) → Place → (directory : Bool) →
    List RawText → (last : Bool) → Prop
  | here {around : List Place} {place : Place} {directory : Bool} :
    Way t around place directory [] directory
  | down {around : List Place} {place found : Place} {name : RawText} {directory last : Bool}
    {names : List RawText} (step : t.Enters (place :: around) place name found directory)
    (rest : Way t (place :: around) found directory names last) :
    Way t around place true (name :: names) last

section Walk

variable {keep : Visit → Bool} {depth : Nat} {around : List Place} {names : List RawText}
  {place : Place} {directory : Bool} {v : Visit}

/-- A way goes by names. -/
theorem Way.isName {rest : List RawText} {last : Bool} (h : t.Way around place directory rest last)
    (ht : t.IsProper) : ∀ s ∈ rest, Path.IsName s := by
  induction h with
  | here => exact fun s hs => absurd hs List.not_mem_nil
  | down step _ ih =>
    intro s hs
    rcases List.mem_cons.1 hs with rfl | hs
    · exact ht.isName_of_mem_namesIn (mem_namesIn_iff.2 step.exists_entry)
    · exact ih s hs

/-- A walk whose bound is used up stays where it is. -/
theorem walkFrom_zero (h : keep ⟨names, directory⟩ = true) :
    t.walkFrom keep 0 around names place directory = [⟨names, directory⟩] := by
  unfold walkFrom
  dsimp only
  rw [h]
  cases directory <;> rfl

/-- What the walk comes to by the names in a directory. -/
theorem mem_flatMap_walkName_iff :
    v ∈ (t.namesIn place).flatMap (t.walkName keep depth around names place) ↔
      ∃ name found directory, t.Enters (place :: around) place name found directory ∧
        v ∈ t.walkFrom keep depth (place :: around) (names ++ [name]) found directory := by
  rw [List.mem_flatMap]
  constructor
  · rintro ⟨name, -, hv⟩
    exact ⟨name, mem_walkName_iff.1 hv⟩
  · rintro ⟨name, found, directory, henters, hv⟩
    exact ⟨name, mem_namesIn_iff.2 henters.exists_entry,
      mem_walkName_iff.2 ⟨found, directory, henters, hv⟩⟩

/-- Whether a test lets a walk go along names to what it comes to: it keeps all directories
on the way and what is at its end. -/
def KeepsAlong (keep : Visit → Bool) (names rest : List RawText) (last : Bool) : Prop :=
  ∀ front, front <+: rest → keep ⟨names ++ front, last || decide (front ≠ rest)⟩ = true

theorem keepsAlong_nil_iff {last : Bool} :
    KeepsAlong keep names [] last ↔ keep ⟨names, last⟩ = true := by
  simp [KeepsAlong]

theorem keepsAlong_cons_iff {name : RawText} {rest : List RawText} {last : Bool} :
    KeepsAlong keep names (name :: rest) last ↔
      keep ⟨names, true⟩ = true ∧ KeepsAlong keep (names ++ [name]) rest last := by
  unfold KeepsAlong
  constructor
  · intro h
    refine ⟨by simpa using h [] List.nil_prefix, fun front hfront => ?_⟩
    have hkeep := h (name :: front) ((List.prefix_cons_inj name).2 hfront)
    simpa using hkeep
  · rintro ⟨hstart, hrest⟩ front hfront
    rcases List.prefix_cons_iff.1 hfront with rfl | ⟨tail, rfl, htail⟩
    · simpa using hstart
    · simpa using hrest tail htail

theorem self_mem_walkFrom (h : keep ⟨names, directory⟩ = true) :
    ⟨names, directory⟩ ∈ t.walkFrom keep depth around names place directory := by
  rcases walkFrom_cases t keep depth around names place directory with hw | hw | ⟨below, -, hw⟩
  · unfold walkFrom at hw
    dsimp only at hw
    rw [h] at hw
    cases directory <;> cases depth <;> cases hw
  · exact hw ▸ List.mem_singleton.2 rfl
  · exact hw ▸ List.mem_cons_self

/-- The way that goes nowhere leads to the start. -/
theorem exists_way_here (hkeep : keep ⟨names, directory⟩ = true) (hv : v = ⟨names, directory⟩) :
    ∃ rest, v.names = names ++ rest ∧ t.Way around place directory rest v.directory ∧
      KeepsAlong keep names rest v.directory := by
  subst hv
  exact ⟨[], (List.append_nil names).symm, .here, keepsAlong_nil_iff.2 hkeep⟩

/-- A way leads to what a walk comes to, and the walk is let along it. -/
theorem way_of_mem_walkFrom
    (hv : v ∈ t.walkFrom keep depth around names place directory) :
    ∃ rest, v.names = names ++ rest ∧ t.Way around place directory rest v.directory ∧
      KeepsAlong keep names rest v.directory := by
  induction depth generalizing around names place directory with
  | zero =>
    have hkeep := (mem_walkFrom hv).1
    rw [walkFrom_zero hkeep, List.mem_singleton] at hv
    exact exists_way_here hkeep hv
  | succ depth ih =>
    have hkeep := (mem_walkFrom hv).1
    cases directory with
    | false =>
      rw [walkFrom_file hkeep, List.mem_singleton] at hv
      exact exists_way_here hkeep hv
    | true =>
      rw [walkFrom_directory hkeep, List.mem_cons, mem_flatMap_walkName_iff] at hv
      rcases hv with hv | ⟨name, found, directory, henters, hv⟩
      · exact exists_way_here hkeep hv
      · obtain ⟨rest, hnames, hway, hkeeps⟩ := ih hv
        refine ⟨name :: rest, ?_, .down henters hway, keepsAlong_cons_iff.2 ⟨hkeep, hkeeps⟩⟩
        rw [hnames, List.append_assoc, List.singleton_append]

/-- A walk comes to the end of a way within its bound if it is let along it. -/
theorem mem_walkFrom_of_way {rest : List RawText} {last : Bool}
    (h : t.Way around place directory rest last) (hdepth : rest.length ≤ depth)
    (hkeep : KeepsAlong keep names rest last) :
    ⟨names ++ rest, last⟩ ∈ t.walkFrom keep depth around names place directory := by
  induction h generalizing depth names with
  | here =>
    rw [List.append_nil]
    exact self_mem_walkFrom (keepsAlong_nil_iff.1 hkeep)
  | @down around place found name directory last rest step _ ih =>
    obtain ⟨hstart, hrest⟩ := keepsAlong_cons_iff.1 hkeep
    obtain ⟨below, rfl⟩ : ∃ below, depth = below + 1 :=
      Nat.exists_eq_succ_of_ne_zero (Nat.ne_of_gt (Nat.lt_of_lt_of_le (Nat.succ_pos _) hdepth))
    have hbelow := ih (Nat.le_of_succ_le_succ hdepth) hrest
    rw [List.append_assoc, List.singleton_append] at hbelow
    rw [walkFrom_directory hstart]
    exact List.mem_cons_of_mem _
      (mem_flatMap_walkName_iff.2 ⟨name, found, directory, step, hbelow⟩)

end Walk

/-! ## The length of ways -/

section Length

/-- The places where there can be a directory. -/
def places (t : FileTree) : List Place := [] :: t.entries.map (·.1)

/-- The number of places outside of some. -/
def outside (t : FileTree) (around : List Place) : Nat := t.places.countP (· ∉ around)

/-- The number of entries below a place. -/
def below (t : FileTree) (place : Place) : Nat :=
  t.entries.countP fun e => place <+: e.1 ∧ e.1 ≠ place

variable {around : List Place} {place found : Place} {name : RawText} {directory last : Bool}
  {names : List RawText}

theorem below_le (t : FileTree) (place : Place) : t.below place ≤ t.entries.length :=
  List.countP_le_length

/-- Of two tests the one that passes less passes less often, if it refuses a member that the
other one passes. -/
theorem countP_lt {α : Type} {p q : α → Bool} {l : List α} {a : α}
    (h : ∀ b ∈ l, p b = true → q b = true) (ha : a ∈ l) (hp : ¬p a = true) (hq : q a = true) :
    l.countP p < l.countP q := by
  obtain ⟨front, back, rfl⟩ := List.append_of_mem ha
  have hfront : front.countP p ≤ front.countP q :=
    List.countP_mono_left fun b hb => h b (List.mem_append_left _ hb)
  have hback : back.countP p ≤ back.countP q :=
    List.countP_mono_left fun b hb => h b (List.mem_append_right _ (List.mem_cons_of_mem _ hb))
  rw [List.countP_append, List.countP_append, List.countP_cons_of_neg hp,
    List.countP_cons_of_pos hq]
  omega

/-- Fewer entries lie below an entry of a directory than below the directory. -/
theorem below_child_lt (h : ∃ e ∈ t.entries, e.1 = place ++ [name]) :
    t.below (place ++ [name]) < t.below place := by
  obtain ⟨e, he, hplace⟩ := h
  refine countP_lt ?_ he ?_ ?_
  · intro b _ hb
    obtain ⟨hinside, -⟩ := of_decide_eq_true hb
    refine decide_eq_true ⟨(List.prefix_append _ _).trans hinside, fun heq => ?_⟩
    have hlength := hinside.length_le
    rw [heq, List.length_append, List.length_singleton] at hlength
    omega
  · rw [decide_eq_true_iff]
    exact fun hboth => hboth.2 hplace
  · refine decide_eq_true ⟨hplace ▸ List.prefix_append _ _, fun heq => ?_⟩
    have hlength := congrArg List.length (hplace.symm.trans heq)
    rw [List.length_append, List.length_singleton] at hlength
    omega

/-- Fewer places are outside when one more of them is taken in. -/
theorem outside_cons_lt (hplace : found ∈ t.places) (hout : found ∉ around) :
    t.outside (found :: around) < t.outside around := by
  refine countP_lt ?_ hplace ?_ (decide_eq_true hout)
  · intro q _ hq
    exact decide_eq_true fun hmem => of_decide_eq_true hq (List.mem_cons_of_mem _ hmem)
  · rw [decide_eq_true_iff]
    exact fun hnot => hnot List.mem_cons_self

theorem outside_cons_le (t : FileTree) (found : Place) (around : List Place) :
    t.outside (found :: around) ≤ t.outside around := by
  refine List.countP_mono_left fun q _ hq => ?_
  exact decide_eq_true fun hmem => of_decide_eq_true hq (List.mem_cons_of_mem _ hmem)

/-- A link that leads to a directory leads to one of these places. -/
theorem mem_places_of_stat {link : Place} (h : t.stat (pathOf link) = .ok (found, .directory)) :
    found ∈ t.places := by
  obtain ⟨start, hstart, hfollow⟩ := exists_follow_of_stat h
  rw [start?, if_pos (isAbsolute_pathOf link)] at hstart
  cases hstart
  by_cases hroot : found = []
  · exact hroot ▸ List.mem_cons_self
  · have hentry := IsOpen.nil.of_follow hfollow found hroot List.prefix_rfl
    exact List.mem_cons_of_mem _ (List.mem_map.2 ⟨_, mem_entries_of_entryAt? hroot hentry, rfl⟩)

/-- What is left to go from a place: the entries below it, and for each directory that a link
can still lead to, those that can be below that one. -/
def room (t : FileTree) (around : List Place) (place : Place) : Nat :=
  t.entries.length * t.outside (place :: around) + t.below place

/-- A step needs room. -/
theorem room_pos (h : t.Enters (place :: around) place name found directory) :
    0 < t.room around place :=
  Nat.lt_of_lt_of_le (Nat.lt_of_le_of_lt (Nat.zero_le _) (below_child_lt h.exists_entry))
    (Nat.le_add_left _ _)

/-- Each step into a directory leaves less room. -/
theorem room_lt (h : t.Enters (place :: around) place name found true) :
    t.room (place :: around) found < t.room around place := by
  have hbelow := below_child_lt h.exists_entry
  unfold room
  cases h with
  | directory hentry =>
    have houtside := Nat.mul_le_mul_left t.entries.length
      (t.outside_cons_le (place ++ [name]) (place :: around))
    omega
  | linkToDirectory hentry hstat hout =>
    have houtside := Nat.mul_le_mul_left t.entries.length
      (outside_cons_lt (mem_places_of_stat hstat) hout)
    have hle := t.below_le found
    rw [Nat.mul_succ] at houtside
    omega

theorem Way.length_le_room (h : t.Way around place directory names last) :
    names.length ≤ if directory then t.room around place else 0 := by
  induction h with
  | here => exact Nat.zero_le _
  | @down around place found name directory last names step _ ih =>
    rw [List.length_cons, if_pos rfl]
    cases directory with
    | false =>
      have hpos := room_pos step
      simp only [Bool.false_eq_true, if_false] at ih
      omega
    | true =>
      have hlt := room_lt step
      simp only [if_true] at ih
      omega

/-- A way from a directory is not longer than a walk can go down. -/
theorem Way.length_le (h : t.Way [] place true names last) : names.length ≤ t.walkDepth := by
  have hroom := h.length_le_room
  rw [if_pos rfl, room] at hroom
  have houtside : t.outside [place] ≤ t.entries.length + 1 := by
    have hcount : t.outside [place] ≤ t.places.length := List.countP_le_length
    rwa [places, List.length_cons, List.length_map] at hcount
  have hbound := Nat.mul_le_mul_left t.entries.length houtside
  have hbelow := t.below_le place
  rw [walkDepth, Nat.add_one_mul]
  omega

end Length

/-- A walk comes to all that its test lets it come to, and to nothing else. -/
theorem mem_walk_iff {keep : Visit → Bool} {start : Path} {place : Place} {v : Visit}
    (hstart : t.stat start = .ok (place, .directory)) :
    v ∈ t.walk keep start ↔
      t.Way [] place true v.names v.directory ∧ KeepsAlong keep [] v.names v.directory := by
  rw [walk, hstart]
  dsimp only
  constructor
  · intro hv
    obtain ⟨rest, hnames, hway, hkeep⟩ := way_of_mem_walkFrom hv
    rw [List.nil_append] at hnames
    exact hnames ▸ ⟨hway, hkeep⟩
  · rintro ⟨hway, hkeep⟩
    exact mem_walkFrom_of_way hway hway.length_le hkeep

end Marginalia.FileTree
