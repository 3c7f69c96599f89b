import Marginalia.Files.Resolve
import Marginalia.Proofs.Path.Parts

set_option autoImplicit false

/-!
# The route of a path

A path is followed piece by piece.  Empty pieces and dots lead nowhere else, a name
is looked up in the directory reached so far, and where it is a link the pieces of the
link come before those that are left.  A route that comes to something is told by what
it meets at each piece, so that what holds of every route is shown by induction on it.
A route that comes to a directory goes on from there, and where no link is met the names
of a path spell the place it leads to.
-/

namespace Marginalia.FileTree

/-! ## One piece after the other -/

/-- Whether a piece of a path leads nowhere else. -/
def IsSkipped (piece : RawText) : Prop := piece = [] ∨ piece = [Path.dot]

/-- Whether a piece of a path is looked up in a directory. -/
def IsLookedUp (piece : RawText) : Prop := ¬IsSkipped piece ∧ piece ≠ [Path.dot, Path.dot]

theorem not_isSkipped_up : ¬IsSkipped [Path.dot, Path.dot] := by
  simp [IsSkipped]

/-- Where a route starts over that comes to a link. -/
def linkStart (place : Place) (target : Path) : Place := if target.isAbsolute then [] else place

variable {t : FileTree} {last : Bool} {links : Nat} {place : Place} {rest : List RawText}

theorem follow_nil : t.follow last links place [] = .ok (.found place .directory) := by
  rw [follow]

theorem follow_skipped {piece : RawText} (h : IsSkipped piece) :
    t.follow last links place (piece :: rest) = t.follow last links place rest := by
  rcases h with rfl | rfl <;> simp [follow]

theorem follow_up :
    t.follow last links place ([Path.dot, Path.dot] :: rest) =
      t.follow last links place.dropLast rest := by
  simp [follow]

/-- What comes of a name, by what stands in the directory under it. -/
theorem follow_name {name : RawText} (h : IsLookedUp name) :
    t.follow last links place (name :: rest) =
      if maxNameLength < name.length then .error .nameTooLong
      else
        match t.entryAt? (place ++ [name]) with
        | none =>
          if rest.all (· == []) then .ok (.vacant (place ++ [name]) (!rest.isEmpty))
          else .error .notFound
        | some .directory => t.follow last links (place ++ [name]) rest
        | some (.file content) =>
          if rest.isEmpty then .ok (.found (place ++ [name]) (.file content))
          else .error .notADirectory
        | some (.link target) =>
          if rest.isEmpty && !last then .ok (.found (place ++ [name]) (.link target))
          else
            match links with
            | 0 => .error .linkLoop
            | links + 1 =>
              t.follow last links (linkStart place target) (target.segments ++ rest) := by
  obtain ⟨hskip, hup⟩ := h
  simp only [IsSkipped, not_or] at hskip
  rw [follow]
  simp only [hskip.1, hskip.2, hup, decide_false, Bool.or_self, Bool.false_eq_true, if_false]
  split
  · rfl
  · rcases t.entryAt? (place ++ [name]) with _ | _ | content | target
    · rfl
    · rfl
    · rfl
    · dsimp only
      split
      · rfl
      · cases links <;> rfl

/-- Induction along the route of a path: over the pieces, and where a link is followed over
the links that may still be followed. -/
theorem follow_induction (t : FileTree) {motive : Nat → Place → List RawText → Prop}
    (nil : ∀ links place, motive links place [])
    (skipped : ∀ links place piece rest, IsSkipped piece → motive links place rest →
      motive links place (piece :: rest))
    (up : ∀ links place rest, motive links place.dropLast rest →
      motive links place ([Path.dot, Path.dot] :: rest))
    (name : ∀ links place name rest, IsLookedUp name →
      (t.entryAt? (place ++ [name]) = some .directory → motive links (place ++ [name]) rest) →
      (∀ target fewer, t.entryAt? (place ++ [name]) = some (.link target) → links = fewer + 1 →
        motive fewer (linkStart place target) (target.segments ++ rest)) →
      motive links place (name :: rest))
    (links : Nat) (place : Place) (pieces : List RawText) : motive links place pieces := by
  induction links using Nat.strongRecOn generalizing place pieces with
  | _ links ihLinks =>
    induction pieces generalizing place with
    | nil => exact nil links place
    | cons piece rest ih =>
      by_cases hskip : IsSkipped piece
      · exact skipped links place piece rest hskip (ih place)
      · by_cases hup : piece = [Path.dot, Path.dot]
        · subst hup
          exact up links place rest (ih _)
        · refine name links place piece rest ⟨hskip, hup⟩ (fun _ => ih _) ?_
          rintro target fewer _ rfl
          exact ihLinks fewer (Nat.lt_succ_self fewer) _ _

/-! ## What a name leads to -/

section Names

variable {name : RawText} (hname : IsLookedUp name)
include hname

theorem follow_directory (hentry : t.entryAt? (place ++ [name]) = some .directory) :
    t.follow last links place (name :: rest) =
      if maxNameLength < name.length then .error .nameTooLong
      else t.follow last links (place ++ [name]) rest := by
  rw [follow_name hname]
  simp only [hentry]

theorem follow_file {content : Content}
    (hentry : t.entryAt? (place ++ [name]) = some (.file content)) :
    t.follow last links place [name] =
      if maxNameLength < name.length then .error .nameTooLong
      else .ok (.found (place ++ [name]) (.file content)) := by
  rw [follow_name hname]
  simp only [hentry]
  rfl

variable (hshort : name.length ≤ maxNameLength) {target : Path}
  (hentry : t.entryAt? (place ++ [name]) = some (.link target))
include hshort hentry

theorem follow_link_zero (hgoes : (rest.isEmpty && !last) = false) :
    t.follow last 0 place (name :: rest) = .error .linkLoop := by
  rw [follow_name hname, if_neg (Nat.not_lt.2 hshort)]
  simp only [hentry, hgoes, Bool.false_eq_true, if_false]

theorem follow_link_succ (hgoes : (rest.isEmpty && !last) = false) :
    t.follow last (links + 1) place (name :: rest) =
      t.follow last links (linkStart place target) (target.segments ++ rest) := by
  rw [follow_name hname, if_neg (Nat.not_lt.2 hshort)]
  simp only [hentry, hgoes, Bool.false_eq_true, if_false]

end Names

/-! ## Routes that come to something -/

/-- A route that comes to a spot, by what it meets at each piece. -/
inductive Route (t : FileTree) (last : Bool) : Nat → Place → List RawText → Spot → Prop
  | arrived {links : Nat} {place : Place} : Route t last links place [] (.found place .directory)
  | skipped {links : Nat} {place : Place} {piece : RawText} {rest : List RawText} {spot : Spot}
      (hpiece : IsSkipped piece) (onward : Route t last links place rest spot) :
      Route t last links place (piece :: rest) spot
  | up {links : Nat} {place : Place} {rest : List RawText} {spot : Spot}
      (onward : Route t last links place.dropLast rest spot) :
      Route t last links place ([Path.dot, Path.dot] :: rest) spot
  | vacant {links : Nat} {place : Place} {name : RawText} {rest : List RawText}
      (hname : IsLookedUp name) (hshort : name.length ≤ maxNameLength)
      (hentry : t.entryAt? (place ++ [name]) = none) (hrest : rest.all (· == []) = true) :
      Route t last links place (name :: rest) (.vacant (place ++ [name]) (!rest.isEmpty))
  | directory {links : Nat} {place : Place} {name : RawText} {rest : List RawText} {spot : Spot}
      (hname : IsLookedUp name) (hshort : name.length ≤ maxNameLength)
      (hentry : t.entryAt? (place ++ [name]) = some .directory)
      (onward : Route t last links (place ++ [name]) rest spot) :
      Route t last links place (name :: rest) spot
  | file {links : Nat} {place : Place} {name : RawText} {content : Content}
      (hname : IsLookedUp name) (hshort : name.length ≤ maxNameLength)
      (hentry : t.entryAt? (place ++ [name]) = some (.file content)) :
      Route t last links place [name] (.found (place ++ [name]) (.file content))
  | link {links : Nat} {place : Place} {name : RawText} {target : Path}
      (hname : IsLookedUp name) (hshort : name.length ≤ maxNameLength)
      (hentry : t.entryAt? (place ++ [name]) = some (.link target)) (hlast : last = false) :
      Route t last links place [name] (.found (place ++ [name]) (.link target))
  | through {links : Nat} {place : Place} {name : RawText} {target : Path} {rest : List RawText}
      {spot : Spot} (hname : IsLookedUp name) (hshort : name.length ≤ maxNameLength)
      (hentry : t.entryAt? (place ++ [name]) = some (.link target))
      (hgoes : (rest.isEmpty && !last) = false)
      (onward : Route t last links (linkStart place target) (target.segments ++ rest) spot) :
      Route t last (links + 1) place (name :: rest) spot

theorem Route.of_follow {pieces : List RawText} {spot : Spot}
    (h : t.follow last links place pieces = .ok spot) : t.Route last links place pieces spot := by
  induction links, place, pieces using follow_induction t with
  | nil links place =>
    rw [follow_nil, Except.ok.injEq] at h
    exact h ▸ .arrived
  | skipped links place piece rest hpiece ih =>
    rw [follow_skipped hpiece] at h
    exact .skipped hpiece (ih h)
  | up links place rest ih =>
    rw [follow_up] at h
    exact .up (ih h)
  | name links place name rest hname ihDirectory ihLink =>
    rw [follow_name hname] at h
    split at h
    · cases h
    · rename_i hlong
      have hshort := Nat.not_lt.1 hlong
      split at h
      · rename_i hentry
        split at h <;> cases h
        exact .vacant hname hshort hentry ‹_›
      · rename_i hentry
        exact .directory hname hshort hentry (ihDirectory hentry h)
      · rename_i content hentry
        split at h <;> cases h
        obtain rfl := List.isEmpty_iff.1 ‹rest.isEmpty = true›
        exact .file hname hshort hentry
      · rename_i target hentry
        split at h
        · rename_i hstops
          cases h
          rw [Bool.and_eq_true, List.isEmpty_iff, Bool.not_eq_true'] at hstops
          obtain ⟨rfl, hlast⟩ := hstops
          exact .link hname hshort hentry hlast
        · rename_i hgoes
          split at h
          · cases h
          · exact .through hname hshort hentry (Bool.eq_false_iff.2 hgoes)
              (ihLink target _ hentry rfl h)

/-- What a route comes to is found by following it. -/
theorem Route.follow_eq {pieces : List RawText} {spot : Spot}
    (h : t.Route last links place pieces spot) : t.follow last links place pieces = .ok spot := by
  induction h with
  | arrived => exact follow_nil
  | skipped hpiece _ ih => rw [follow_skipped hpiece, ih]
  | up _ ih => rw [follow_up, ih]
  | vacant hname hshort hentry hrest =>
    rw [follow_name hname, if_neg (Nat.not_lt.2 hshort)]
    simp only [hentry, hrest, if_true]
  | directory hname hshort hentry _ ih =>
    rw [follow_directory hname hentry, if_neg (Nat.not_lt.2 hshort), ih]
  | file hname hshort hentry => rw [follow_file hname hentry, if_neg (Nat.not_lt.2 hshort)]
  | link hname hshort hentry hlast =>
    rw [follow_name hname, if_neg (Nat.not_lt.2 hshort)]
    simp only [hentry, hlast, List.isEmpty_nil, Bool.not_false, Bool.and_self, if_true]
  | through hname hshort hentry hgoes _ ih =>
    rw [follow_link_succ hname hshort hentry hgoes, ih]

/-- A route that follows all links does not come to a link. -/
theorem ne_link_of_follow {here : Place} {entry : Entry} {pieces : List RawText}
    (h : t.follow true links place pieces = .ok (.found here entry)) (target : Path) :
    entry ≠ .link target := by
  generalize hspot : Spot.found here entry = spot at h
  replace h := Route.of_follow h
  induction h with
  | arrived =>
    cases hspot
    nofun
  | skipped _ _ ih => exact ih hspot
  | up _ ih => exact ih hspot
  | vacant => cases hspot
  | directory _ _ _ _ ih => exact ih hspot
  | file =>
    cases hspot
    nofun
  | link _ _ _ hlast => cases hlast
  | through _ _ _ _ _ ih => exact ih hspot

/-! ## Routes that go on -/

/-- A route that comes to a directory goes on from there. -/
theorem follow_append (t : FileTree) {links : Nat} {place here : Place} {front : List RawText}
    (h : t.follow true links place front = .ok (.found here .directory)) :
    ∃ fewer, ∀ last back, back ≠ [] →
      t.follow last links place (front ++ back) = t.follow last fewer here back := by
  generalize hspot : Spot.found here .directory = spot at h
  replace h := Route.of_follow h
  induction h with
  | @arrived links place =>
    cases hspot
    exact ⟨links, fun last back _ => rfl⟩
  | skipped hpiece _ ih =>
    obtain ⟨fewer, hgo⟩ := ih hspot
    exact ⟨fewer, fun last back hback => by
      rw [List.cons_append, follow_skipped hpiece, hgo last back hback]⟩
  | up _ ih =>
    obtain ⟨fewer, hgo⟩ := ih hspot
    exact ⟨fewer, fun last back hback => by
      rw [List.cons_append, follow_up, hgo last back hback]⟩
  | vacant => cases hspot
  | directory hname hshort hentry _ ih =>
    obtain ⟨fewer, hgo⟩ := ih hspot
    exact ⟨fewer, fun last back hback => by
      rw [List.cons_append, follow_directory hname hentry, if_neg (Nat.not_lt.2 hshort),
        hgo last back hback]⟩
  | file => cases hspot
  | link => cases hspot
  | @through _ _ _ target rest _ hname hshort hentry _ _ ih =>
    obtain ⟨fewer, hgo⟩ := ih hspot
    refine ⟨fewer, fun last back hback => ?_⟩
    have hmore : (rest ++ back).isEmpty = false :=
      List.isEmpty_eq_false_iff.2 fun hnil => hback (List.append_eq_nil_iff.1 hnil).2
    have hgoes : ((rest ++ back).isEmpty && !last) = false := by rw [hmore, Bool.false_and]
    rw [List.cons_append, follow_link_succ hname hshort hentry hgoes, ← List.append_assoc,
      hgo last back hback]

/-! ## Names without links -/

theorem isLookedUp_of_isName {s : RawText} (h : Path.IsName s) : IsLookedUp s :=
  ⟨fun hskip => hskip.elim h.1 h.2.1, h.2.2.1⟩

/-- Whether a link stands on the way that names lead down from a place. -/
def HasLink (t : FileTree) (place : Place) (names : List RawText) : Prop :=
  ∃ way target, way ≠ [] ∧ way <+: names ∧ t.entryAt? (place ++ way) = some (.link target)

theorem HasLink.of_name {name : RawText} {names : List RawText}
    (h : t.HasLink (place ++ [name]) names) : t.HasLink place (name :: names) := by
  obtain ⟨way, target, -, hway, hentry⟩ := h
  rw [List.append_assoc] at hentry
  exact ⟨name :: way, target, List.cons_ne_nil _ _, (List.prefix_cons_inj name).2 hway, hentry⟩

/-- Where no link stands on the way, names lead down to their own place. -/
theorem place_of_follow_names {last : Bool} {links : Nat} {place here : Place} {entry : Entry}
    {names : List RawText} (hnames : ∀ s ∈ names, Path.IsName s)
    (hlinks : ¬t.HasLink place names)
    (h : t.follow last links place names = .ok (.found here entry)) :
    here = place ++ names := by
  generalize hspot : Spot.found here entry = spot at h
  replace h := Route.of_follow h
  induction h with
  | @arrived links place =>
    cases hspot
    rw [List.append_nil]
  | skipped hpiece _ _ =>
    exact absurd hpiece (isLookedUp_of_isName (hnames _ List.mem_cons_self)).1
  | up _ _ => exact absurd rfl (isLookedUp_of_isName (hnames _ List.mem_cons_self)).2
  | vacant => cases hspot
  | @directory _ place name _ _ _ _ _ _ ih =>
    rw [ih (fun s hs => hnames s (List.mem_cons_of_mem _ hs)) (fun hlink => hlinks hlink.of_name)
      hspot, List.append_assoc]
    rfl
  | file => cases hspot; rfl
  | link => cases hspot; rfl
  | @through _ _ name target rest _ _ _ hentry _ _ _ =>
    exact absurd ⟨[name], target, List.cons_ne_nil _ _, ⟨rest, rfl⟩, hentry⟩ hlinks

/-! ## Routes over the same pieces -/

/-- Whether two routes differ in skipped pieces only, and both end in a name. -/
inductive SameRoute : List RawText → List RawText → Prop
  | last {name : RawText} (h : IsLookedUp name) : SameRoute [name] [name]
  | skipLeft {piece : RawText} {a b : List RawText} (h : IsSkipped piece) (rest : SameRoute a b) :
      SameRoute (piece :: a) b
  | skipRight {piece : RawText} {a b : List RawText} (h : IsSkipped piece) (rest : SameRoute a b) :
      SameRoute a (piece :: b)
  | cons (piece : RawText) {a b : List RawText} (rest : SameRoute a b) :
      SameRoute (piece :: a) (piece :: b)

namespace SameRoute

variable {a b : List RawText}

theorem append (h : SameRoute a b) (front : List RawText) :
    SameRoute (front ++ a) (front ++ b) := by
  induction front with
  | nil => exact h
  | cons piece front ih => exact .cons piece ih

theorem symm (h : SameRoute a b) : SameRoute b a := by
  induction h with
  | last h => exact .last h
  | skipLeft h _ ih => exact .skipRight h ih
  | skipRight h _ ih => exact .skipLeft h ih
  | cons piece _ ih => exact .cons piece ih

/-- A route that ends in a name is not made of empty pieces. -/
theorem not_all_empty (h : SameRoute a b) : a.all (· == []) = false := by
  induction h with
  | last h =>
    have hne : ¬_ = [] := fun heq => h.1 (.inl heq)
    simp [hne]
  | skipLeft _ _ ih => rw [List.all_cons, ih, Bool.and_false]
  | skipRight _ _ ih => exact ih
  | cons _ _ ih => rw [List.all_cons, ih, Bool.and_false]

theorem isEmpty_eq (h : SameRoute a b) : a.isEmpty = false := by
  have hall := h.not_all_empty
  cases a with
  | nil => cases hall
  | cons => rfl

end SameRoute

/-- Skipped pieces do not matter to a route that ends in a name. -/
theorem follow_congr {a b : List RawText} (h : SameRoute a b) (last : Bool) (links : Nat)
    (place : Place) : t.follow last links place a = t.follow last links place b := by
  induction links using Nat.strongRecOn generalizing place a b with
  | _ links ihLinks =>
    induction h generalizing place with
    | last => rfl
    | skipLeft hpiece _ ih => rw [follow_skipped hpiece, ih]
    | skipRight hpiece _ ih => rw [follow_skipped hpiece, ih]
    | @cons piece a b rest ih =>
      by_cases hskip : IsSkipped piece
      · rw [follow_skipped hskip, follow_skipped hskip, ih]
      · by_cases hup : piece = [Path.dot, Path.dot]
        · rw [hup, follow_up, follow_up, ih]
        · rw [follow_name ⟨hskip, hup⟩, follow_name ⟨hskip, hup⟩]
          simp only [rest.not_all_empty, rest.symm.not_all_empty, rest.isEmpty_eq,
            rest.symm.isEmpty_eq, ih]
          split
          · rfl
          · split
            · rfl
            · rfl
            · rfl
            · rename_i target _
              cases links with
              | zero => rfl
              | succ fewer =>
                simp only [Bool.false_and, Bool.false_eq_true, if_false]
                exact ihLinks fewer (Nat.lt_succ_self fewer) (rest.append target.segments) _

/-! ## Where it starts -/

/-- The place where a path starts, if there is one. -/
def start? (t : FileTree) (p : Path) : Option Place := if p.isAbsolute then some [] else t.current

theorem isAbsolute_pathOf (place : Place) : (pathOf place).isAbsolute = true := by
  have hall : ∀ (ps : List Path.Part) (base : Path), base.isAbsolute = true →
      (ps.foldl (fun p part => p.join ⟨part.bytes⟩) base).isAbsolute = true := by
    intro ps
    induction ps with
    | nil => exact fun _ h => h
    | cons part ps ih => exact fun base h => ih _ (Path.isAbsolute_join_of_isAbsolute h _)
  exact hall _ ⟨[Path.slash]⟩ rfl

theorem locate_of_stat {p : Path} {place : Place} {entry : Entry}
    (h : t.stat p = .ok (place, entry)) : t.locate true p = .ok (.found place entry) := by
  unfold stat at h
  split at h
  · rename_i hlocate
    cases h
    exact hlocate
  · cases h
  · cases h

theorem exists_stat_of_isDirectory {p : Path} (h : t.isDirectory p = true) :
    ∃ place, t.stat p = .ok (place, .directory) := by
  unfold isDirectory at h
  split at h
  · rename_i place hstat
    exact ⟨place, hstat⟩
  · cases h

/-- Whether a path can be looked up at all. -/
structure IsSound (p : Path) : Prop where
  plain : 0 ∉ p.bytes
  nonempty : p.bytes ≠ []
  short : p.bytes.length < pathLengthLimit

instance (p : Path) : Decidable (IsSound p) :=
  decidable_of_iff
    (0 ∉ p.bytes ∧ p.bytes ≠ [] ∧ p.bytes.length < pathLengthLimit)
    ⟨fun h => ⟨h.1, h.2.1, h.2.2⟩, fun h => ⟨h.plain, h.nonempty, h.short⟩⟩

/-- What a path that can be looked up leads to is found on its route. -/
theorem locate_of_isSound {p : Path} (h : IsSound p) (last : Bool) :
    t.locate last p =
      match t.start? p with
      | some place => t.follow last linkBudget place p.segments
      | none => .error .notFound := by
  have hplain : p.bytes.contains 0 = false := by
    simpa using h.plain
  have hshort : ¬pathLengthLimit ≤ p.bytes.length := by
    have hlt := h.short
    omega
  unfold locate start?
  simp only [hplain, h.nonempty, hshort, Bool.false_eq_true, if_false]
  split
  · rfl
  · rfl

theorem isSound_of_locate {p : Path} {last : Bool} {spot : Spot}
    (h : t.locate last p = .ok spot) : IsSound p := by
  unfold locate at h
  split at h
  · cases h
  · rename_i hplain
    split at h
    · cases h
    · rename_i hnonempty
      split at h
      · cases h
      · rename_i hshort
        exact ⟨by simpa using hplain, hnonempty, by omega⟩

/-- What a path leads to is found on its route. -/
theorem exists_follow_of_stat {p : Path} {here : Place} {entry : Entry}
    (h : t.stat p = .ok (here, entry)) :
    ∃ start, t.start? p = some start ∧
      t.follow true linkBudget start p.segments = .ok (.found here entry) := by
  have hlocate := locate_of_stat h
  rw [locate_of_isSound (isSound_of_locate hlocate)] at hlocate
  split at hlocate
  · rename_i start hstart
    exact ⟨start, hstart, hlocate⟩
  · cases hlocate

/-- A path is never found to lead to a link. -/
theorem ne_link_of_stat {p : Path} {place : Place} {entry : Entry}
    (h : t.stat p = .ok (place, entry)) (target : Path) : entry ≠ .link target := by
  obtain ⟨start, -, hfollow⟩ := exists_follow_of_stat h
  exact ne_link_of_follow hfollow target

/-! ## Ways through directories -/

/-- Whether names lead down from a place through directories to what is no link. -/
inductive Descends (t : FileTree) : Place → List RawText → Entry → Prop
  | last {place : Place} {name : RawText} {entry : Entry}
    (hname : Path.IsName name ∧ name.length ≤ maxNameLength)
    (hentry : t.entryAt? (place ++ [name]) = some entry) (hlink : ∀ target, entry ≠ .link target) :
    Descends t place [name] entry
  | down {place : Place} {name : RawText} {names : List RawText} {entry : Entry}
    (hname : Path.IsName name ∧ name.length ≤ maxNameLength)
    (hentry : t.entryAt? (place ++ [name]) = some .directory)
    (rest : Descends t (place ++ [name]) names entry) : Descends t place (name :: names) entry

theorem Descends.follow {names : List RawText} {entry : Entry} (h : t.Descends place names entry)
    (last : Bool) (links : Nat) :
    t.follow last links place names = .ok (.found (place ++ names) entry) := by
  induction h with
  | @last place name entry hname hentry hlink =>
    rw [follow_name (isLookedUp_of_isName hname.1), if_neg (Nat.not_lt.2 hname.2), hentry]
    cases entry with
    | directory => exact follow_nil
    | file content => rfl
    | link target => exact absurd rfl (hlink target)
  | down hname hentry rest ih =>
    rw [follow_name (isLookedUp_of_isName hname.1), if_neg (Nat.not_lt.2 hname.2), hentry]
    simpa using ih

/-- The path of names that lead down from the root leads to what stands there. -/
theorem Descends.locate {names : List RawText} {entry : Entry} (h : t.Descends [] names entry)
    {p : Path} (hsound : IsSound p) (hsegments : p.segments = [] :: names)
    (habsolute : p.isAbsolute = true) (last : Bool) :
    t.locate last p = .ok (.found names entry) := by
  rw [locate_of_isSound hsound, start?, if_pos habsolute, hsegments]
  exact (follow_skipped (.inl rfl)).trans (h.follow last linkBudget)

theorem Descends.stat {names : List RawText} {entry : Entry} (h : t.Descends [] names entry)
    {p : Path} (hsound : IsSound p) (hsegments : p.segments = [] :: names)
    (habsolute : p.isAbsolute = true) : t.stat p = .ok (names, entry) := by
  rw [FileTree.stat, h.locate hsound hsegments habsolute]

/-! ## Whoever follows it -/

section Entries

variable {t' : FileTree}

theorem entryAt?_of_entries (h : t'.entries = t.entries) (place : Place) :
    t'.entryAt? place = t.entryAt? place := by
  rw [entryAt?, entryAt?, h]

/-- A route depends on what stands in the tree, and not on who follows it. -/
theorem follow_of_entries (h : t'.entries = t.entries) (last : Bool) (links : Nat) (place : Place)
    (pieces : List RawText) :
    t'.follow last links place pieces = t.follow last links place pieces := by
  induction links, place, pieces using follow_induction t with
  | nil links place => rw [follow_nil, follow_nil]
  | skipped links place piece rest hpiece ih =>
    rw [follow_skipped hpiece, follow_skipped hpiece, ih]
  | up links place rest ih => rw [follow_up, follow_up, ih]
  | name links place name rest hname ihDirectory ihLink =>
    rw [follow_name hname, follow_name hname, entryAt?_of_entries h]
    split
    · rfl
    · split
      · rfl
      · exact ihDirectory ‹_›
      · rfl
      · rename_i target hentry
        split
        · rfl
        · cases links with
          | zero => rfl
          | succ fewer => exact ihLink target fewer hentry rfl

/-- An absolute path leads to the same for all. -/
theorem locate_of_entries (h : t'.entries = t.entries) {p : Path} (hp : p.isAbsolute = true)
    (last : Bool) : t'.locate last p = t.locate last p := by
  simp only [locate, hp, follow_of_entries h, if_true]

theorem stat_of_entries (h : t'.entries = t.entries) {p : Path} (hp : p.isAbsolute = true) :
    t'.stat p = t.stat p := by
  rw [stat, stat, locate_of_entries h hp]

theorem read_of_entries (h : t'.entries = t.entries) {p : Path} (hp : p.isAbsolute = true) :
    t'.read p = t.read p := by
  rw [read, read, stat_of_entries h hp]

end Entries

end Marginalia.FileTree
