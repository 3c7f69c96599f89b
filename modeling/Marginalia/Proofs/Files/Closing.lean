import Marginalia.Proofs.Files.Ways

set_option autoImplicit false

/-!
# Directories that cannot be read

A directory that cannot be read is to a walk one with nothing in it: nothing can be found in
it by name either, so that a link that leads through it leads nowhere.  What is left of a
tree without these directories has the ways of the tree that go through none of them, by
themselves or by the links that they follow, and no others.
-/

namespace Marginalia.FileTree

variable {t : FileTree} {closed : Place → Bool}

/-! ## What is shown -/

/-- Whether no directory around a place is closed. -/
def isShown (closed : Place → Bool) (place : Place) : Bool :=
  place.inits.all fun around => around == place || !closed around

/-- The tree as it is for somebody who can look into no closed directory. -/
def closing (t : FileTree) (closed : Place → Bool) : FileTree :=
  { t with entries := t.entries.filter fun e => isShown closed e.1 }

theorem IsProper.closing (h : t.IsProper) (closed : Place → Bool) :
    (t.closing closed).IsProper where
  apart := h.apart.sublist (List.filter_sublist.map _)
  named e he := h.named e (List.mem_filter.1 he).1

theorem isShown_iff {place : Place} :
    isShown closed place = true ↔
      ∀ around, around <+: place → around ≠ place → closed around = false := by
  simp only [isShown, List.all_eq_true, List.mem_inits, Bool.or_eq_true, beq_iff_eq,
    Bool.not_eq_eq_eq_not, Bool.not_true, or_iff_not_imp_left]

/-- What lies around a place that is shown is shown. -/
theorem isShown_above {place around : Place} (h : isShown closed place = true)
    (haround : around <+: place) : isShown closed around = true := by
  rw [isShown_iff] at h ⊢
  intro outer houter hne
  refine h outer (houter.trans haround) fun heq => hne ?_
  exact houter.eq_of_length_le (heq ▸ haround.length_le)

/-- What is shown stays as it is. -/
theorem entryAt?_closing {place : Place} (h : isShown closed place = true) :
    (t.closing closed).entryAt? place = t.entryAt? place := by
  unfold entryAt?
  split
  · rfl
  · have hfind : (t.entries.filter fun e => isShown closed e.1).find? (fun e => e.1 == place) =
        t.entries.find? fun e => e.1 == place := by
      rw [List.find?_filter]
      congr 1
      funext e
      by_cases he : e.1 = place
      · simp [he, h]
      · simp [he]
    rw [closing, hfind]

theorem isShown_of_entryAt? {place : Place} {entry : Entry} (hne : place ≠ [])
    (h : (t.closing closed).entryAt? place = some entry) : isShown closed place = true :=
  (List.mem_filter.1 (mem_entries_of_entryAt? hne h)).2

/-! ## What is looked up along a route -/

/-- Where an entry is looked up along the route of a path, all links followed. -/
inductive LooksUp (t : FileTree) : Nat → Place → List RawText → Place → Prop
  | skipped {links : Nat} {place q : Place} {piece : RawText} {rest : List RawText}
      (hpiece : IsSkipped piece) (onward : LooksUp t links place rest q) :
      LooksUp t links place (piece :: rest) q
  | up {links : Nat} {place q : Place} {rest : List RawText}
      (onward : LooksUp t links place.dropLast rest q) :
      LooksUp t links place ([Path.dot, Path.dot] :: rest) q
  | here {links : Nat} {place : Place} {name : RawText} {rest : List RawText}
      (hname : IsLookedUp name) : LooksUp t links place (name :: rest) (place ++ [name])
  | directory {links : Nat} {place q : Place} {name : RawText} {rest : List RawText}
      (hname : IsLookedUp name) (hentry : t.entryAt? (place ++ [name]) = some .directory)
      (onward : LooksUp t links (place ++ [name]) rest q) : LooksUp t links place (name :: rest) q
  | through {links : Nat} {place q : Place} {name : RawText} {target : Path} {rest : List RawText}
      (hname : IsLookedUp name) (hentry : t.entryAt? (place ++ [name]) = some (.link target))
      (onward : LooksUp t links (linkStart place target) (target.segments ++ rest) q) :
      LooksUp t (links + 1) place (name :: rest) q

namespace LooksUp

variable {links : Nat} {place q : Place} {piece name : RawText} {rest : List RawText}

theorem of_skipped (hpiece : IsSkipped piece) (h : t.LooksUp links place (piece :: rest) q) :
    t.LooksUp links place rest q := by
  cases h with
  | skipped _ onward => exact onward
  | up => exact absurd hpiece not_isSkipped_up
  | here hname => exact absurd hpiece hname.1
  | directory hname => exact absurd hpiece hname.1
  | through hname => exact absurd hpiece hname.1

theorem of_up (h : t.LooksUp links place ([Path.dot, Path.dot] :: rest) q) :
    t.LooksUp links place.dropLast rest q := by
  cases h with
  | skipped hpiece => exact absurd hpiece not_isSkipped_up
  | up onward => exact onward
  | here hname => exact absurd rfl hname.2
  | directory hname => exact absurd rfl hname.2
  | through hname => exact absurd rfl hname.2

theorem of_name (hname : IsLookedUp name) (h : t.LooksUp links place (name :: rest) q) :
    q = place ++ [name] ∨
      (t.entryAt? (place ++ [name]) = some .directory ∧ t.LooksUp links (place ++ [name]) rest q) ∨
      ∃ fewer target, links = fewer + 1 ∧ t.entryAt? (place ++ [name]) = some (.link target) ∧
        t.LooksUp fewer (linkStart place target) (target.segments ++ rest) q := by
  cases h with
  | skipped hpiece => exact absurd hpiece hname.1
  | up => exact absurd rfl hname.2
  | here => exact .inl rfl
  | directory _ hentry onward => exact .inr (.inl ⟨hentry, onward⟩)
  | through _ hentry onward => exact .inr (.inr ⟨_, _, rfl, hentry, onward⟩)

end LooksUp

/-- A route is told by the entries that are looked up along it. -/
theorem follow_eq_of_looksUp {t' : FileTree} {links : Nat} {place : Place} {pieces : List RawText}
    (h : ∀ q, t.LooksUp links place pieces q → t'.entryAt? q = t.entryAt? q) :
    t'.follow true links place pieces = t.follow true links place pieces := by
  induction links, place, pieces using follow_induction t with
  | nil links place => rw [follow_nil, follow_nil]
  | skipped links place piece rest hpiece ih =>
    rw [follow_skipped hpiece, follow_skipped hpiece]
    exact ih fun q hq => h q (.skipped hpiece hq)
  | up links place rest ih =>
    rw [follow_up, follow_up]
    exact ih fun q hq => h q (.up hq)
  | name links place name rest hname ihDirectory ihLink =>
    rw [follow_name hname, follow_name hname, h _ (.here hname)]
    rcases hentry : t.entryAt? (place ++ [name]) with _ | _ | content | target
    · rfl
    · rw [ihDirectory hentry fun q hq => h q (.directory hname hentry hq)]
    · rfl
    · cases links with
      | zero => rfl
      | succ fewer =>
        simp only [ihLink target fewer hentry rfl fun q hq => h q (.through hname hentry hq)]

/-- A route that comes to something without the closed directories comes to the same with
them, and all that is looked up along it is shown. -/
theorem Route.of_closing {links : Nat} {place found : Place} {pieces : List RawText} {entry : Entry}
    (h : (t.closing closed).Route true links place pieces (.found found entry)) :
    t.Route true links place pieces (.found found entry) ∧
      ∀ q, t.LooksUp links place pieces q → isShown closed q = true := by
  -- what a name is, is the same in both trees, since an entry stands there in the smaller one
  have hsame : ∀ {place : Place} {name : RawText} {entry : Entry},
      (t.closing closed).entryAt? (place ++ [name]) = some entry →
        isShown closed (place ++ [name]) = true ∧ t.entryAt? (place ++ [name]) = some entry :=
    fun {place name entry} hentry =>
      have hshown :=
        isShown_of_entryAt? (List.append_ne_nil_of_right_ne_nil _ (List.cons_ne_nil _ _)) hentry
      ⟨hshown, (entryAt?_closing hshown).symm.trans hentry⟩
  generalize hspot : Spot.found found entry = spot at h
  induction h with
  | arrived => exact ⟨.arrived, nofun⟩
  | skipped hpiece _ ih =>
    obtain ⟨hroute, hlooks⟩ := ih hspot
    exact ⟨.skipped hpiece hroute, fun q hq => hlooks q (hq.of_skipped hpiece)⟩
  | up _ ih =>
    obtain ⟨hroute, hlooks⟩ := ih hspot
    exact ⟨.up hroute, fun q hq => hlooks q hq.of_up⟩
  | vacant => cases hspot
  | directory hname hshort hentry _ ih =>
    obtain ⟨hroute, hlooks⟩ := ih hspot
    obtain ⟨hshown, hentry⟩ := hsame hentry
    refine ⟨.directory hname hshort hentry hroute, fun q hq => ?_⟩
    rcases hq.of_name hname with rfl | ⟨-, honward⟩ | ⟨_, _, -, hlink, -⟩
    · exact hshown
    · exact hlooks q honward
    · cases hentry.symm.trans hlink
  | file hname hshort hentry =>
    obtain ⟨hshown, hentry⟩ := hsame hentry
    refine ⟨.file hname hshort hentry, fun q hq => ?_⟩
    rcases hq.of_name hname with rfl | ⟨hdirectory, -⟩ | ⟨_, _, -, hlink, -⟩
    · exact hshown
    · cases hentry.symm.trans hdirectory
    · cases hentry.symm.trans hlink
  | link _ _ _ hlast => cases hlast
  | through hname hshort hentry hgoes _ ih =>
    obtain ⟨hroute, hlooks⟩ := ih hspot
    obtain ⟨hshown, hentry⟩ := hsame hentry
    refine ⟨.through hname hshort hentry hgoes hroute, fun q hq => ?_⟩
    rcases hq.of_name hname with rfl | ⟨hdirectory, -⟩ | ⟨_, _, hfewer, hlink, honward⟩
    · exact hshown
    · cases hentry.symm.trans hdirectory
    · cases hentry.symm.trans hlink
      cases hfewer
      exact hlooks q honward

/-- Whether nothing is looked up in a closed directory when a path is followed. -/
def Sees (t : FileTree) (closed : Place → Bool) (p : Path) : Prop :=
  ∀ start, t.start? p = some start →
    ∀ q, t.LooksUp linkBudget start p.segments q → isShown closed q = true

/-- A path that can be followed through no closed directory leads where it did. -/
theorem Sees.stat_closing {p : Path} (h : t.Sees closed p) (hsound : IsSound p) :
    (t.closing closed).stat p = t.stat p := by
  have hlocate : (t.closing closed).locate true p = t.locate true p := by
    rw [locate_of_isSound hsound, locate_of_isSound hsound,
      show (t.closing closed).start? p = t.start? p from rfl]
    cases hstart : t.start? p with
    | none => rfl
    | some start =>
      exact follow_eq_of_looksUp fun q hq => entryAt?_closing (h start hstart q hq)
  rw [stat, stat, hlocate]

/-- A path that leads somewhere without the closed directories goes through none of them. -/
theorem stat_of_stat_closing {p : Path} {place : Place} {entry : Entry}
    (h : (t.closing closed).stat p = .ok (place, entry)) :
    t.stat p = .ok (place, entry) ∧ t.Sees closed p := by
  have hlocate := locate_of_stat h
  have hsound := isSound_of_locate hlocate
  rw [locate_of_isSound hsound, show (t.closing closed).start? p = t.start? p from rfl] at hlocate
  have hsees : t.Sees closed p := fun start hstart => by
    rw [hstart] at hlocate
    exact (Route.of_closing (.of_follow hlocate)).2
  exact ⟨(hsees.stat_closing hsound).symm.trans h, hsees⟩

/-! ## Ways -/

/-- A way that goes through no closed directory: each name on it is shown, and so is all that
is looked up to follow a link. -/
inductive ShownWay (t : FileTree) (closed : Place → Bool) : (around : List Place) → Place →
    (directory : Bool) → List RawText → (last : Bool) → Prop
  | here {around : List Place} {place : Place} {directory : Bool} :
    ShownWay t closed around place directory [] directory
  | down {around : List Place} {place found : Place} {name : RawText} {directory last : Bool}
    {names : List RawText} (step : t.Enters (place :: around) place name found directory)
    (hshown : isShown closed (place ++ [name]) = true)
    (hlink : ∀ target, t.entryAt? (place ++ [name]) = some (.link target) →
      t.Sees closed (pathOf (place ++ [name])))
    (rest : ShownWay t closed (place :: around) found directory names last) :
    ShownWay t closed around place true (name :: names) last

section Ways

variable {around : List Place} {place found : Place} {name : RawText} {names : List RawText}
  {directory last : Bool}

/-- Without the closed directories the same is entered by a name that is shown, -/
theorem Enters.closing (h : t.Enters around place name found directory)
    (hshown : isShown closed (place ++ [name]) = true)
    (hlink : ∀ target, t.entryAt? (place ++ [name]) = some (.link target) →
      t.Sees closed (pathOf (place ++ [name]))) :
    (t.closing closed).Enters around place name found directory := by
  have hsame := entryAt?_closing (t := t) hshown
  cases h with
  | directory hentry => exact .directory (hsame.trans hentry)
  | file hentry => exact .file (hsame.trans hentry)
  | linkToDirectory hentry hstat hout =>
    have hstat' :=
      ((hlink _ hentry).stat_closing (isSound_of_locate (locate_of_stat hstat))).trans hstat
    exact .linkToDirectory (hsame.trans hentry) hstat' hout
  | linkToFile hentry hstat =>
    have hstat' :=
      ((hlink _ hentry).stat_closing (isSound_of_locate (locate_of_stat hstat))).trans hstat
    exact .linkToFile (hsame.trans hentry) hstat'

/-- and nothing is entered by any other name. -/
theorem Enters.of_closing (h : (t.closing closed).Enters around place name found directory) :
    t.Enters around place name found directory ∧ isShown closed (place ++ [name]) = true ∧
      ∀ target, t.entryAt? (place ++ [name]) = some (.link target) →
        t.Sees closed (pathOf (place ++ [name])) := by
  obtain ⟨entry, hentry⟩ : ∃ entry, (t.closing closed).entryAt? (place ++ [name]) = some entry := by
    cases h <;> exact ⟨_, ‹_›⟩
  have hshown := isShown_of_entryAt? (by simp) hentry
  have hsame := entryAt?_closing (t := t) hshown
  cases h with
  | directory hentry =>
    rw [hsame] at hentry
    exact ⟨.directory hentry, hshown, fun target hlink => by cases hentry.symm.trans hlink⟩
  | file hentry =>
    rw [hsame] at hentry
    exact ⟨.file hentry, hshown, fun target hlink => by cases hentry.symm.trans hlink⟩
  | linkToDirectory hentry hstat hout =>
    obtain ⟨hstat, hsees⟩ := stat_of_stat_closing hstat
    exact ⟨.linkToDirectory (hsame.symm.trans hentry) hstat hout, hshown, fun _ _ => hsees⟩
  | linkToFile hentry hstat =>
    obtain ⟨hstat, hsees⟩ := stat_of_stat_closing hstat
    exact ⟨.linkToFile (hsame.symm.trans hentry) hstat, hshown, fun _ _ => hsees⟩

/-- The ways that are left without the closed directories are those of the tree that go
through none of them. -/
theorem way_closing_iff :
    (t.closing closed).Way around place directory names last ↔
      t.ShownWay closed around place directory names last := by
  constructor
  · intro h
    induction h with
    | here => exact .here
    | down step _ ih =>
      obtain ⟨step, hshown, hlink⟩ := step.of_closing
      exact .down step hshown hlink ih
  · intro h
    induction h with
    | here => exact .here
    | down step hshown hlink _ ih => exact .down (step.closing hshown hlink) ih

end Ways

/-- Directories one inside of the other make a way to a file in the last of them. -/
theorem way_of_entries {around : List Place} {place : Place} {names : List RawText}
    {content : Content}
    (hdirectories : ∀ front, front <+: names → front ≠ names →
      t.entryAt? (place ++ front) = some .directory)
    (hfile : t.entryAt? (place ++ names) = some (.file content)) (hne : names ≠ []) :
    t.Way around place true names false := by
  induction names generalizing around place with
  | nil => exact absurd rfl hne
  | cons name rest ih =>
    rw [List.append_cons] at hfile
    rcases eq_or_ne rest [] with rfl | hrest
    · rw [List.append_nil] at hfile
      exact .down (.file hfile) .here
    · have hdirectory := hdirectories [name] ((List.prefix_cons_inj name).2 List.nil_prefix)
        (by simpa using hrest.symm)
      refine .down (.directory hdirectory) (ih (fun front hfront hproper => ?_) hfile hrest)
      have hbelow := hdirectories (name :: front) ((List.prefix_cons_inj name).2 hfront)
        (by simpa using hproper)
      rwa [List.append_cons] at hbelow

/-- Closed directories leave the way to a file that lies in none of them. -/
theorem way_closing {place : Place} {names : List RawText} {content : Content}
    (hdirectories : ∀ front, front <+: names → front ≠ names →
      t.entryAt? (place ++ front) = some .directory)
    (hfile : t.entryAt? (place ++ names) = some (.file content)) (hne : names ≠ [])
    (hshown : isShown closed (place ++ names) = true) :
    (t.closing closed).Way [] place true names false := by
  have hfile' := (entryAt?_closing hshown).trans hfile
  refine way_of_entries (fun front hfront hproper => ?_) hfile' hne
  rw [entryAt?_closing (isShown_above hshown ((List.prefix_append_right_inj _).2 hfront))]
  exact hdirectories front hfront hproper

end Marginalia.FileTree
